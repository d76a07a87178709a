/-!
Offsets into a text count the bytes of its UTF-8 form.
-/

namespace AtomicCss.Text

def byteLength : List Char → Nat
  | [] => 0
  | c :: rest => c.utf8Size + byteLength rest

/-- Cuts a text at a byte offset. There is no cut past the end or inside a character. -/
def cutAtByte? : Nat → List Char → Option (List Char × List Char)
  | 0, text => some ([], text)
  | _ + 1, [] => none
  | offset + 1, c :: rest =>
      if offset + 1 < c.utf8Size then none
      else (cutAtByte? (offset + 1 - c.utf8Size) rest).map fun parts => (c :: parts.1, parts.2)

def charsBeforeByte : Nat → List Char → Nat
  | 0, _ => 0
  | _ + 1, [] => 0
  | offset + 1, c :: rest => charsBeforeByte (offset + 1 - c.utf8Size) rest + 1

@[simp] theorem byteLength_nil : byteLength [] = 0 := rfl

@[simp] theorem byteLength_cons (c : Char) (text : List Char) :
    byteLength (c :: text) = c.utf8Size + byteLength text := rfl

@[simp] theorem byteLength_append (first second : List Char) :
    byteLength (first ++ second) = byteLength first + byteLength second := by
  induction first with
  | nil => simp
  | cons c first ih => simp [ih, Nat.add_assoc]

theorem cutAtByte?_append (first second : List Char) :
    cutAtByte? (byteLength first) (first ++ second) = some (first, second) := by
  induction first with
  | nil => simp [cutAtByte?]
  | cons c first ih =>
      have hsize := c.utf8Size_pos
      obtain ⟨size, hsize⟩ : ∃ size, byteLength (c :: first) = size + 1 :=
        ⟨byteLength (c :: first) - 1, by rw [byteLength_cons]; omega⟩
      rw [hsize, List.cons_append, cutAtByte?]
      rw [byteLength_cons] at hsize
      have hrest : size + 1 - c.utf8Size = byteLength first := by omega
      rw [if_neg (by omega), hrest, ih]
      rfl

end AtomicCss.Text
