/-!
Blank characters are the code points with the Unicode property `White_Space`.
-/

namespace AtomicCss.Text

def isBlank (c : Char) : Bool :=
  let code := c.toNat
  (0x09 ≤ code && code ≤ 0x0D) || code == 0x20 || code == 0x85 || code == 0xA0 ||
    code == 0x1680 || (0x2000 ≤ code && code ≤ 0x200A) || code == 0x2028 || code == 0x2029 ||
    code == 0x202F || code == 0x205F || code == 0x3000

def trimStart (text : List Char) : List Char :=
  text.dropWhile isBlank

def trimEnd (text : List Char) : List Char :=
  (text.reverse.dropWhile isBlank).reverse

def trim (text : List Char) : List Char :=
  trimEnd (trimStart text)

def trimmed (text : String) : String :=
  String.ofList (trim text.toList)

@[simp] theorem trimStart_nil : trimStart [] = [] := rfl

@[simp] theorem trimEnd_nil : trimEnd [] = [] := rfl

@[simp] theorem trim_nil : trim [] = [] := rfl

@[simp] theorem toList_trimmed (text : String) : (trimmed text).toList = trim text.toList := by
  simp [trimmed]

theorem isBlank_getLast?_trimEnd {text : List Char} {c : Char}
    (h : (trimEnd text).getLast? = some c) : isBlank c = false := by
  rw [trimEnd, List.getLast?_reverse] at h
  have hhead := List.head?_dropWhile_not isBlank text.reverse
  rw [h] at hhead
  simpa using hhead

theorem trimEnd_eq_self {text : List Char}
    (h : ∀ c, text.getLast? = some c → isBlank c = false) : trimEnd text = text := by
  rw [trimEnd, List.reverse_eq_iff]
  cases hreverse : text.reverse with
  | nil => rfl
  | cons c rest =>
      rw [List.dropWhile_cons_of_neg]
      rw [h c]
      · simp
      · rw [← List.head?_reverse, hreverse, List.head?_cons]

theorem trimStart_append {text : List Char} {c : Char} (htext : text.head? = some c)
    (hc : isBlank c = false) (lead : List Char) :
    trimStart (lead ++ text) = trimStart lead ++ text := by
  obtain ⟨rest, rfl⟩ := List.head?_eq_some_iff.mp htext
  induction lead with
  | nil => simp [trimStart, hc]
  | cons d lead ih =>
      simp only [trimStart, List.cons_append, List.dropWhile_cons] at ih ⊢
      split
      · exact ih
      · rfl

theorem trimEnd_append {text : List Char} {c : Char} (htext : text.getLast? = some c)
    (hc : isBlank c = false) (tail : List Char) :
    trimEnd (text ++ tail) = text ++ trimEnd tail := by
  rw [← List.head?_reverse] at htext
  have hstart := trimStart_append htext hc tail.reverse
  simp only [trimStart] at hstart
  rw [trimEnd, List.reverse_append, hstart, List.reverse_append, List.reverse_reverse]
  rfl

theorem trim_infix (text : List Char) : trim text <:+: text := by
  have hstart : trimStart text <:+ text := List.dropWhile_suffix isBlank
  have hend : trimEnd (trimStart text) <+: trimStart text := by
    rw [← List.reverse_suffix, trimEnd, List.reverse_reverse]
    exact List.dropWhile_suffix isBlank
  exact hend.isInfix.trans hstart.isInfix

end AtomicCss.Text
