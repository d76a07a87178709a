import AtomicCss.Text.Blank

/-!
Cutting texts. `cutAll` runs an automaton over a text and cuts it at the characters the automaton
points out; every way of splitting a text at separators is an instance of it.
-/

namespace AtomicCss.Text

/-- Cuts a text before and after each character at which `cuts` holds of the state reached so far:
the first piece, then each cutting character with the piece that follows it. -/
def cutAll {State : Type} (step : State → Char → State) (cuts : State → Char → Bool) :
    State → List Char → List Char × List (Char × List Char)
  | _, [] => ([], [])
  | state, c :: rest =>
      let later := cutAll step cuts (step state c) rest
      if cuts state c then ([], (c, later.1) :: later.2) else (c :: later.1, later.2)

def pieces {State : Type} (step : State → Char → State) (cuts : State → Char → Bool)
    (state : State) (text : List Char) : List (List Char) :=
  let parts := cutAll step cuts state text
  parts.1 :: parts.2.map Prod.snd

def splitWhere (cuts : Char → Bool) (text : List Char) : List (List Char) :=
  pieces (fun (_ : Unit) _ => ()) (fun _ c => cuts c) () text

def splitOn (separator : Char) (text : List Char) : List (List Char) :=
  splitWhere (· == separator) text

def words (text : List Char) : List (List Char) :=
  (splitWhere isBlank text).filter (!·.isEmpty)

def cut? (separator : Char) : List Char → Option (List Char × List Char)
  | [] => none
  | c :: rest =>
      if c = separator then some ([], rest)
      else (cut? separator rest).map fun parts => (c :: parts.1, parts.2)

/-- All ways to cut a text at one `separator`, by increasing length of the first part. -/
def cutsAt (separator : Char) : List Char → List (List Char × List Char)
  | [] => []
  | c :: rest =>
      let later := (cutsAt separator rest).map fun parts => (c :: parts.1, parts.2)
      if c = separator then ([], rest) :: later else later

def after? : (lead text : List Char) → Option (List Char)
  | [], text => some text
  | _ :: _, [] => none
  | c :: lead, d :: text => if c = d then after? lead text else none

def before? (tail text : List Char) : Option (List Char) :=
  (after? tail.reverse text.reverse).map List.reverse

def startsWith (lead text : List Char) : Bool :=
  lead.isPrefixOf text

def contains (needle : List Char) : List Char → Bool
  | [] => needle.isEmpty
  | c :: rest => startsWith needle (c :: rest) || contains needle rest

def replaceChar (target : Char) (replacement : List Char) (text : List Char) : List Char :=
  text.flatMap fun c => if c = target then replacement else [c]

def join (separator : List Char) : List (List Char) → List Char
  | [] => []
  | [part] => part
  | part :: rest => part ++ separator ++ join separator rest

def isDigits (text : List Char) : Bool :=
  !text.isEmpty && text.all Char.isDigit

theorem cutAll_append {State : Type} (step : State → Char → State) (cuts : State → Char → Bool)
    (state : State) (text : List Char) :
    (cutAll step cuts state text).1 ++
      (cutAll step cuts state text).2.flatMap (fun part => part.1 :: part.2) = text := by
  induction text generalizing state with
  | nil => rfl
  | cons c rest ih =>
      simp only [cutAll]
      split
      · simpa using congrArg (c :: ·) (ih (step state c))
      · simpa using congrArg (c :: ·) (ih (step state c))

theorem infix_of_mem_pieces {State : Type} {step : State → Char → State}
    {cuts : State → Char → Bool} {state : State} {text piece : List Char}
    (h : piece ∈ pieces step cuts state text) : piece <:+: text := by
  rw [← cutAll_append step cuts state text]
  rcases List.mem_cons.mp h with rfl | h
  · exact (List.prefix_append _ _).isInfix
  · obtain ⟨part, hpart, rfl⟩ := List.mem_map.mp h
    have hlater : part.1 :: part.2 <:+:
        (cutAll step cuts state text).2.flatMap fun part => part.1 :: part.2 :=
      List.infix_of_mem_flatten (List.mem_map_of_mem hpart)
    exact ((List.suffix_cons part.1 part.2).isInfix.trans hlater).trans
      (List.suffix_append _ _).isInfix

theorem join_cons_of_ne_nil (separator part : List Char) {parts : List (List Char)}
    (h : parts ≠ []) :
    join separator (part :: parts) = part ++ separator ++ join separator parts := by
  cases parts with
  | nil => exact (h rfl).elim
  | cons next rest => rfl

theorem forall_mem_join {P : Char → Prop} {separator : List Char} {parts : List (List Char)}
    (hseparator : ∀ c ∈ separator, P c) (hparts : ∀ part ∈ parts, ∀ c ∈ part, P c) :
    ∀ c ∈ join separator parts, P c := by
  induction parts with
  | nil => simp [Text.join]
  | cons part rest ih =>
      obtain ⟨hpart, hrest⟩ := List.forall_mem_cons.mp hparts
      cases rest with
      | nil => exact hpart
      | cons next rest =>
          rw [join_cons_of_ne_nil _ _ (List.cons_ne_nil _ _)]
          simp only [List.forall_mem_append]
          exact ⟨⟨hpart, hseparator⟩, ih hrest⟩

theorem toList_intercalate (separator : String) (parts : List String) :
    (separator.intercalate parts).toList = join separator.toList (parts.map String.toList) := by
  induction parts with
  | nil => simp [join]
  | cons part rest ih =>
      cases rest with
      | nil => simp [join]
      | cons next rest =>
          rw [String.intercalate_cons_cons, String.toList_append, String.toList_append, ih]
          rfl

theorem join_cons_cons (separator : List Char) (c : Char) (part : List Char)
    (parts : List (List Char)) :
    join separator ((c :: part) :: parts) = c :: join separator (part :: parts) := by
  cases parts <;> rfl

/-- Joining the pieces puts the characters back that were cut away, if they are all the same. -/
theorem join_pieces {State : Type} (step : State → Char → State) {cuts : State → Char → Bool}
    {separator : Char} (hcuts : ∀ state c, cuts state c = true → c = separator) (state : State)
    (text : List Char) : join [separator] (pieces step cuts state text) = text := by
  induction text generalizing state with
  | nil => rfl
  | cons c rest ih =>
      have hrest := ih (step state c)
      simp only [pieces, cutAll] at hrest ⊢
      split
      · rename_i hcut
        have hc := hcuts state c hcut
        subst hc
        exact congrArg (c :: ·) hrest
      · rw [join_cons_cons, hrest]

theorem eq_append_of_after? {lead text rest : List Char} (h : after? lead text = some rest) :
    text = lead ++ rest := by
  induction lead generalizing text with
  | nil => simpa [after?] using h
  | cons c lead ih =>
      cases text with
      | nil => simp [after?] at h
      | cons d text =>
          simp only [after?] at h
          split at h
          · rename_i hcd
            rw [hcd, ih h, List.cons_append]
          · simp at h

@[simp] theorem after?_append (lead text : List Char) :
    after? lead (lead ++ text) = some text := by
  induction lead with
  | nil => rfl
  | cons c lead ih => simp [after?, ih]

theorem replaceChar_singleton (target replacement : Char) (text : List Char) :
    replaceChar target [replacement] text =
      text.map fun c => if c = target then replacement else c := by
  induction text with
  | nil => rfl
  | cons c rest ih =>
      rw [replaceChar, List.flatMap_cons, List.map_cons, ← ih]
      split <;> rfl

theorem eq_append_of_before? {tail text rest : List Char} (h : before? tail text = some rest) :
    text = rest ++ tail := by
  simp only [before?] at h
  obtain ⟨reversed, hreversed, rfl⟩ := Option.map_eq_some_iff.mp h
  have := congrArg List.reverse (eq_append_of_after? hreversed)
  simpa using this

theorem eq_append_of_cut? {separator : Char} {text before rest : List Char}
    (h : cut? separator text = some (before, rest)) : text = before ++ separator :: rest := by
  induction text generalizing before with
  | nil => simp [cut?] at h
  | cons c text ih =>
      simp only [cut?] at h
      split at h
      · simp_all
      · obtain ⟨parts, hparts, heq⟩ := Option.map_eq_some_iff.mp h
        cases heq
        simp [ih hparts]

theorem after?_eq_some_iff {lead text rest : List Char} :
    after? lead text = some rest ↔ text = lead ++ rest := by
  constructor
  · exact eq_append_of_after?
  · intro h
    rw [h, after?_append]

theorem after?_eq_none {lead text : List Char} (h : ¬lead <+: text) : after? lead text = none := by
  rw [Option.eq_none_iff_forall_ne_some]
  intro rest hrest
  apply h
  rw [eq_append_of_after? hrest]
  exact List.prefix_append lead rest

theorem before?_eq_some_iff {tail text rest : List Char} :
    before? tail text = some rest ↔ text = rest ++ tail := by
  constructor
  · exact eq_append_of_before?
  · intro h
    rw [before?, h, List.reverse_append, after?_append, Option.map_some, List.reverse_reverse]

theorem startsWith_singleton_iff {c : Char} {text : List Char} :
    startsWith [c] text = true ↔ text.head? = some c := by
  cases text with
  | nil => simp [startsWith]
  | cons d rest => simpa [startsWith] using eq_comm

theorem length_lt_of_after? {lead text rest : List Char} (hlead : lead ≠ [])
    (h : after? lead text = some rest) : rest.length < text.length := by
  have := eq_append_of_after? h
  have := List.length_pos_iff.mpr hlead
  simp_all

theorem length_lt_of_cut? {separator : Char} {text before rest : List Char}
    (h : cut? separator text = some (before, rest)) : rest.length < text.length := by
  rw [eq_append_of_cut? h]
  simp
  omega

theorem mem_cutsAt {separator : Char} {text : List Char} {parts : List Char × List Char} :
    parts ∈ cutsAt separator text ↔ text = parts.1 ++ separator :: parts.2 := by
  obtain ⟨first, second⟩ := parts
  induction text generalizing first with
  | nil => simp [cutsAt]
  | cons c rest ih =>
      cases first with
      | nil =>
          simp only [cutsAt]
          split <;> simp_all [eq_comm]
      | cons d first =>
          have hlater : (d :: first, second) ∈
              (cutsAt separator rest).map (fun parts => (c :: parts.1, parts.2)) ↔
                c :: rest = d :: first ++ separator :: second := by
            rw [List.mem_map, List.cons_append, List.cons.injEq]
            constructor
            · intro ⟨parts, hparts, heq⟩
              cases heq
              exact ⟨rfl, (ih _).mp hparts⟩
            · intro ⟨hc, hrest⟩
              exact ⟨(first, second), (ih first).mpr hrest, by rw [hc]⟩
          simp only [cutsAt]
          split
          · simpa using hlater
          · exact hlater

theorem splitOn_cons (separator c : Char) (rest : List Char) :
    splitOn separator (c :: rest) =
      if c = separator then [] :: splitOn separator rest
      else (c :: (splitOn separator rest).headD []) :: (splitOn separator rest).tail := by
  simp only [splitOn, splitWhere, pieces, cutAll, beq_iff_eq]
  split <;> rfl

end AtomicCss.Text
