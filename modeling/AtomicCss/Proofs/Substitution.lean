import AtomicCss.Proofs.References
import AtomicCss.Proofs.WildcardUtility

/-!
Putting captures into a value. In a value without `--value(` every character is replaced on its own,
by what the value alone says of its place: what a capture holds is never looked at. A pattern into
which its own captures are put becomes the text that it matched.
-/

namespace AtomicCss.Utility

namespace Pattern

theorem isNameChar_of_isWordChar {c : Char} (h : isWordChar c = true) :
    Css.isNameChar c = true := by
  have halphanum : c.isAlphanum = true := by
    rcases Bool.or_eq_true_iff.mp h with hlower | hdigit
    · exact Bool.or_eq_true_iff.mpr (.inl (Bool.or_eq_true_iff.mpr (.inr hlower)))
    · exact Bool.or_eq_true_iff.mpr (.inr hdigit)
  simp [Css.isNameChar, halphanum]

theorem isNameChar_or_star {pattern : List Char} (h : Derives pattern) :
    ∀ c ∈ pattern, Css.isNameChar c = true ∨ c = '*' := by
  have hname {word : List Char} (hword : ∀ c ∈ word, IsLetterOrDigit c) :
      ∀ c ∈ word, Css.isNameChar c = true ∨ c = '*' := by
    intro c hc
    exact .inl (isNameChar_of_isWordChar (isWordChar_iff.mpr (hword c hc)))
  induction h with
  | first hletter hrest => exact hname (List.forall_mem_cons.mpr ⟨.inl hletter, hrest⟩)
  | word hpattern hempty hword ih =>
      rw [List.forall_mem_append, List.forall_mem_cons]
      exact ⟨ih, .inl rfl, hname hword⟩
  | wildcard hpattern ih =>
      rw [List.forall_mem_append]
      exact ⟨ih, by simp [Css.isNameChar]⟩

end Pattern

namespace Custom

def blankAt (text : List Char) (place : Nat) : Bool :=
  text[place]?.any Text.isBlank

/-- Whether a `*` without blanks on both sides stands at this place. -/
def isHole (text : List Char) (place : Nat) : Bool :=
  text[place]? == some '*' &&
    !(decide (0 < place) && blankAt text (place - 1) && blankAt text (place + 1))

def holesBefore (text : List Char) (place : Nat) : Nat :=
  (List.range place).countP (isHole text)

/-- What is put in the place of one character. The first hole takes the first capture, the next one
the next, and the last capture serves all holes that are left. -/
def image (captures : List String) (text : List Char) (place : Nat) : List Char :=
  if isHole text place then
    (captures.getD (min (holesBefore text place) (captures.length - 1)) "").toList
  else text[place]?.toList

theorem isHole_append_cons (done : List Char) (c : Char) (rest : List Char) :
    isHole (done ++ c :: rest) done.length =
      (c == '*' && !isArithmetic done.getLast? rest) := by
  have hhere : (done ++ c :: rest)[done.length]? = some c := by simp
  have hafter : (done ++ c :: rest)[done.length + 1]? = rest.head? := by
    rw [List.append_cons, List.getElem?_append_right (by simp)]
    simp [List.head?_eq_getElem?]
  have hbefore : (decide (0 < done.length) && blankAt (done ++ c :: rest) (done.length - 1)) =
      done.getLast?.any Text.isBlank := by
    cases done with
    | nil => rfl
    | cons d done =>
        have hlast : (d :: done ++ c :: rest)[(d :: done).length - 1]? = (d :: done).getLast? := by
          rw [List.getElem?_append_left (by simp), List.getLast?_eq_getElem?]
        rw [blankAt, hlast]
        simp
  rw [isHole, hbefore, blankAt, hhere, hafter, isArithmetic]
  rfl

theorem holesBefore_succ (text : List Char) (place : Nat) :
    holesBefore text (place + 1) =
      holesBefore text place + if isHole text place then 1 else 0 := by
  simp [holesBefore, List.range_succ, List.countP_append, List.countP_cons]

/-- The captures that are left after `count` holes start with the one for the next hole. -/
theorem nextCapture_drop (captures : List String) (count : Nat) :
    nextCapture (captures.drop (min count (captures.length - 1))) =
      (captures.getD (min count (captures.length - 1)) "",
        captures.drop (min (count + 1) (captures.length - 1))) := by
  induction captures generalizing count with
  | nil => simp [nextCapture]
  | cons first rest ih =>
      cases rest with
      | nil => simp [nextCapture]
      | cons second rest =>
          cases count with
          | zero => simp [nextCapture]
          | succ count =>
              have hlength : (first :: second :: rest).length - 1 =
                  (second :: rest).length - 1 + 1 := rfl
              rw [hlength, Nat.add_min_add_right, Nat.add_min_add_right, List.drop_succ_cons,
                List.drop_succ_cons, List.getD_cons_succ, ih]

theorem substituteFrom?_nil (resolve? : String → List Char → Option String)
    (previous : Option Char) (captures : List String) :
    substituteFrom? resolve? previous captures [] = some [] := by
  rw [substituteFrom?]
  rfl

theorem substituteFrom?_cons {c : Char} {rest : List Char}
    (h : ¬"--value(".toList <+: c :: rest) (resolve? : String → List Char → Option String)
    (previous : Option Char) (captures : List String) :
    substituteFrom? resolve? previous captures (c :: rest) =
      if c == '*' && !isArithmetic previous rest then
        (substituteFrom? resolve? (some c) (nextCapture captures).2 rest).map
          ((nextCapture captures).1.toList ++ ·)
      else (substituteFrom? resolve? (some c) captures rest).map (c :: ·) := by
  rw [substituteFrom?]
  split
  · rename_i hopened
    rw [Text.after?_eq_none h] at hopened
    cases hopened
  · refine if_congr (by simp) ?_ rfl
    obtain ⟨capture, left⟩ := nextCapture captures
    exact Option.map_eq_bind.symm

/-- The search has passed `done`, and its state is what `done` says: the last character, and the
captures that its holes have left. -/
theorem substituteFrom?_eq_flatMap (resolve? : String → List Char → Option String)
    (captures : List String) (done : List Char) {rest : List Char}
    (h : ¬"--value(".toList <:+: rest) :
    substituteFrom? resolve? done.getLast?
        (captures.drop (min (holesBefore (done ++ rest) done.length) (captures.length - 1))) rest =
      some ((List.range' done.length rest.length).flatMap (image captures (done ++ rest))) := by
  induction rest generalizing done with
  | nil => exact substituteFrom?_nil ..
  | cons c rest ih =>
      have hlead : ¬"--value(".toList <+: c :: rest := fun hlead => h hlead.isInfix
      have hrest : ¬"--value(".toList <:+: rest :=
        fun hfound => h (hfound.trans (List.suffix_cons c rest).isInfix)
      have hhole := isHole_append_cons done c rest
      have hcount := holesBefore_succ (done ++ c :: rest) done.length
      have hlater := ih (done ++ [c]) hrest
      rw [← List.append_cons, List.getLast?_concat, List.length_append, List.length_singleton,
        hcount, hhole] at hlater
      rw [substituteFrom?_cons hlead, List.length_cons, List.range'_succ, List.flatMap_cons, image,
        hhole]
      split
      · rename_i hopen
        rw [if_pos hopen] at hlater
        rw [nextCapture_drop, hlater, Option.map_some]
      · rename_i hclosed
        rw [if_neg hclosed, Nat.add_zero] at hlater
        rw [hlater, Option.map_some]
        simp

theorem exists_nextCapture_cons (first : String) (captures : List String) :
    ∃ next, nextCapture (first :: captures) = (first, next) ∧ captures <+: next := by
  cases captures with
  | nil => exact ⟨[first], rfl, List.nil_prefix⟩
  | cons second rest => exact ⟨_, rfl, List.prefix_rfl⟩

/-- In a text without blanks every `*` is a hole. -/
theorem substituteFrom?_eq_fill (resolve? : String → List Char → Option String)
    (previous : Option Char) {text : List Char} (hround : '(' ∉ text)
    (hblank : ∀ c ∈ text, Text.isBlank c = false) {texts captures : List String}
    (hlength : texts.length = text.count '*') (hcaptures : texts <+: captures) :
    substituteFrom? resolve? previous captures text =
      some (Wildcard.fill text (texts.map String.toList)) := by
  induction text generalizing previous texts captures with
  | nil => exact substituteFrom?_nil ..
  | cons c rest ih =>
      have hlead : ¬"--value(".toList <+: c :: rest :=
        fun hlead => hround (hlead.subset (by simp))
      have hround' : '(' ∉ rest := fun hmem => hround (List.mem_cons_of_mem c hmem)
      have hblank' := (List.forall_mem_cons.mp hblank).2
      rw [substituteFrom?_cons hlead]
      by_cases hc : c = '*'
      · subst hc
        have harithmetic : isArithmetic previous rest = false := by
          cases rest with
          | nil => simp [isArithmetic]
          | cons d rest => simp [isArithmetic, hblank' d List.mem_cons_self]
        rw [List.count_cons_self] at hlength
        obtain ⟨first, later, rfl⟩ := List.exists_cons_of_length_eq_add_one hlength
        obtain ⟨more, rfl⟩ := hcaptures
        obtain ⟨next, hnext, hkept⟩ := exists_nextCapture_cons first (later ++ more)
        have hlater : later <+: next := (List.prefix_append later more).trans hkept
        rw [List.cons_append, hnext, if_pos (by simp [harithmetic]),
          ih _ hround' hblank' (Nat.succ.inj hlength) hlater]
        rfl
      · rw [List.count_cons_of_ne hc] at hlength
        rw [if_neg (by simp [hc]), ih _ hround' hblank' hlength hcaptures,
          Wildcard.fill_cons_of_ne hc]
        rfl

theorem substitute?_eq_flatMap (theme : Theme) (captures : Captures) {value : String}
    (h : ¬"--value(".toList <:+: value.toList) :
    substitute? theme captures value =
      some (String.ofList ((List.range value.toList.length).flatMap
        (image captures.texts value.toList))) := by
  have hfrom := substituteFrom?_eq_flatMap (functionValue? theme captures.arbitrary)
    captures.texts [] h
  have hdrop : captures.texts.drop (min (holesBefore value.toList 0) (captures.texts.length - 1)) =
      captures.texts := by
    rw [holesBefore, List.range_zero, List.countP_nil, Nat.zero_min, List.drop_zero]
  rw [List.nil_append, List.length_nil, hdrop, List.getLast?_nil, ← List.range_eq_range'] at hfrom
  rw [substitute?, hfrom, Option.map_some]

section Pattern

variable {definition : Definition} (hvalid : definition.validate = .ok ())

include hvalid

theorem substitute?_pattern (theme : Theme) {captures : Captures}
    (hlength : captures.texts.length = definition.pattern.toList.count '*') :
    substitute? theme captures definition.pattern =
      some (String.ofList
        (Wildcard.fill definition.pattern.toList (captures.texts.map String.toList))) := by
  have hchars := Pattern.isNameChar_or_star
    (Pattern.isWellFormed_iff.mp (Definition.of_validate hvalid).1)
  have hround : '(' ∉ definition.pattern.toList := by
    intro hmem
    rcases hchars '(' hmem with h | h <;> cases h
  have hblank : ∀ c ∈ definition.pattern.toList, Text.isBlank c = false := by
    intro c hc
    rcases hchars c hc with h | h
    · exact Theme.isBlank_eq_false_of_isNameChar h
    · rw [h]
      decide
  rw [substitute?, substituteFrom?_eq_fill _ _ hround hblank hlength List.prefix_rfl,
    Option.map_some]

theorem substitute?_pattern_of_fits (theme : Theme) {captures : Captures} {subject : String}
    (h : Wildcard.Fits definition.pattern.toList (captures.texts.map String.toList)
      subject.toList) :
    substitute? theme captures definition.pattern = some subject := by
  have hlength := h.length_eq
  rw [List.length_map] at hlength
  rw [substitute?_pattern hvalid theme hlength, h.fill_eq, String.ofList_toList]

/-- An arbitrary value may be empty or hold line breaks, so it need not match; but it is put in like
any other. -/
theorem substitute?_pattern_of_captures? (theme : Theme) {root : String} {value : Candidate.Value}
    {captures : Captures} (h : captures? definition root value = some captures) :
    substitute? theme captures definition.pattern = some (root ++ "-" ++ value.text) := by
  cases value with
  | named text fraction =>
      obtain ⟨texts, rfl, hfits⟩ := captures?_named_eq_some_iff.mp h
      exact substitute?_pattern_of_fits hvalid theme hfits.fits
  | arbitrary text hint =>
      obtain ⟨⟨hcount, htail⟩, hcaptures⟩ := Option.ite_none_right_eq_some.mp h
      cases hcaptures
      have hpattern := Text.eq_append_of_before? htail
      have hroot : '*' ∉ root.toList := by
        intro hmem
        have hpositive := List.count_pos_iff.mpr hmem
        rw [hpattern, List.count_append] at hcount
        have hstar : "-*".toList.count '*' = 1 := by decide
        omega
      have hfill : Wildcard.fill definition.pattern.toList [text.toList] =
          (root ++ "-" ++ text).toList := by
        rw [hpattern, Wildcard.fill_append_of_not_mem hroot]
        simp [Wildcard.fill]
      have hlength : [text].length = definition.pattern.toList.count '*' := hcount.symm
      rw [substitute?_pattern hvalid theme hlength, List.map_singleton, hfill, String.ofList_toList]
      rfl

end Pattern

/-- Each character of a value without `--value(` gives its own part of the result: a hole the
capture of its number, or the last one if there are fewer, and any other character itself. A valid
pattern with its captures put in is the subject that it matched, or the root and the value that it
was tried on. -/
theorem substitution_is_simultaneous (theme : Theme) :
    (∀ (captures : Captures) (value : String), ¬"--value(".toList <:+: value.toList →
      substitute? theme captures value =
        some (String.ofList ((List.range value.toList.length).flatMap
          (image captures.texts value.toList)))) ∧
    ∀ definition : Definition, definition.validate = .ok () →
      (∀ subject parts arbitrary,
        Wildcard.captures? definition.pattern.toList subject = some parts →
        substitute? theme ⟨parts.map String.ofList, arbitrary⟩ definition.pattern =
          some (String.ofList subject)) ∧
      ∀ root value captures, captures? definition root value = some captures →
        substitute? theme captures definition.pattern = some (root ++ "-" ++ value.text) := by
  refine ⟨fun captures value h => substitute?_eq_flatMap theme captures h, ?_⟩
  intro definition hvalid
  refine ⟨?_, fun root value captures h => substitute?_pattern_of_captures? hvalid theme h⟩
  intro subject parts arbitrary h
  apply substitute?_pattern_of_fits hvalid theme
  rw [List.map_map, String.toList_ofList]
  simpa using Wildcard.fits_of_captures? h

/-- A capture with a `*` in it, a product between two holes, and one hole more than captures. -/
theorem substitution_is_simultaneous_starred :
    ¬"--value(".toList <:+: "calc(* * 2px) */*".toList ∧
      substitute? .empty ⟨["a*b", "2"], none⟩ "calc(* * 2px) */*" = some "calc(a*b * 2px) 2/2" ∧
      (⟨"area-*-*", [("order", "*")], []⟩ : Definition).validate = .ok () ∧
      Wildcard.captures? "area-*-*".toList "area-a-*-4".toList = some ["a-*".toList, "4".toList] ∧
      substitute? .empty ⟨["a-*", "4"], none⟩ "area-*-*" = some "area-a-*-4" := by
  have hfree : ¬"--value(".toList <:+: "calc(* * 2px) */*".toList := by decide
  have hvalid : (⟨"area-*-*", [("order", "*")], []⟩ : Definition).validate = .ok () := by
    decide +kernel
  have hcaptures : Wildcard.captures? "area-*-*".toList "area-a-*-4".toList =
      some ["a-*".toList, "4".toList] := by decide +kernel
  obtain ⟨hvalues, hpatterns⟩ := substitution_is_simultaneous .empty
  refine ⟨hfree, ?_, hvalid, hcaptures, (hpatterns _ hvalid).1 _ _ none hcaptures⟩
  rw [hvalues _ _ hfree]
  decide +kernel

end Custom

end AtomicCss.Utility
