import AtomicCss.Extract.ClassList
import AtomicCss.Selector
import AtomicCss.Theme.Reference
import AtomicCss.Utility.Color

/-!
Reading class names back from selectors. Escapes are read as CSS reads them, without looking at how
they were written.
-/

namespace AtomicCss

namespace Css

/-- The character with this code point; numbers that are no code point of a text stand for the
replacement character. -/
def charOfCode (code : Nat) : Char :=
  if code ≠ 0 ∧ code.isValidChar then Char.ofNat code else Char.ofNat 0xFFFD

def readHex : (limit value : Nat) → List Char → Nat × List Char
  | limit + 1, value, c :: rest =>
      match Utility.Color.hexDigit? c with
      | some digit => readHex limit (16 * value + digit) rest
      | none => (value, c :: rest)
  | _, value, text => (value, text)

def skipBlank : List Char → List Char
  | [] => []
  | c :: rest => if c.isWhitespace then rest else c :: rest

/-- Reads what follows a backslash: one to six hexadecimal digits and a blank after them, or any
other character. -/
def readEscape? : List Char → Option (Char × List Char)
  | [] => none
  | c :: rest =>
      match Utility.Color.hexDigit? c with
      | some digit =>
          let (code, after) := readHex 5 digit rest
          some (charOfCode code, skipBlank after)
      | none => some (c, rest)

theorem length_readHex_le (limit value : Nat) (text : List Char) :
    (readHex limit value text).2.length ≤ text.length := by
  fun_induction readHex limit value text with
  | case1 limit value c rest digit _ ih =>
      rw [List.length_cons]
      omega
  | case2 => exact Nat.le_refl _
  | case3 => exact Nat.le_refl _

theorem length_skipBlank_le (text : List Char) : (skipBlank text).length ≤ text.length := by
  cases text with
  | nil => exact Nat.le_refl _
  | cons c rest =>
      rw [skipBlank]
      split
      · exact Nat.le_succ _
      · exact Nat.le_refl _

theorem length_lt_of_readEscape? {text rest : List Char} {c : Char}
    (h : readEscape? text = some (c, rest)) : rest.length < text.length := by
  cases text with
  | nil => cases h
  | cons first tail =>
      rw [readEscape?] at h
      split at h
      · rename_i digit _
        cases h
        have hread := length_readHex_le 5 digit tail
        have hskip := length_skipBlank_le (readHex 5 digit tail).2
        rw [List.length_cons]
        omega
      · cases h
        exact Nat.lt_succ_self _

def unescape (text : List Char) : List Char :=
  match text with
  | [] => []
  | c :: rest =>
      if c = '\\' then
        match _hescape : readEscape? rest with
        | some (escaped, after) => escaped :: unescape after
        | none => [c]
      else c :: unescape rest
termination_by text.length
decreasing_by
  · have := length_lt_of_readEscape? _hescape
    rw [List.length_cons]
    omega
  · simp

/-- Letters, digits, dashes, underscores and escapes only. -/
def isNameRest (text : List Char) : Bool :=
  match text with
  | [] => true
  | c :: rest =>
      if c = '\\' then
        match _hescape : readEscape? rest with
        | some (_, after) => isNameRest after
        | none => false
      else isNameChar c && isNameRest rest
termination_by text.length
decreasing_by
  · have := length_lt_of_readEscape? _hescape
    rw [List.length_cons]
    omega
  · simp

/-- Whether a character can be the first of an identifier; the backslash starts an escape. -/
def startsName (c : Char) : Bool :=
  c.isAlpha || c == '_' || c == '\\'

/-- Whether a text is one identifier. A dash in front must be followed by another dash or by what
could stand first. -/
def isIdentifier (text : List Char) : Bool :=
  isNameRest text &&
    match text with
    | [] => false
    | '-' :: rest => rest.head?.any fun c => startsName c || c == '-'
    | c :: _ => startsName c

end Css

namespace ClassName

open Css

theorem hexDigit?_of_isSpecial {c : Char} (h : isSpecial c = true) :
    Utility.Color.hexDigit? c = none := by
  have hall : ("\\:/[]()&><+~%=!*@#\x27\".?$^|\x7b\x7d;".toList.all fun c =>
      (Utility.Color.hexDigit? c).isNone) = true := by decide
  exact Option.isNone_iff_eq_none.mp (List.all_eq_true.mp hall c (List.contains_iff_mem.mp h))

theorem readEscape?_of_isSpecial {c : Char} (h : isSpecial c = true) (rest : List Char) :
    readEscape? (c :: rest) = some (c, rest) := by
  rw [readEscape?, hexDigit?_of_isSpecial h]

theorem readEscape?_comma (rest : List Char) :
    readEscape? ('2' :: 'c' :: ' ' :: rest) = some (',', rest) := rfl

/-- The code points of the digits are `30` to `39` in hexadecimal. -/
theorem readEscape?_digit {c : Char} (h : c.isDigit = true) (rest : List Char) :
    readEscape? ('3' :: c :: ' ' :: rest) = some (c, rest) := by
  have hrange : 48 ≤ c.toNat ∧ c.toNat ≤ 57 := by
    simpa [Char.isDigit, UInt32.le_iff_toNat_le] using h
  have hcode : 16 * 3 + (c.toNat - 48) = c.toNat := by omega
  have hvalid : c.toNat ≠ 0 ∧ c.toNat.isValidChar := ⟨by omega, .inl (by omega)⟩
  have hread : readHex 5 3 (c :: ' ' :: rest) = (c.toNat, ' ' :: rest) := by
    have hdigit : Utility.Color.hexDigit? c = some (c.toNat - 48) := by
      rw [Utility.Color.hexDigit?, if_pos h]
      rfl
    have hblank : Utility.Color.hexDigit? ' ' = none := rfl
    rw [readHex, hdigit]
    simp only [readHex, hblank, hcode]
  have hthree : Utility.Color.hexDigit? '3' = some 3 := rfl
  simp only [readEscape?, hthree, hread, charOfCode, if_pos hvalid, Char.ofNat_toNat]
  rfl

theorem escapeChar_cases (c : Char) :
    (c = ',' ∧ escapeChar c = ['\\', '2', 'c', ' ']) ∨
      (isSpecial c = true ∧ escapeChar c = ['\\', c]) ∨
        (isSpecial c = false ∧ escapeChar c = [c]) := by
  rw [escapeChar]
  split
  · exact .inl ⟨‹_›, rfl⟩
  · split
    · exact .inr (.inl ⟨‹_›, rfl⟩)
    · exact .inr (.inr ⟨Bool.eq_false_iff.mpr ‹_›, rfl⟩)

theorem ne_backslash_of_isSpecial_eq_false {c : Char} (h : isSpecial c = false) : c ≠ '\\' := by
  rintro rfl
  exact absurd h (by decide)

end ClassName

namespace Css

theorem unescape_backslash {text rest : List Char} {c : Char}
    (h : readEscape? text = some (c, rest)) : unescape ('\\' :: text) = c :: unescape rest := by
  rw [unescape, if_pos rfl]
  split
  · rename_i hescape
    rw [h] at hescape
    cases hescape
    rfl
  · rename_i hescape
    rw [h] at hescape
    cases hescape

theorem unescape_cons {c : Char} (h : c ≠ '\\') (rest : List Char) :
    unescape (c :: rest) = c :: unescape rest := by
  rw [unescape, if_neg h]

theorem isNameRest_backslash {text rest : List Char} {c : Char}
    (h : readEscape? text = some (c, rest)) :
    isNameRest ('\\' :: text) = isNameRest rest := by
  rw [isNameRest, if_pos rfl]
  split
  · rename_i hescape
    rw [h] at hescape
    cases hescape
    rfl
  · rename_i hescape
    rw [h] at hescape
    cases hescape

theorem isNameRest_cons {c : Char} (h : isNameChar c = true) (rest : List Char) :
    isNameRest (c :: rest) = isNameRest rest := by
  have hc : c ≠ '\\' := by
    rintro rfl
    exact absurd h (by decide)
  rw [isNameRest, if_neg hc, h, Bool.true_and]

theorem unescape_escapeChar (c : Char) (rest : List Char) :
    unescape (ClassName.escapeChar c ++ rest) = c :: unescape rest := by
  rcases ClassName.escapeChar_cases c with ⟨rfl, hc⟩ | ⟨hspecial, hc⟩ | ⟨hspecial, hc⟩
  · rw [hc]
    exact unescape_backslash (ClassName.readEscape?_comma rest)
  · rw [hc]
    exact unescape_backslash (ClassName.readEscape?_of_isSpecial hspecial rest)
  · rw [hc]
    exact unescape_cons (ClassName.ne_backslash_of_isSpecial_eq_false hspecial) rest

theorem unescape_flatMap_escapeChar (name : List Char) :
    unescape (name.flatMap ClassName.escapeChar) = name := by
  induction name with
  | nil => rw [List.flatMap_nil, unescape]
  | cons c rest ih => rw [List.flatMap_cons, unescape_escapeChar, ih]

theorem unescape_escapeLead (name : List Char) : unescape (ClassName.escapeLead name) = name := by
  cases name with
  | nil => rw [ClassName.escapeLead, unescape]
  | cons c rest =>
      rw [ClassName.escapeLead]
      split
      · rename_i hdigit
        have hread := ClassName.readEscape?_digit hdigit (rest.flatMap ClassName.escapeChar)
        exact (unescape_backslash hread).trans
          (congrArg (c :: ·) (unescape_flatMap_escapeChar rest))
      · rw [unescape_escapeChar, unescape_flatMap_escapeChar]

theorem unescape_escapeList (name : List Char) : unescape (ClassName.escapeList name) = name := by
  unfold ClassName.escapeList
  split
  · rw [unescape_cons (by decide), unescape_escapeLead]
  · exact unescape_escapeLead name

end Css

namespace Extract

open ClassName

/-- The alphabet of classes: what may stand in a name, and what is escaped. -/
theorem isNameChar_or_escaped_of_isAllowedChar {c : Char} (h : isAllowedChar c = true) :
    Css.isNameChar c = true ∨ isSpecial c = true ∨ c = ',' := by
  rw [isAllowedChar, Bool.or_eq_true] at h
  rcases h with halnum | hmark
  · exact .inl (by rw [Css.isNameChar, halnum]; rfl)
  · have hall : ("-_/:.%#[]()!&>+*=@,\x27\"\\".toList.all fun c =>
        Css.isNameChar c || isSpecial c || c == ',') = true := by decide
    have hc := List.all_eq_true.mp hall c (List.contains_iff_mem.mp hmark)
    simpa [or_assoc] using hc

theorem isNameRest_escapeChar {c : Char} (h : isAllowedChar c = true) (rest : List Char) :
    Css.isNameRest (escapeChar c ++ rest) = Css.isNameRest rest := by
  rcases escapeChar_cases c with ⟨rfl, hc⟩ | ⟨hspecial, hc⟩ | ⟨hspecial, hc⟩
  · rw [hc]
    exact Css.isNameRest_backslash (readEscape?_comma rest)
  · rw [hc]
    exact Css.isNameRest_backslash (readEscape?_of_isSpecial hspecial rest)
  · rw [hc]
    apply Css.isNameRest_cons
    rcases isNameChar_or_escaped_of_isAllowedChar h with hname | hspecial' | rfl
    · exact hname
    · rw [hspecial] at hspecial'
      cases hspecial'
    · cases hc

theorem isNameRest_flatMap_escapeChar {name : List Char}
    (h : ∀ c ∈ name, isAllowedChar c = true) :
    Css.isNameRest (name.flatMap escapeChar) = true := by
  induction name with
  | nil => rw [List.flatMap_nil, Css.isNameRest]
  | cons c rest ih =>
      rw [List.flatMap_cons, isNameRest_escapeChar (h c List.mem_cons_self)]
      exact ih fun other hother => h other (List.mem_cons_of_mem c hother)

theorem isNameRest_escapeLead {name : List Char} (h : ∀ c ∈ name, isAllowedChar c = true) :
    Css.isNameRest (escapeLead name) = true := by
  cases name with
  | nil => rw [escapeLead, Css.isNameRest]
  | cons c rest =>
      have hrest := isNameRest_flatMap_escapeChar fun other hother =>
        h other (List.mem_cons_of_mem c hother)
      rw [escapeLead]
      split
      · rename_i hdigit
        exact (Css.isNameRest_backslash (readEscape?_digit hdigit _)).trans hrest
      · rw [isNameRest_escapeChar (h c List.mem_cons_self), hrest]

theorem isNameRest_escapeList {name : List Char} (h : ∀ c ∈ name, isAllowedChar c = true) :
    Css.isNameRest (escapeList name) = true := by
  unfold escapeList
  split
  · rw [Css.isNameRest_cons (by decide)]
    exact isNameRest_escapeLead fun c hc => h c (List.mem_cons_of_mem _ hc)
  · exact isNameRest_escapeLead h

/-- Where a digit could stand first it is escaped, so only a dash can do so besides what starts a
name. -/
theorem head?_escapeLead {c : Char} (h : isAllowedChar c = true) (rest : List Char) :
    ∃ first, (escapeLead (c :: rest)).head? = some first ∧
      (Css.startsName first = true ∨ first = '-' ∧ c = '-') := by
  rw [escapeLead]
  split
  · exact ⟨'\\', rfl, .inl (by decide)⟩
  · rename_i hdigit
    rcases escapeChar_cases c with ⟨rfl, hc⟩ | ⟨-, hc⟩ | ⟨hspecial, hc⟩
    · exact ⟨'\\', by rw [hc]; rfl, .inl (by decide)⟩
    · exact ⟨'\\', by rw [hc]; rfl, .inl (by decide)⟩
    · refine ⟨c, by rw [hc]; rfl, ?_⟩
      rcases isNameChar_or_escaped_of_isAllowedChar h with hname | hspecial' | rfl
      · simp only [Css.isNameChar, Char.isAlphanum, Bool.or_eq_true, beq_iff_eq] at hname
        rcases hname with ((halpha | hdigit') | rfl) | rfl
        · exact .inl (by rw [Css.startsName, halpha]; rfl)
        · exact absurd hdigit' hdigit
        · exact .inr ⟨rfl, rfl⟩
        · exact .inl (by decide)
      · rw [hspecial] at hspecial'
        cases hspecial'
      · cases hc

theorem isIdentifier_escapeList {name : List Char} (hallowed : ∀ c ∈ name, isAllowedChar c = true)
    (hletter : ∃ c ∈ name, c ≠ '-') : Css.isIdentifier (escapeList name) = true := by
  have hrest := isNameRest_escapeList hallowed
  obtain ⟨letter, hletter, hne⟩ := hletter
  unfold escapeList at hrest ⊢
  split at hrest
  · rename_i rest
    cases rest with
    | nil =>
        rw [List.mem_singleton] at hletter
        exact absurd hletter hne
    | cons c rest =>
        have hc := hallowed c (List.mem_cons_of_mem _ List.mem_cons_self)
        obtain ⟨first, hfirst, hstart⟩ := head?_escapeLead hc rest
        rw [Css.isIdentifier, hrest, Bool.true_and, hfirst]
        rcases hstart with hstart | ⟨rfl, -⟩
        · simp [hstart]
        · rfl
  · rename_i hdash
    cases name with
    | nil => cases hletter
    | cons c rest =>
        obtain ⟨first, hfirst, hstart⟩ :=
          head?_escapeLead (hallowed c List.mem_cons_self) rest
        rcases hstart with hstart | ⟨-, rfl⟩
        · obtain ⟨tail, htail⟩ := List.head?_eq_some_iff.mp hfirst
          rw [htail] at hrest ⊢
          rw [Css.isIdentifier, hrest, Bool.true_and, hstart]
          rintro rfl
          exact absurd hstart (by decide)
        · exact (hdash rest rfl).elim

theorem isIdentifier_escape_of_isCandidate {name : List Char} (h : isCandidate name = true) :
    Css.isIdentifier (escapeList name) = true := by
  simp only [isCandidate, Bool.and_eq_true] at h
  obtain ⟨⟨⟨-, hallowed⟩, hletter⟩, -⟩ := h
  apply isIdentifier_escapeList (List.all_eq_true.mp hallowed)
  obtain ⟨c, hc, hmark⟩ := List.any_eq_true.mp hletter
  refine ⟨c, hc, ?_⟩
  rintro rfl
  exact absurd hmark (by decide)

end Extract

namespace ClassName

theorem escape_injective {first second : String} (h : escape first = escape second) :
    first = second := by
  have hlist : escapeList first.toList = escapeList second.toList := by
    simpa [escape] using congrArg String.toList h
  apply String.toList_inj.mp
  rw [← Css.unescape_escapeList first.toList, hlist, Css.unescape_escapeList]

/-- Undoing the escapes of a written name gives the name back, so different classes have different
selectors; and what can be a class is written as one identifier. -/
theorem escape_is_lossless_identifier (name : String) :
    Css.unescape (escape name).toList = name.toList ∧
      (∀ other, Selector.ofClass name = Selector.ofClass other → name = other) ∧
      (Extract.isCandidate name.toList = true →
        Css.isIdentifier (escape name).toList = true) := by
  refine ⟨?_, ?_, ?_⟩
  · rw [escape, String.toList_ofList, Css.unescape_escapeList]
  · intro other hselector
    have htext := congrArg Selector.text hselector
    exact escape_injective (String.append_right_inj _ |>.mp htext)
  · intro hcandidate
    rw [escape, String.toList_ofList]
    exact Extract.isIdentifier_escape_of_isCandidate hcandidate

theorem escape_is_lossless_identifier_digits :
    Extract.isCandidate "2xl:w-[min(1px,2px)]".toList = true ∧
      escape "2xl:w-[min(1px,2px)]" = "\\32 xl\\:w-\\[min\\(1px\\2c 2px\\)\\]" ∧
      Css.unescape (escape "2xl:w-[min(1px,2px)]").toList = "2xl:w-[min(1px,2px)]".toList ∧
      Css.isIdentifier (escape "2xl:w-[min(1px,2px)]").toList = true := by
  have hcandidate : Extract.isCandidate "2xl:w-[min(1px,2px)]".toList = true := by decide
  have hescape := escape_is_lossless_identifier "2xl:w-[min(1px,2px)]"
  exact ⟨hcandidate, by decide, hescape.1, hescape.2.2 hcandidate⟩

end ClassName

end AtomicCss
