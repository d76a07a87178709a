import AtomicCss.Extract.ClassList
import AtomicCss.Proofs.PrefixedTheme
import AtomicCss.Utility.Wildcard
import Mathlib.Data.Option.Basic

/-!
Texts without the characters that open, close and end what a stylesheet is made of. What is cut out
of such a text, put together from such texts or looked up among them is such a text again.
-/

namespace AtomicCss

namespace Text

def structural : List Char :=
  ['\x7b', '\x7d', ';']

def isStructural (c : Char) : Bool :=
  structural.contains c

/-- A text that cannot break out of the place where it is written. -/
def Inert (text : List Char) : Prop :=
  ∀ c ∈ text, isStructural c = false

instance (text : List Char) : Decidable (Inert text) :=
  decidable_of_iff (text.all fun c => !isStructural c) (by simp [Inert])

@[simp] theorem inert_nil : Inert [] := nofun

@[simp] theorem inert_cons {c : Char} {text : List Char} :
    Inert (c :: text) ↔ isStructural c = false ∧ Inert text :=
  List.forall_mem_cons

@[simp] theorem inert_append {first second : List Char} :
    Inert (first ++ second) ↔ Inert first ∧ Inert second :=
  List.forall_mem_append

theorem inert_of_all (allows : Char → Bool) (hallows : structural.all (fun c => !allows c) = true)
    {text : List Char} (h : text.all allows = true) : Inert text := by
  intro c hc
  cases hstructural : isStructural c with
  | false => rfl
  | true =>
      have hdenied := List.all_eq_true.mp hallows c (List.contains_iff_mem.mp hstructural)
      rw [List.all_eq_true.mp h c hc] at hdenied
      cases hdenied

theorem Inert.mono {text part : List Char} (h : Inert text) (hpart : part ⊆ text) : Inert part :=
  fun c hc => h c (hpart hc)

theorem Inert.trim {text : List Char} (h : Inert text) : Inert (trim text) :=
  h.mono <| List.IsInfix.subset <| trim_infix text

theorem inert_replicate {c : Char} (h : isStructural c = false) (count : Nat) :
    Inert (List.replicate count c) := by
  intro other hother
  rw [List.eq_of_mem_replicate hother, h]

theorem inert_toDigits (number : Nat) : Inert (Nat.toDigits 10 number) := by
  apply inert_of_all Char.isDigit (by decide)
  rw [List.all_eq_true]
  intro c hc
  exact Nat.isDigit_of_mem_toDigits (by decide) (by decide) hc

theorem Inert.after? {lead text rest : List Char} (h : Inert text)
    (hafter : after? lead text = some rest) : Inert rest := by
  rw [eq_append_of_after? hafter, inert_append] at h
  exact h.2

theorem Inert.before? {tail text rest : List Char} (h : Inert text)
    (hbefore : before? tail text = some rest) : Inert rest := by
  rw [eq_append_of_before? hbefore, inert_append] at h
  exact h.1

theorem Inert.cut? {separator : Char} {text first second : List Char} (h : Inert text)
    (hcut : cut? separator text = some (first, second)) : Inert first ∧ Inert second := by
  rw [eq_append_of_cut? hcut, inert_append, inert_cons] at h
  exact ⟨h.1, h.2.2⟩

theorem Inert.cutsAt {separator : Char} {text : List Char} {parts : List Char × List Char}
    (h : Inert text) (hparts : parts ∈ cutsAt separator text) :
    Inert parts.1 ∧ Inert parts.2 := by
  rw [mem_cutsAt.mp hparts, inert_append, inert_cons] at h
  exact ⟨h.1, h.2.2⟩

theorem Inert.pieces {State : Type} {step : State → Char → State} {cuts : State → Char → Bool}
    {state : State} {text piece : List Char} (h : Inert text)
    (hpiece : piece ∈ pieces step cuts state text) : Inert piece :=
  h.mono <| List.IsInfix.subset <| infix_of_mem_pieces hpiece

theorem inert_join {separator : List Char} {parts : List (List Char)} (hseparator : Inert separator)
    (hparts : ∀ part ∈ parts, Inert part) : Inert (join separator parts) := by
  induction parts with
  | nil => exact inert_nil
  | cons part rest ih =>
      have hpart := hparts part List.mem_cons_self
      have hrest := ih fun other hother => hparts other (List.mem_cons_of_mem part hother)
      cases rest with
      | nil => exact hpart
      | cons next rest =>
          rw [join_cons_of_ne_nil _ _ (List.cons_ne_nil next rest), inert_append, inert_append]
          exact ⟨⟨hpart, hseparator⟩, hrest⟩

theorem inert_intercalate {separator : String} {parts : List String}
    (hseparator : Inert separator.toList) (hparts : ∀ part ∈ parts, Inert part.toList) :
    Inert (separator.intercalate parts).toList := by
  rw [toList_intercalate]
  apply inert_join hseparator
  intro part hpart
  obtain ⟨text, htext, rfl⟩ := List.mem_map.mp hpart
  exact hparts text htext

theorem inert_replaceChar {target : Char} {replacement text : List Char}
    (hreplacement : Inert replacement) (htext : Inert text) :
    Inert (replaceChar target replacement text) := by
  intro c hc
  obtain ⟨d, hd, hc⟩ := List.mem_flatMap.mp hc
  split at hc
  · exact hreplacement c hc
  · rw [List.mem_singleton.mp hc]
    exact htext d hd

theorem inert_of_isAllowedChar {text : List Char} (h : text.all Extract.isAllowedChar = true) :
    Inert text :=
  inert_of_all Extract.isAllowedChar (by decide) h

def AllInert (texts : List String) : Prop :=
  ∀ text ∈ texts, Inert text.toList

instance (texts : List String) : Decidable (AllInert texts) :=
  inferInstanceAs (Decidable (∀ text ∈ texts, Inert text.toList))

@[simp] theorem allInert_nil : AllInert [] := nofun

@[simp] theorem allInert_cons {text : String} {texts : List String} :
    AllInert (text :: texts) ↔ Inert text.toList ∧ AllInert texts :=
  List.forall_mem_cons

@[simp] theorem allInert_append {first second : List String} :
    AllInert (first ++ second) ↔ AllInert first ∧ AllInert second :=
  List.forall_mem_append

def isStructuralByte (byte : UInt8) : Bool :=
  byte == 0x7b || byte == 0x7d || byte == 0x3b

def hasNoStructuralByte (text : String) : Bool :=
  text.toByteArray.data.toList.all fun byte => !isStructuralByte byte

/-- Structural characters are one byte each. The bytes of a literal are quicker to compute than its
characters. -/
theorem allInert_of_bytes {texts : List String} (h : texts.all hasNoStructuralByte = true) :
    AllInert texts := by
  intro text htext c hc
  cases hstructural : isStructural c with
  | false => rfl
  | true =>
      have hbytes :
          structural.all (fun c => (String.utf8EncodeChar c).any isStructuralByte) = true := by
        decide
      obtain ⟨byte, hencoded, hbyte⟩ := List.any_eq_true.mp
        (List.all_eq_true.mp hbytes c (List.contains_iff_mem.mp hstructural))
      have hmem : byte ∈ text.toByteArray.data.toList := by
        rw [← String.utf8Encode_toList, List.utf8Encode, List.toList_data_toByteArray]
        exact List.mem_flatMap.mpr ⟨c, hc, hencoded⟩
      have hfree := List.all_eq_true.mp (List.all_eq_true.mp h text htext) byte hmem
      rw [hbyte] at hfree
      cases hfree

def InertResult (result : Option String) : Prop :=
  ∀ text ∈ result, Inert text.toList

@[simp] theorem inertResult_none : InertResult none := nofun

@[simp] theorem inertResult_some {text : String} : InertResult (some text) ↔ Inert text.toList := by
  simp [InertResult]

namespace InertResult

variable {result other : Option String}

theorem orElse (h : InertResult result) (hother : InertResult other) :
    InertResult (result <|> other) := by
  cases result with
  | none => exact hother
  | some text => exact h

theorem map (h : InertResult result) {change : String → String}
    (hchange : ∀ text, Inert text.toList → Inert (change text).toList) :
    InertResult (result.map change) := by
  cases result with
  | none => exact nofun
  | some text => exact inertResult_some.mpr (hchange text (inertResult_some.mp h))

theorem guard {condition : Prop} [Decidable condition] (h : InertResult result) :
    InertResult (if condition then result else none) := by
  split
  · exact h
  · exact nofun

end InertResult

theorem inertResult_lookup {table : List (String × String)} (h : AllInert (table.map Prod.snd))
    (name : String) : InertResult (table.lookup name) :=
  fun value hvalue => h value (List.mem_map.mpr ⟨_, Dictionary.mem_of_lookup hvalue, rfl⟩)

end Text

open Text (AllInert Inert InertResult)

namespace Css

theorem inert_decodeUnderscores {text : List Char} (h : Inert text) :
    Inert (decodeUnderscores text) := by
  intro c hc
  have hnone : text.filter Text.isStructural = [] := by simpa [Text.Inert] using h
  rw [← filter_decodeUnderscores (by decide) (by decide) (by decide),
    List.filter_eq_nil_iff] at hnone
  exact Bool.eq_false_iff.mpr (hnone c hc)

theorem inert_decodeBracketed {text : List Char} (h : Inert text) :
    Inert (decodeBracketed text) :=
  (inert_decodeUnderscores h).trim

theorem inert_mapVars {change : List Char → List Char} {text : List Char}
    (hchange : ∀ inner, Inert inner → Inert (change inner)) (h : Inert text) :
    Inert (mapVars change text) := by
  fun_induction mapVars change text with
  | case1 text opened hopened inner after hspan ih =>
      have hinner := h.after? hopened
      rw [Delimiter.eq_append_of_span? hspan, Text.inert_append, Text.inert_cons] at hinner
      rw [Text.inert_append]
      exact ⟨hchange inner hinner.1, ih hinner.2.2⟩
  | case2 => exact h
  | case3 => exact h
  | case4 c rest _ ih =>
      rw [Text.inert_cons] at h ⊢
      exact ⟨h.1, ih h.2⟩

end Css

namespace Theme

def texts (theme : Theme) : List String :=
  theme.namePrefix.toList ++ theme.entries.flatMap fun entry => [entry.1, entry.2]

/-- The tokens of the theme and the prefix of their names are inert. -/
def IsInert (theme : Theme) : Prop :=
  AllInert theme.texts

namespace IsInert

variable {theme : Theme}

theorem key (h : theme.IsInert) {entry : String × String} (hentry : entry ∈ theme.entries) :
    Inert entry.1.toList :=
  List.forall_mem_flatMap.mp (Text.allInert_append.mp h).2 entry hentry _ (by simp)

theorem value (h : theme.IsInert) {entry : String × String} (hentry : entry ∈ theme.entries) :
    Inert entry.2.toList :=
  List.forall_mem_flatMap.mp (Text.allInert_append.mp h).2 entry hentry _ (by simp)

theorem namePrefix (h : theme.IsInert) {name : String} (hname : theme.namePrefix = some name) :
    Inert name.toList :=
  h name (List.mem_append_left _ (Option.mem_toList.mpr hname))

theorem varRef (h : theme.IsInert) {name : String} (hname : keyOf name ∈ theme.values.keys) :
    Inert (theme.varRef name).toList := by
  obtain ⟨entry, hentry, hkey⟩ := List.mem_map.mp hname
  have hbody := h.key hentry
  rw [hkey, toList_keyOf, Text.inert_cons, Text.inert_cons] at hbody
  rw [toList_varRef, toList_varName]
  cases hname : theme.namePrefix with
  | none => simp +decide [hbody.2.2]
  | some name => simp +decide [hbody.2.2, h.namePrefix hname]

theorem resolve? (h : theme.IsInert) (name : Option String) (spaces : List String) :
    InertResult (theme.resolve? name spaces) := by
  intro reference hreference
  obtain ⟨key, hkey, rfl⟩ := Option.map_eq_some_iff.mp hreference
  exact h.varRef (keyOf_mem_of_resolveKey? hkey)

theorem value_of_get? (h : theme.IsInert) (key : String) : InertResult (theme.values.get? key) :=
  fun _ hvalue => h.value (Dictionary.mem_entries_of_get? hvalue)

theorem resolveValue? (h : theme.IsInert) (name : Option String) (spaces : List String) :
    InertResult (theme.resolveValue? name spaces) := by
  intro value hvalue
  obtain ⟨key, -, hvalue⟩ := Option.bind_eq_some_iff.mp hvalue
  exact h.value_of_get? _ value hvalue

theorem lookupVar? (h : theme.IsInert) (name : String) : InertResult (theme.lookupVar? name) := by
  rw [Theme.lookupVar?]
  refine InertResult.orElse ?_ (h.value_of_get? _)
  intro value hvalue
  simp only [Option.bind_eq_bind, Option.mem_def, Option.bind_eq_some_iff] at hvalue
  obtain ⟨_, _, _, _, hvalue⟩ := hvalue
  exact h.value_of_get? _ value hvalue

theorem inlineChars (h : theme.IsInert) (depth : Nat) {text : List Char} (htext : Inert text) :
    Inert (theme.inlineChars depth text) := by
  induction depth generalizing text with
  | zero => exact htext
  | succ depth ih =>
      rw [Theme.inlineChars]
      refine Css.inert_mapVars ?_ htext
      intro inner hinner
      simp only
      split
      · rename_i hlookup
        exact ih (h.lookupVar? _ _ hlookup)
      · rename_i fallback _ hfallback
        exact ih (hinner.mono (Css.varParts_fallback_infix hfallback).subset).trim
      · simp +decide [hinner]

theorem inline (h : theme.IsInert) (depth : Nat) {text : String} (htext : Inert text.toList) :
    Inert (theme.inline depth text).toList := by
  rw [Theme.inline, String.toList_ofList]
  exact h.inlineChars depth htext

end IsInert

end Theme

namespace ClassName

theorem inert_of_inside? {opening closing : Char} {text inner : List Char} (h : Inert text)
    (hinside : inside? opening closing text = some inner) : Inert inner := by
  rw [(eq_of_inside? hinside).1, Text.inert_cons, Text.inert_append] at h
  exact h.2.1

theorem inert_splitModifier {text : List Char} (h : Inert text) :
    Inert (splitModifier text).1 ∧ ∀ modifier ∈ (splitModifier text).2, Inert modifier := by
  obtain ⟨hhead, hmodifier⟩ := infix_splitModifier text
  exact ⟨h.mono hhead.subset, fun modifier hmem => h.mono (hmodifier modifier hmem).subset⟩

end ClassName

namespace Candidate

def Reading.texts : Reading → List String
  | .static root => [root]
  | .functional root value => root :: (value.map Value.text).toList
  | .property name value => [name, value]

def texts (candidate : Candidate) : List String :=
  candidate.reading.texts ++ (candidate.modifier.map Modifier.text).toList

theorem eq_of_mem_ite_singleton {Item : Type} {condition : Prop} [Decidable condition]
    {item other : Item} (h : other ∈ if condition then [item] else []) : other = item := by
  split at h
  · exact List.mem_singleton.mp h
  · cases h

theorem inert_splitImportant {base : List Char} (h : Inert base) :
    Inert (splitImportant base).1 := by
  unfold splitImportant
  split
  · rename_i hbefore
    exact h.before? hbefore
  · rename_i hafter
    exact h.after? hafter
  · exact h

theorem inert_splitNegative {body : List Char} (h : Inert body) :
    Inert (splitNegative body).1 := by
  unfold splitNegative
  split
  · split
    · exact h
    · exact (Text.inert_cons.mp h).2
  · exact h

theorem inert_of_parseModifier {text : Option (List Char)} {modifier : Modifier}
    (h : ∀ written ∈ text, Inert written) (hparse : parseModifier text = some (some modifier)) :
    Inert modifier.text.toList := by
  cases text with
  | none => cases hparse
  | some written =>
      have hwritten := h written rfl
      rw [parseModifier] at hparse
      split at hparse
      · cases hparse
      · split at hparse
        · rename_i hinside
          cases hparse
          have hinner := ClassName.inert_of_inside? hwritten hinside
          simpa [Modifier.text] using Css.inert_decodeBracketed hinner
        · rename_i hinside
          split at hparse
          · cases hparse
            have hinner := ClassName.inert_of_inside? hwritten hinside
            simp +decide [Modifier.text, hinner]
          · cases hparse
        · cases hparse
          simpa [Modifier.text] using hwritten

theorem allInert_of_parseProperty? {inner : List Char} {reading : Reading} (h : Inert inner)
    (hparse : parseProperty? inner = some reading) : AllInert reading.texts := by
  simp only [parseProperty?, Option.bind_eq_bind, Option.bind_eq_some_iff] at hparse
  obtain ⟨⟨property, value⟩, hcut, hreading⟩ := hparse
  obtain ⟨hproperty, hvalue⟩ := h.cut? hcut
  simp only at hreading
  split at hreading
  · cases hreading
  · cases hreading
    simp [Reading.texts, hproperty.trim, Css.inert_decodeBracketed hvalue]

theorem inert_splitHint {inner : List Char} (h : Inert inner) : Inert (splitHint inner).2 := by
  unfold splitHint
  split
  · rename_i hcut
    split
    · exact (h.cut? hcut).2
    · exact h
  · exact h

theorem inert_of_squareValue? {inner : List Char} {value : Value} (h : Inert inner)
    (hvalue : squareValue? inner = some value) : Inert value.text.toList := by
  simp only [squareValue?] at hvalue
  split at hvalue
  · cases hvalue
  · cases hvalue
    simpa [Value.text] using Css.inert_decodeBracketed (inert_splitHint h)

theorem inert_of_roundValue? {inner : List Char} {value : Value} (h : Inert inner)
    (hvalue : roundValue? inner = some value) : Inert value.text.toList := by
  simp only [roundValue?] at hvalue
  split at hvalue
  · cases hvalue
    simp +decide [Value.text, inert_splitHint h]
  · cases hvalue

theorem inert_of_splitSpan? {opening closing : Char} {head root inner : List Char}
    (h : Inert head)
    (hsplit : splitSpan? (ClassName.inside? opening closing) head = some (root, inner)) :
    Inert root ∧ Inert inner := by
  obtain ⟨parts, hparts, hinside⟩ := List.exists_of_findSome?_eq_some hsplit
  obtain ⟨content, hcontent, heq⟩ := Option.map_eq_some_iff.mp hinside
  cases heq
  obtain ⟨hroot, hrest⟩ := h.cutsAt hparts
  exact ⟨hroot, ClassName.inert_of_inside? hrest hcontent⟩

theorem inert_of_arbitraryValue? {head root : List Char} {value : Value} (h : Inert head)
    (hvalue : arbitraryValue? head = some (root, value)) :
    Inert root ∧ Inert value.text.toList := by
  have hread {opening closing : Char} {value? : List Char → Option Value}
      (hinert : ∀ {inner value}, Inert inner → value? inner = some value → Inert value.text.toList)
      (hread : ((splitSpan? (ClassName.inside? opening closing) head).bind fun parts =>
        if parts.1.isEmpty then none else (value? parts.2).map fun value => (parts.1, value)) =
          some (root, value)) : Inert root ∧ Inert value.text.toList := by
    obtain ⟨⟨first, inner⟩, hsplit, hread⟩ := Option.bind_eq_some_iff.mp hread
    obtain ⟨hroot, hinner⟩ := inert_of_splitSpan? h hsplit
    split at hread
    · cases hread
    · obtain ⟨found, hfound, heq⟩ := Option.map_eq_some_iff.mp hread
      cases heq
      exact ⟨hroot, hinert hinner hfound⟩
  rcases (Option.orElse_eq_some _ _ _).mp hvalue with hsquare | ⟨-, hround⟩
  · exact hread inert_of_squareValue? hsquare
  · exact hread inert_of_roundValue? hround

theorem allInert_of_mem_functionalReadings {roots : Roots} {modifier : Option Modifier}
    {head : List Char} {reading : Reading} (h : Inert head)
    (hreading : reading ∈ functionalReadings roots modifier head) : AllInert reading.texts := by
  rcases List.mem_append.mp hreading with hwhole | hsplit
  · rw [eq_of_mem_ite_singleton hwhole]
    simpa [Reading.texts] using h
  · obtain ⟨⟨root, value⟩, hparts, hread⟩ := List.mem_filterMap.mp hsplit
    obtain ⟨hroot, hvalue⟩ := h.cutsAt (List.mem_reverse.mp hparts)
    simp only at hread
    split at hread
    · cases hread
    · cases hread
      simpa [Reading.texts, Value.text] using And.intro hroot hvalue

theorem allInert_of_mem_headReadings {roots : Roots} {modifier : Option Modifier}
    {head : List Char} {reading : Reading} (h : Inert head)
    (hreading : reading ∈ headReadings roots modifier head) : AllInert reading.texts := by
  unfold headReadings at hreading
  split at hreading
  · rename_i hvalue
    obtain ⟨hroot, hvalue⟩ := inert_of_arbitraryValue? h hvalue
    rw [eq_of_mem_ite_singleton hreading]
    simpa [Reading.texts] using And.intro hroot hvalue
  · exact allInert_of_mem_functionalReadings h hreading

/-- Each reading of an inert base is inert. -/
theorem allInert_of_mem_parse {roots : Roots} {base : String} {candidate : Candidate}
    (h : Inert base.toList) (hcandidate : candidate ∈ parse roots base) :
    AllInert candidate.texts := by
  have hbody := inert_splitImportant h
  have hmodifier {written : Option (List Char)} {modifier : Option Modifier}
      (hwritten : ∀ text ∈ written, Inert text)
      (hparse : parseModifier written = some modifier) :
      AllInert (modifier.map Modifier.text).toList := by
    cases modifier with
    | none => exact nofun
    | some modifier => simpa using inert_of_parseModifier hwritten hparse
  unfold parse at hcandidate
  simp only at hcandidate
  split at hcandidate
  · cases hcandidate
  split at hcandidate
  · obtain ⟨hhead, hwritten⟩ := ClassName.inert_splitModifier hbody
    split at hcandidate
    · rename_i hparse hproperty
      obtain ⟨inner, hinside, hproperty⟩ := Option.bind_eq_some_iff.mp hproperty
      have hreading :=
        allInert_of_parseProperty? (ClassName.inert_of_inside? hhead hinside) hproperty
      rw [List.mem_singleton.mp hcandidate]
      exact Text.allInert_append.mpr ⟨hreading, hmodifier hwritten hparse⟩
    · cases hcandidate
  · have hunsigned := inert_splitNegative hbody
    obtain ⟨hhead, hwritten⟩ := ClassName.inert_splitModifier hunsigned
    split at hcandidate
    · rename_i hparse
      rcases List.mem_append.mp hcandidate with hstatic | hfunctional
      · rw [eq_of_mem_ite_singleton hstatic]
        simpa [texts, Reading.texts] using hbody
      · obtain ⟨reading, hreading, rfl⟩ := List.mem_map.mp hfunctional
        exact Text.allInert_append.mpr
          ⟨allInert_of_mem_headReadings hhead hreading, hmodifier hwritten hparse⟩
    · rw [eq_of_mem_ite_singleton hcandidate]
      simpa [texts, Reading.texts] using hbody

end Candidate

end AtomicCss
