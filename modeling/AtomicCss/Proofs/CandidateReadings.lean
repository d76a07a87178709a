import AtomicCss.Candidate.Parse

/-!
The readings of a base utility. A base falls into its parts in exactly one way, and a base whose
head is no arbitrary value is read in exactly the ways that the roots allow, the most specific
first.
-/

namespace AtomicCss

namespace ClassName

/-- A `/` outside brackets, and what stands before and after it. -/
structure FreeSlash (depth : Depth) (text before after : List Char) : Prop where
  eq : text = before ++ '/' :: after
  outside : before.foldl Depth.step depth = Depth.zero

theorem freeSlash_nil {depth : Depth} {before after : List Char} :
    ¬FreeSlash depth [] before after := by
  intro h
  have := h.eq
  simp at this

theorem freeSlash_cons {depth : Depth} {c : Char} {rest before after : List Char} :
    FreeSlash depth (c :: rest) before after ↔
      (before = [] ∧ c = '/' ∧ rest = after ∧ depth = Depth.zero) ∨
        ∃ later, before = c :: later ∧ FreeSlash (depth.step c) rest later after := by
  cases before with
  | nil =>
      constructor
      · intro h
        obtain ⟨hc, hrest⟩ := List.cons.inj h.eq
        exact .inl ⟨rfl, hc, hrest, h.outside⟩
      · intro h
        rcases h with ⟨-, hc, hrest, hdepth⟩ | ⟨later, hlater, -⟩
        · exact ⟨by rw [hc, hrest]; rfl, hdepth⟩
        · cases hlater
  | cons d before =>
      constructor
      · intro h
        obtain ⟨hc, hrest⟩ := List.cons.inj h.eq
        subst hc
        exact .inr ⟨before, rfl, hrest, h.outside⟩
      · intro h
        rcases h with ⟨hnil, -⟩ | ⟨later, hlater, hslash⟩
        · cases hnil
        · cases hlater
          exact ⟨congrArg (c :: ·) hslash.eq, hslash.outside⟩

/-- The last free slash: no other stands behind it. -/
structure LastSlash (depth : Depth) (text before after : List Char) : Prop
    extends FreeSlash depth text before after where
  last : ∀ other rest, FreeSlash depth text other rest → other.length ≤ before.length

theorem lastSlash_or_none (depth : Depth) (text : List Char) :
    (∃ head modifier, cutModifierFrom? depth text = some (head, modifier) ∧
      LastSlash depth text head modifier) ∨
    (cutModifierFrom? depth text = none ∧
      ∀ before after, ¬FreeSlash depth text before after) := by
  induction text generalizing depth with
  | nil => exact .inr ⟨rfl, fun _ _ => freeSlash_nil⟩
  | cons c rest ih =>
      rw [cutModifierFrom?]
      rcases ih (depth.step c) with ⟨head, modifier, hcut, hlast⟩ | ⟨hcut, hnone⟩
      · rw [hcut]
        refine .inl ⟨c :: head, modifier, rfl, ?_, ?_⟩
        · exact freeSlash_cons.mpr (.inr ⟨head, rfl, hlast.toFreeSlash⟩)
        · intro other after hother
          rcases freeSlash_cons.mp hother with ⟨hnil, -⟩ | ⟨later, hlater, hslash⟩
          · rw [hnil]
            exact Nat.zero_le _
          · rw [hlater]
            exact Nat.succ_le_succ (hlast.last later after hslash)
      · rw [hcut]
        by_cases hhere : c = '/' ∧ depth = Depth.zero
        · refine .inl ⟨[], rest, if_pos hhere, ?_, ?_⟩
          · exact freeSlash_cons.mpr (.inl ⟨rfl, hhere.1, rfl, hhere.2⟩)
          · intro other after hother
            rcases freeSlash_cons.mp hother with ⟨hnil, -⟩ | ⟨later, -, hslash⟩
            · exact Nat.le_of_eq (congrArg List.length hnil)
            · exact (hnone later after hslash).elim
        · refine .inr ⟨if_neg hhere, ?_⟩
          intro before after hslash
          rcases freeSlash_cons.mp hslash with ⟨-, hc, -, hdepth⟩ | ⟨later, -, hslash⟩
          · exact hhere ⟨hc, hdepth⟩
          · exact hnone later after hslash

inductive Modified (text : List Char) : (head : List Char) → (modifier : Option (List Char)) → Prop
  | cut {head modifier : List Char} (hslash : LastSlash Depth.zero text head modifier) :
      Modified text head (some modifier)
  | whole (hnone : ∀ before after, ¬FreeSlash Depth.zero text before after) :
      Modified text text none

theorem modified_splitModifier (text : List Char) :
    Modified text (splitModifier text).1 (splitModifier text).2 := by
  rw [splitModifier]
  rcases lastSlash_or_none Depth.zero text with ⟨head, modifier, hcut, hlast⟩ | ⟨hcut, hnone⟩
  · rw [hcut]
    exact .cut hlast
  · rw [hcut]
    exact .whole hnone

theorem LastSlash.unique {depth : Depth} {text head modifier head' modifier' : List Char}
    (h : LastSlash depth text head modifier) (h' : LastSlash depth text head' modifier') :
    head = head' ∧ modifier = modifier' := by
  have hlength : head.length = head'.length :=
    Nat.le_antisymm (h'.last head modifier h.toFreeSlash) (h.last head' modifier' h'.toFreeSlash)
  obtain ⟨hhead, hrest⟩ := List.append_inj (h.eq.symm.trans h'.eq) hlength
  exact ⟨hhead, List.tail_eq_of_cons_eq hrest⟩

theorem splitModifier_eq_iff {text head : List Char} {modifier : Option (List Char)} :
    splitModifier text = (head, modifier) ↔ Modified text head modifier := by
  constructor
  · intro h
    have hmodified := modified_splitModifier text
    rwa [h] at hmodified
  · intro h
    have hmodified := modified_splitModifier text
    generalize splitModifier text = parts at hmodified
    obtain ⟨head', modifier'⟩ := parts
    cases h with
    | cut hslash =>
        cases hmodified with
        | cut hslash' =>
            obtain ⟨rfl, rfl⟩ := hslash.unique hslash'
            rfl
        | whole hnone => exact (hnone _ _ hslash.toFreeSlash).elim
    | whole hnone =>
        cases hmodified with
        | cut hslash => exact (hnone _ _ hslash.toFreeSlash).elim
        | whole => rfl

structure IsSpan (opening closing : Char) (text inner : List Char) : Prop where
  eq : text = opening :: (inner ++ [closing])
  nonempty : inner ≠ []
  balanced : isBalanced opening closing 0 inner = true

theorem inside?_eq_some_iff {opening closing : Char} {text inner : List Char} :
    inside? opening closing text = some inner ↔ IsSpan opening closing text inner := by
  simp only [inside?, Option.bind_eq_bind, Option.bind_eq_some_iff, Text.after?_eq_some_iff,
    Text.before?_eq_some_iff]
  constructor
  · intro h
    obtain ⟨content, ⟨rest, htext, hrest⟩, hinner⟩ := h
    split at hinner
    · rename_i hspan
      cases hinner
      obtain ⟨hbalanced, hnonempty⟩ := Bool.and_eq_true_iff.mp hspan
      exact ⟨by rw [htext, hrest]; rfl, by simpa using hnonempty, hbalanced⟩
    · cases hinner
  · intro h
    exact ⟨inner, ⟨inner ++ [closing], h.eq, rfl⟩, by simp [h.balanced, h.nonempty]⟩

theorem inside?_eq_none_iff {opening closing : Char} {text : List Char} :
    inside? opening closing text = none ↔ ∀ inner, ¬IsSpan opening closing text inner := by
  simp only [← inside?_eq_some_iff, Option.eq_none_iff_forall_ne_some, ne_eq]

theorem IsSpan.ne_nil {opening closing : Char} {text inner : List Char}
    (h : IsSpan opening closing text inner) : text ≠ [] := by
  rw [h.eq]
  exact List.cons_ne_nil opening _

end ClassName

namespace Candidate

/-- A base with its `!`, which stands at the end or else at the start. -/
inductive Marked : (base body : List Char) → (important : Bool) → Prop
  | atEnd (body : List Char) : Marked (body ++ ['!']) body true
  | atStart (body : List Char) (hend : ('!' :: body).getLast? ≠ some '!') :
      Marked ('!' :: body) body true
  | unmarked (body : List Char) (hstart : body.head? ≠ some '!')
      (hend : body.getLast? ≠ some '!') : Marked body body false

theorem exists_marked (base : List Char) : ∃ body important, Marked base body important := by
  by_cases hend : base.getLast? = some '!'
  · obtain ⟨body, hbase⟩ := List.getLast?_eq_some_iff.mp hend
    exact ⟨body, true, hbase ▸ .atEnd body⟩
  · by_cases hstart : base.head? = some '!'
    · obtain ⟨body, hbase⟩ := List.head?_eq_some_iff.mp hstart
      subst hbase
      exact ⟨body, true, .atStart body hend⟩
    · exact ⟨base, false, .unmarked base hstart hend⟩

theorem before?_mark_eq_none {base : List Char} (h : base.getLast? ≠ some '!') :
    Text.before? ['!'] base = none := by
  cases hbefore : Text.before? ['!'] base with
  | none => rfl
  | some body =>
      rw [Text.eq_append_of_before? hbefore] at h
      simp at h

theorem Marked.splitImportant_eq {base body : List Char} {important : Bool}
    (h : Marked base body important) : splitImportant base = (body, important) := by
  cases h with
  | atEnd =>
      have hbefore : Text.before? ['!'] (body ++ ['!']) = some body :=
        Text.before?_eq_some_iff.mpr rfl
      rw [splitImportant, hbefore]
  | atStart _ hend =>
      have hafter : Text.after? ['!'] ('!' :: body) = some body :=
        Text.after?_eq_some_iff.mpr rfl
      rw [splitImportant, before?_mark_eq_none hend, hafter]
  | unmarked _ hstart hend =>
      have hafter : Text.after? ['!'] base = none := by
        cases hafter : Text.after? ['!'] base with
        | none => rfl
        | some rest =>
            rw [Text.eq_append_of_after? hafter] at hstart
            exact (hstart rfl).elim
      rw [splitImportant, before?_mark_eq_none hend, hafter]

theorem splitImportant_eq_iff {base body : List Char} {important : Bool} :
    splitImportant base = (body, important) ↔ Marked base body important := by
  constructor
  · intro h
    obtain ⟨body', important', hmarked⟩ := exists_marked base
    cases h.symm.trans hmarked.splitImportant_eq
    exact hmarked
  · exact Marked.splitImportant_eq

/-- A body with its sign: one dash in front of something else. -/
inductive Signed : (body unsigned : List Char) → (negative : Bool) → Prop
  | negative {unsigned : List Char} (hnonempty : unsigned ≠ [])
      (hdash : unsigned.head? ≠ some '-') : Signed ('-' :: unsigned) unsigned true
  | plain {body : List Char}
      (hsign : ∀ unsigned, body = '-' :: unsigned → unsigned = [] ∨ unsigned.head? = some '-') :
      Signed body body false

theorem exists_signed (body : List Char) : ∃ unsigned negative, Signed body unsigned negative := by
  by_cases hsign : ∃ unsigned, body = '-' :: unsigned ∧ unsigned ≠ [] ∧ unsigned.head? ≠ some '-'
  · obtain ⟨unsigned, hbody, hnonempty, hdash⟩ := hsign
    exact ⟨unsigned, true, hbody ▸ .negative hnonempty hdash⟩
  · refine ⟨body, false, .plain ?_⟩
    intro unsigned hbody
    by_cases hnonempty : unsigned = []
    · exact .inl hnonempty
    · exact .inr (Classical.not_not.mp fun hdash => hsign ⟨unsigned, hbody, hnonempty, hdash⟩)

theorem Signed.splitNegative_eq {body unsigned : List Char} {negative : Bool}
    (h : Signed body unsigned negative) : splitNegative body = (unsigned, negative) := by
  cases h with
  | negative hnonempty hdash =>
      rw [splitNegative, if_neg]
      simp [hnonempty, Text.startsWith_singleton_iff, hdash]
  | plain hsign =>
      unfold splitNegative
      split
      · rename_i rest
        rw [if_pos]
        simpa [Text.startsWith_singleton_iff] using hsign rest rfl
      · rfl

theorem splitNegative_eq_iff {body unsigned : List Char} {negative : Bool} :
    splitNegative body = (unsigned, negative) ↔ Signed body unsigned negative := by
  constructor
  · intro h
    obtain ⟨unsigned', negative', hsigned⟩ := exists_signed body
    cases h.symm.trans hsigned.splitNegative_eq
    exact hsigned
  · exact Signed.splitNegative_eq

/-- The modifiers that can be read: none at all, a decoded bracket, the name of a custom property in
parentheses, or any other text. -/
inductive ReadsModifier : Option (List Char) → Option Modifier → Prop
  | absent : ReadsModifier none none
  | square {text inner : List Char} (hspan : ClassName.IsSpan '[' ']' text inner) :
      ReadsModifier (some text) (some (.arbitrary (String.ofList (Css.decodeBracketed inner))))
  | round {text inner : List Char} (hspan : ClassName.IsSpan '(' ')' text inner)
      (hname : ['-', '-'] <+: inner) :
      ReadsModifier (some text) (some (.arbitrary ("var(" ++ String.ofList inner ++ ")")))
  | named {text : List Char} (hnonempty : text ≠ [])
      (hsquare : ∀ inner, ¬ClassName.IsSpan '[' ']' text inner)
      (hround : ∀ inner, ¬ClassName.IsSpan '(' ')' text inner) :
      ReadsModifier (some text) (some (.named (String.ofList text)))

theorem readsModifier_of_parseModifier {text : Option (List Char)} {modifier : Option Modifier}
    (h : parseModifier text = some modifier) : ReadsModifier text modifier := by
  cases text with
  | none =>
      cases h
      exact .absent
  | some text =>
      simp only [parseModifier] at h
      split at h
      · cases h
      · rename_i hnonempty
        split at h
        · rename_i inner hsquare
          cases h
          exact .square (ClassName.inside?_eq_some_iff.mp hsquare)
        · rename_i inner hsquare hround
          split at h
          · rename_i hname
            cases h
            exact .round (ClassName.inside?_eq_some_iff.mp hround)
              (List.isPrefixOf_iff_prefix.mp hname)
          · cases h
        · rename_i hsquare hround
          cases h
          exact .named (by simpa using hnonempty) (ClassName.inside?_eq_none_iff.mp hsquare)
            (ClassName.inside?_eq_none_iff.mp hround)

theorem ReadsModifier.parseModifier_eq {text : Option (List Char)} {modifier : Option Modifier}
    (h : ReadsModifier text modifier) : parseModifier text = some modifier := by
  cases h with
  | absent => rfl
  | square hspan =>
      have hsquare : ClassName.insideSquare? _ = some _ := ClassName.inside?_eq_some_iff.mpr hspan
      simp [parseModifier, hsquare, hspan.ne_nil]
  | @round text inner hspan hname =>
      have hround : ClassName.insideRound? text = some inner :=
        ClassName.inside?_eq_some_iff.mpr hspan
      have hsquare : ClassName.insideSquare? text = none := by
        apply ClassName.inside?_eq_none_iff.mpr
        intro other hother
        cases hspan.eq.symm.trans hother.eq
      have hname' : Text.startsWith ['-', '-'] inner = true :=
        List.isPrefixOf_iff_prefix.mpr hname
      simp [parseModifier, hsquare, hround, hspan.ne_nil, hname']
  | @named text hnonempty hsquare hround =>
      have hsquare' : ClassName.insideSquare? text = none :=
        ClassName.inside?_eq_none_iff.mpr hsquare
      have hround' : ClassName.insideRound? text = none :=
        ClassName.inside?_eq_none_iff.mpr hround
      simp [parseModifier, hsquare', hround', hnonempty]

/-- What a base is taken apart into before its readings are looked for. -/
structure Parts where
  body : List Char
  important : Bool
  negative : Bool
  head : List Char
  modifier : Option (List Char)
  deriving DecidableEq

namespace Parts

structure Describes (parts : Parts) (base : List Char) : Prop where
  marked : Marked base parts.body parts.important
  signed : ∃ unsigned, Signed parts.body unsigned parts.negative ∧
    ClassName.Modified unsigned parts.head parts.modifier

theorem exists_describes (base : List Char) : ∃ parts : Parts, parts.Describes base := by
  have hmarked := splitImportant_eq_iff.mp (Eq.refl (splitImportant base))
  have hsigned := splitNegative_eq_iff.mp (Eq.refl (splitNegative (splitImportant base).1))
  exact ⟨⟨_, _, _, _, _⟩, hmarked, _, hsigned, ClassName.modified_splitModifier _⟩

theorem Describes.unique {parts other : Parts} {base : List Char} (h : parts.Describes base)
    (hother : other.Describes base) : parts = other := by
  obtain ⟨body, important, negative, head, modifier⟩ := parts
  obtain ⟨body', important', negative', head', modifier'⟩ := other
  obtain ⟨hmarked, unsigned, hsigned, hmodified⟩ := h
  obtain ⟨hmarked', unsigned', hsigned', hmodified'⟩ := hother
  cases hmarked.splitImportant_eq.symm.trans hmarked'.splitImportant_eq
  cases hsigned.splitNegative_eq.symm.trans hsigned'.splitNegative_eq
  have hsplit := ClassName.splitModifier_eq_iff.mpr hmodified
  cases hsplit.symm.trans (ClassName.splitModifier_eq_iff.mpr hmodified')
  rfl

def candidate (parts : Parts) (reading : Reading) (modifier : Option Modifier) (negative : Bool) :
    Candidate where
  reading
  modifier
  negative
  important := parts.important
  body := String.ofList parts.body

end Parts

def IsNumber (text : List Char) : Prop :=
  text ≠ [] ∧ ∀ c ∈ text, c.isDigit = true

/-- A value and a named modifier make a fraction if both are numbers; nothing else does. -/
def IsFraction (value : List Char) (modifier : Option Modifier) (fraction : Option String) : Prop :=
  ∀ text, fraction = some text ↔
    ∃ denominator, modifier = some (.named denominator) ∧ IsNumber value ∧
      IsNumber denominator.toList ∧ text = String.ofList value ++ "/" ++ denominator

/-- The candidates that the roots allow for a base with these parts. -/
inductive Possible (roots : Roots) (parts : Parts) : Candidate → Prop
  | static (hsign : parts.negative = false)
      (hroot : roots.isStatic (String.ofList parts.body) = true) :
      Possible roots parts (parts.candidate (.static (String.ofList parts.body)) none false)
  | bare {modifier : Option Modifier} (hmodifier : ReadsModifier parts.modifier modifier)
      (hroot : roots.isFunctional (String.ofList parts.head) = true) :
      Possible roots parts
        (parts.candidate (.functional (String.ofList parts.head) none) modifier parts.negative)
  | split {modifier : Option Modifier} {root value : List Char} {fraction : Option String}
      (hmodifier : ReadsModifier parts.modifier modifier)
      (hhead : parts.head = root ++ '-' :: value) (hroot : root ≠ []) (hvalue : value ≠ [])
      (hknown : roots.isFunctional (String.ofList root) = true)
      (hfraction : IsFraction value modifier fraction) :
      Possible roots parts
        (parts.candidate
          (.functional (String.ofList root) (some (.named (String.ofList value) fraction)))
          modifier parts.negative)

theorem isDigits_iff {text : List Char} : Text.isDigits text = true ↔ IsNumber text := by
  simp [Text.isDigits, IsNumber]

theorem fractionOf_eq_some_iff {value : List Char} {modifier : Option Modifier} {text : String} :
    fractionOf value modifier = some text ↔
      ∃ denominator, modifier = some (.named denominator) ∧ IsNumber value ∧
        IsNumber denominator.toList ∧ text = String.ofList value ++ "/" ++ denominator := by
  constructor
  · intro h
    unfold fractionOf at h
    split at h
    · rename_i denominator
      split at h
      · rename_i hdigits
        obtain ⟨hvalue, hdenominator⟩ := Bool.and_eq_true_iff.mp hdigits
        exact ⟨denominator, rfl, isDigits_iff.mp hvalue, isDigits_iff.mp hdenominator,
          (Option.some.inj h).symm⟩
      · cases h
    · cases h
  · intro ⟨denominator, hmodifier, hvalue, hdenominator, htext⟩
    rw [hmodifier, htext, fractionOf, isDigits_iff.mpr hvalue, isDigits_iff.mpr hdenominator]
    rfl

theorem isFraction_iff {value : List Char} {modifier : Option Modifier}
    {fraction : Option String} :
    IsFraction value modifier fraction ↔ fraction = fractionOf value modifier := by
  constructor
  · intro h
    apply Option.ext
    intro text
    rw [h, fractionOf_eq_some_iff]
  · intro h text
    rw [h, fractionOf_eq_some_iff]

theorem parse_eq {parts : Parts} {base : String} (hparts : parts.Describes base.toList)
    (hbody : parts.body ≠ []) (hbracket : parts.body.head? ≠ some '[')
    (hvalue : arbitraryValue? parts.head = none) (roots : Roots) :
    parse roots base =
      (if !parts.negative && roots.isStatic (String.ofList parts.body) then
        [parts.candidate (.static (String.ofList parts.body)) none false] else []) ++
      (parseModifier parts.modifier).toList.flatMap fun modifier =>
        (functionalReadings roots modifier parts.head).map fun reading =>
          parts.candidate reading modifier parts.negative := by
  obtain ⟨hmarked, unsigned, hsigned, hmodified⟩ := hparts
  have hempty : parts.body.isEmpty = false := by simpa using hbody
  have hstarts : Text.startsWith ['['] parts.body = false := by
    simpa [← Text.startsWith_singleton_iff] using hbracket
  simp only [parse, hmarked.splitImportant_eq, hsigned.splitNegative_eq, hempty, hstarts,
    ClassName.splitModifier_eq_iff.mpr hmodified, headReadings, hvalue]
  cases parseModifier parts.modifier with
  | none => simp [Parts.candidate]
  | some modifier => simp [Parts.candidate]

theorem splitReading_eq_some_iff {roots : Roots} {root value : List Char}
    {found reading : Reading} :
    (if root.isEmpty || value.isEmpty || !roots.isFunctional (String.ofList root) then none
      else some found) = some reading ↔
        root ≠ [] ∧ value ≠ [] ∧ roots.isFunctional (String.ofList root) = true ∧
          reading = found := by
  split
  · rename_i hskip
    refine iff_of_false (by simp) ?_
    intro ⟨hroot, hvalue, hknown, _⟩
    simp [hroot, hvalue, hknown] at hskip
  · rename_i hkeep
    simp only [Bool.or_eq_true, List.isEmpty_iff, Bool.not_eq_true', not_or,
      Bool.not_eq_false] at hkeep
    simp [hkeep, eq_comm]

theorem mem_functionalReadings {roots : Roots} {modifier : Option Modifier} {head : List Char}
    {reading : Reading} :
    reading ∈ functionalReadings roots modifier head ↔
      (roots.isFunctional (String.ofList head) = true ∧
        reading = .functional (String.ofList head) none) ∨
      ∃ root value, head = root ++ '-' :: value ∧ root ≠ [] ∧ value ≠ [] ∧
        roots.isFunctional (String.ofList root) = true ∧
        reading = .functional (String.ofList root)
          (some (.named (String.ofList value) (fractionOf value modifier))) := by
  simp only [functionalReadings, List.mem_append, List.mem_filterMap, List.mem_reverse,
    Text.mem_cutsAt, Prod.exists, splitReading_eq_some_iff]
  apply or_congr_left
  split
  · rename_i hroot
    simp [hroot]
  · rename_i hroot
    simp [hroot]

section Parse

variable {parts : Parts} {base : String} (hparts : parts.Describes base.toList)
  (hbody : parts.body ≠ []) (hbracket : parts.body.head? ≠ some '[')
  (hvalue : arbitraryValue? parts.head = none)

include hparts hbody hbracket hvalue

theorem mem_parse_iff (roots : Roots) (candidate : Candidate) :
    candidate ∈ parse roots base ↔ Possible roots parts candidate := by
  rw [parse_eq hparts hbody hbracket hvalue, List.mem_append]
  constructor
  · intro h
    rcases h with hstatic | hfunctional
    · split at hstatic
      · rename_i hroot
        rw [List.mem_singleton.mp hstatic]
        exact .static (by simpa using (Bool.and_eq_true_iff.mp hroot).1)
          (Bool.and_eq_true_iff.mp hroot).2
      · cases hstatic
    · obtain ⟨modifier, hmodifier, hmem⟩ := List.mem_flatMap.mp hfunctional
      obtain ⟨reading, hreading, rfl⟩ := List.mem_map.mp hmem
      have hmodifier := readsModifier_of_parseModifier (Option.mem_toList.mp hmodifier)
      rcases mem_functionalReadings.mp hreading with
        ⟨hroot, rfl⟩ | ⟨root, value, hhead, hroot, hvalue, hknown, rfl⟩
      · exact .bare hmodifier hroot
      · exact .split hmodifier hhead hroot hvalue hknown (isFraction_iff.mpr rfl)
  · intro h
    cases h with
    | static hsign hroot =>
        left
        simp [hsign, hroot]
    | bare hmodifier hroot =>
        refine .inr (List.mem_flatMap.mpr ⟨_, Option.mem_toList.mpr hmodifier.parseModifier_eq, ?_⟩)
        exact List.mem_map.mpr ⟨_, mem_functionalReadings.mpr (.inl ⟨hroot, rfl⟩), rfl⟩
    | split hmodifier hhead hroot hvalue hknown hfraction =>
        refine .inr (List.mem_flatMap.mpr ⟨_, Option.mem_toList.mpr hmodifier.parseModifier_eq, ?_⟩)
        rw [isFraction_iff.mp hfraction]
        exact List.mem_map.mpr ⟨_, mem_functionalReadings.mpr
          (.inr ⟨_, _, hhead, hroot, hvalue, hknown, rfl⟩), rfl⟩

end Parse

end Candidate

end AtomicCss
