import AtomicCss.Proofs.ClassScope
import AtomicCss.Proofs.Segmentation
import AtomicCss.Proofs.TidyText
import AtomicCss.Theme.Source

/-!
The parts of a theme source as text: declarations, statements with `@apply`, nested rules and
definitions. Each part made of plain texts is tidy text, and its reader gives it back.
-/

namespace AtomicCss

namespace Text

variable {text : List Char} {c : Char}

theorem trim_cons_of_isBlank (hc : isBlank c = true) (text : List Char) :
    trim (c :: text) = trim text := by
  rw [trim, trimStart, List.dropWhile_cons_of_pos hc]
  rfl

theorem Solid.trim_eq (h : Solid text) : trim text = text := by
  simpa using h.trim_around [] []

theorem Solid.of_trim (h : trim text = text) (hempty : text ≠ []) : Solid text := by
  obtain ⟨c, rest, rfl⟩ := List.exists_cons_of_ne_nil hempty
  constructor
  · refine ⟨c, rfl, ?_⟩
    cases hc : isBlank c with
    | false => rfl
    | true =>
        rw [trim_cons_of_isBlank hc] at h
        have hlength := (Text.trim_infix rest).length_le
        rw [h, List.length_cons] at hlength
        omega
  · refine ⟨(c :: rest).getLast hempty, List.getLast?_eq_some_getLast hempty, ?_⟩
    refine @isBlank_getLast?_trimEnd (trimStart (c :: rest)) _ ?_
    rw [← trim, h]
    exact List.getLast?_eq_some_getLast hempty

theorem Solid.around {first last : List Char} (hfirst : Solid first) (hlast : Solid last)
    (middle : List Char) : Solid (first ++ middle ++ last) := by
  obtain ⟨c, hc, hcBlank⟩ := hfirst.head
  obtain ⟨d, hd, hdBlank⟩ := hlast.last
  refine ⟨⟨c, ?_, hcBlank⟩, ⟨d, ?_, hdBlank⟩⟩
  · rw [List.append_assoc, List.head?_append, hc]
    rfl
  · rw [List.getLast?_append, hd]
    rfl

theorem Solid.join {parts : List (List Char)} (separator : List Char) (hempty : parts ≠ [])
    (h : ∀ part ∈ parts, Solid part) : Solid (join separator parts) := by
  induction parts with
  | nil => exact (hempty rfl).elim
  | cons part rest ih =>
      obtain ⟨hpart, hrest⟩ := List.forall_mem_cons.mp h
      cases rest with
      | nil => exact hpart
      | cons next rest => exact hpart.around (ih (List.cons_ne_nil _ _) hrest) separator

theorem splitWhere_append_cons {cuts : Char → Bool} (hc : cuts c = true)
    (first second : List Char) :
    splitWhere cuts (first ++ c :: second) = splitWhere cuts first ++ splitWhere cuts second := by
  rw [splitWhere, pieces_append_cons_of_cut hc]
  rfl

theorem splitWhere_eq_singleton {cuts : Char → Bool} (h : ∀ c ∈ text, cuts c = false) :
    splitWhere cuts text = [text] := by
  rw [splitWhere, pieces_eq_singleton_iff]
  rintro before c after rfl
  exact h c (List.mem_append_right _ List.mem_cons_self)

theorem words_append_cons (hc : isBlank c = true) (first second : List Char) :
    words (first ++ c :: second) = words first ++ words second := by
  rw [words, splitWhere_append_cons hc, List.filter_append]
  rfl

theorem words_cons (hc : isBlank c = true) (text : List Char) : words (c :: text) = words text :=
  words_append_cons hc [] text

theorem words_eq_singleton (hempty : text ≠ []) (hblank : text.any isBlank = false) :
    words text = [text] := by
  rw [words, splitWhere_eq_singleton (by simpa using hblank)]
  simp [hempty]

theorem words_join {list : List (List Char)}
    (h : ∀ word ∈ list, word ≠ [] ∧ word.any isBlank = false) :
    words (join [' '] list) = list := by
  induction list with
  | nil => rfl
  | cons word rest ih =>
      obtain ⟨⟨hempty, hblank⟩, hrest⟩ := List.forall_mem_cons.mp h
      cases rest with
      | nil => exact words_eq_singleton hempty hblank
      | cons next rest =>
          rw [join_cons_of_ne_nil _ _ (List.cons_ne_nil _ _), List.append_assoc,
            List.singleton_append, words_append_cons rfl, ih hrest,
            words_eq_singleton hempty hblank]
          rfl

theorem mem_of_mem_cutAll {State : Type} {step : State → Char → State} {cuts : State → Char → Bool}
    {state : State} {text : List Char} {part : Char × List Char}
    (h : part ∈ (cutAll step cuts state text).2) :
    part.1 ∈ text ∧ ∃ reached, cuts reached part.1 = true := by
  induction text generalizing state with
  | nil => cases h
  | cons c rest ih =>
      rw [cutAll] at h
      split at h
      · rename_i hcut
        rcases List.mem_cons.mp h with rfl | hlater
        · exact ⟨List.mem_cons_self, state, hcut⟩
        · exact (ih hlater).imp_left (List.mem_cons_of_mem c)
      · exact (ih h).imp_left (List.mem_cons_of_mem c)

theorem flatMap_append_eq_join (separator : Char) (parts : List (List Char)) (last : List Char) :
    parts.flatMap (· ++ [separator]) ++ last = join [separator] (parts ++ [last]) := by
  induction parts with
  | nil => rfl
  | cons part rest ih =>
      rw [List.flatMap_cons, List.append_assoc, ih, List.cons_append,
        join_cons_of_ne_nil _ _ (List.concat_ne_nil _ _)]

end Text

theorem filterMap_eq_self {Item : Type} {read : Item → Option Item} {items : List Item}
    (h : ∀ item ∈ items, read item = some item) : items.filterMap read = items :=
  (List.filterMap_congr h).trans List.filterMap_some

namespace Css

theorem Nesting.foldl_step {round square : Nat} {text : List Char}
    (hmarks : ∀ c ∈ text, c ≠ '{' ∧ c ≠ '}' ∧ isQuote c = false)
    (hround : ClassName.isBalanced '(' ')' round text = true)
    (hsquare : ClassName.isBalanced '[' ']' square text = true) :
    text.foldl step ⟨round + square, none⟩ = outside := by
  induction text generalizing round square with
  | nil =>
      obtain rfl : round = 0 := by simpa [ClassName.isBalanced] using hround
      obtain rfl : square = 0 := by simpa [ClassName.isBalanced] using hsquare
      rfl
  | cons c rest ih =>
      obtain ⟨⟨hopening, hclosing, hquote⟩, hrest⟩ := List.forall_mem_cons.mp hmarks
      have ih {round square : Nat} (hround : ClassName.isBalanced '(' ')' round rest = true)
          (hsquare : ClassName.isBalanced '[' ']' square rest = true) {depth : Nat}
          (hdepth : depth = round + square) : rest.foldl step ⟨depth, none⟩ = outside :=
        hdepth ▸ ih hrest hround hsquare
      rw [List.foldl_cons]
      by_cases hroundOpens : c = '('
      · subst hroundOpens
        exact @ih (round + 1) square hround hsquare _ (Nat.add_right_comm _ _ _)
      by_cases hsquareOpens : c = '['
      · subst hsquareOpens
        exact @ih round (square + 1) hround hsquare _ rfl
      by_cases hroundCloses : c = ')'
      · subst hroundCloses
        cases round with
        | zero => cases hround
        | succ round =>
            apply @ih round square hround hsquare
            show round + 1 + square - 1 = round + square
            omega
      by_cases hsquareCloses : c = ']'
      · subst hsquareCloses
        cases square with
        | zero => cases hsquare
        | succ square => exact @ih round square hround hsquare _ rfl
      · rw [ClassName.Open.isBalanced_cons hroundOpens hroundCloses] at hround
        rw [ClassName.Open.isBalanced_cons hsquareOpens hsquareCloses] at hsquare
        have hstep : step ⟨round + square, none⟩ c = ⟨round + square, none⟩ := by
          simp [step, opens, closes, hquote, hopening, hclosing, hroundOpens, hroundCloses,
            hsquareOpens, hsquareCloses]
        rw [hstep]
        exact ih hround hsquare rfl

/-- The texts, and the characters, that have a meaning of their own in a theme source. -/
def reservedTexts : List String :=
  ["/*", "@theme", "@utility"]

def isReserved (c : Char) : Bool :=
  c == '{' || c == '}' || c == ';' || isQuote c

/-- A text that can stand in a theme source as it is. -/
@[mk_iff]
structure IsPlain (text : String) : Prop where
  trimmed : Text.trimmed text = text
  nonempty : text ≠ ""
  unmarked : text.toList.any isReserved = false
  reserved : ∀ needle ∈ reservedTexts, ¬needle.toList <:+: text.toList
  round : ClassName.isBalanced '(' ')' 0 text.toList = true
  square : ClassName.isBalanced '[' ']' 0 text.toList = true

instance (text : String) : Decidable (IsPlain text) :=
  decidable_of_iff _ (isPlain_iff text).symm

theorem isNeedle_of_mem {needle : String} (h : needle ∈ reservedTexts) :
    IsNeedle needle.toList := by
  simp only [reservedTexts, List.mem_cons, List.not_mem_nil, or_false] at h
  rcases h with rfl | rfl | rfl <;> exact ⟨by decide, by decide, by decide, by decide⟩

namespace IsPlain

variable {text : String}

theorem marks (h : IsPlain text) :
    ∀ c ∈ text.toList, c ≠ '{' ∧ c ≠ '}' ∧ c ≠ ';' ∧ isQuote c = false := by
  intro c hc
  simpa [isReserved, and_assoc] using List.any_eq_false.mp h.unmarked c hc

theorem bare (h : IsPlain text) : IsBare text.toList where
  quote c hc := (h.marks c hc).2.2.2
  opening hc := (h.marks _ hc).1 rfl
  closing hc := (h.marks _ hc).2.1 rfl
  comment := h.reserved "/*" (by decide)

theorem isInline (h : IsPlain text) : IsInline text.toList where
  parens := Delimiter.balanced_of_isBalanced h.bare.quote h.round
  ends c hc := ⟨(h.marks c hc).2.2.1, (h.marks c hc).1⟩

theorem toList_ne_nil (h : IsPlain text) : text.toList ≠ [] := by
  simpa using h.nonempty

theorem solid (h : IsPlain text) : Text.Solid text.toList :=
  .of_trim (by simpa using congrArg String.toList h.trimmed) h.toList_ne_nil

theorem tidy_append {needle : String} (hneedle : needle ∈ reservedTexts) (h : IsPlain text)
    {c : Char} {rest : List Char} (hstop : isStop c = true) (hrest : Tidy needle.toList rest) :
    Tidy needle.toList (text.toList ++ c :: rest) :=
  .stretch h.bare (h.reserved needle hneedle) hstop hrest

/-- Round and square brackets, each balanced, are closed together. -/
theorem foldl_nesting (h : IsPlain text) :
    text.toList.foldl Nesting.step .outside = .outside :=
  Nesting.foldl_step (fun c hc => ⟨(h.marks c hc).1, (h.marks c hc).2.1, (h.marks c hc).2.2.2⟩)
    h.round h.square

end IsPlain

theorem isInline_blank : IsInline [' '] :=
  isInline_of_all (by decide)

theorem tidy_join {needle : String} (hneedle : needle ∈ reservedTexts) {texts : List String}
    (hempty : texts ≠ []) (h : ∀ text ∈ texts, IsPlain text) {rest : List Char}
    (hrest : Tidy needle.toList rest) :
    Tidy needle.toList (Text.join [' '] (texts.map String.toList) ++ ';' :: rest) := by
  induction texts with
  | nil => exact (hempty rfl).elim
  | cons text texts ih =>
      obtain ⟨htext, htexts⟩ := List.forall_mem_cons.mp h
      cases texts with
      | nil => exact htext.tidy_append hneedle rfl hrest
      | cons next texts =>
          rw [List.map_cons, Text.join_cons_of_ne_nil _ _ (by simp), List.append_assoc,
            List.append_assoc]
          exact htext.tidy_append hneedle rfl
            (ih (List.cons_ne_nil _ _) htexts)

def declarationText (entry : String × String) : List Char :=
  ' ' :: (entry.1.toList ++ ':' :: ' ' :: entry.2.toList)

def declarationsText (entries : List (String × String)) : List Char :=
  (entries.map declarationText).flatMap (· ++ [';'])

@[mk_iff]
structure IsDeclaration (entry : String × String) : Prop where
  name : IsPlain entry.1
  value : IsPlain entry.2
  colon : ':' ∉ entry.1.toList

instance (entry : String × String) : Decidable (IsDeclaration entry) :=
  decidable_of_iff _ (isDeclaration_iff entry).symm

namespace IsDeclaration

variable {entry : String × String} {needle : String}

theorem marks (h : IsDeclaration entry) :
    ∀ c ∈ declarationText entry, c ≠ '{' ∧ c ≠ '}' ∧ c ≠ ';' := by
  have hplain {text : String} (htext : IsPlain text) :
      ∀ c ∈ text.toList, c ≠ '{' ∧ c ≠ '}' ∧ c ≠ ';' := fun c hc =>
    ⟨(htext.marks c hc).1, (htext.marks c hc).2.1, (htext.marks c hc).2.2.1⟩
  simp only [declarationText, List.forall_mem_cons, List.forall_mem_append]
  exact ⟨by decide, hplain h.name, by decide, by decide, hplain h.value⟩

theorem isInline (h : IsDeclaration entry) : IsInline (declarationText entry) := by
  have hcolon : IsInline [':', ' '] := isInline_of_all (by decide)
  exact isInline_blank.append (h.name.isInline.append (hcolon.append h.value.isInline))

theorem tidy (hneedle : needle ∈ reservedTexts) (h : IsDeclaration entry) :
    Tidy needle.toList (declarationText entry ++ [';']) := by
  rw [declarationText, List.cons_append, List.append_assoc, List.cons_append, List.cons_append]
  refine .stop (isNeedle_of_mem hneedle) rfl ?_
  refine h.name.tidy_append hneedle rfl ?_
  refine .stop (isNeedle_of_mem hneedle) rfl ?_
  exact h.value.tidy_append hneedle rfl .nil

theorem nameAndValue? (h : IsDeclaration entry) :
    nameAndValue? (declarationText entry) = some (entry.1.toList, entry.2.toList) := by
  have hsolid : Text.Solid (entry.1.toList ++ ':' :: ' ' :: entry.2.toList) := by
    simpa using h.name.solid.around h.value.solid [':', ' ']
  rw [Css.nameAndValue?, declarationText, Text.trim_cons_of_isBlank rfl, hsolid.trim_eq,
    Text.cut?_append h.colon]
  have hvalue : Text.trim (' ' :: entry.2.toList) = entry.2.toList := by
    rw [Text.trim_cons_of_isBlank rfl, h.value.solid.trim_eq]
  rw [Option.map_some, h.name.solid.trim_eq, hvalue]

theorem foldl_nesting (h : IsDeclaration entry) :
    (declarationText entry).foldl Nesting.step .outside = .outside := by
  have hblank : Nesting.step .outside ' ' = .outside := rfl
  have hcolon : Nesting.step .outside ':' = .outside := rfl
  rw [declarationText, List.foldl_cons, hblank, List.foldl_append, h.name.foldl_nesting,
    List.foldl_cons, hcolon, List.foldl_cons, hblank, h.value.foldl_nesting]

end IsDeclaration

theorem tidy_declarationsText {needle : String} (hneedle : needle ∈ reservedTexts)
    {entries : List (String × String)} (h : ∀ entry ∈ entries, IsDeclaration entry) :
    Tidy needle.toList (declarationsText entries) := by
  rw [declarationsText, List.flatMap_map]
  exact Tidy.flatMap fun entry hentry => (h entry hentry).tidy hneedle

section Bodies

variable {entries : List (String × String)}

/-- An automaton that is back where it started after each declaration cuts between them. -/
theorem pieces_declarationsText {State : Type} {step : State → Char → State}
    {cuts : State → Char → Bool} {home : State}
    (hcuts : ∀ state c, cuts state c = true → c = ';' ∨ c = '}') (hcut : cuts home ';' = true)
    (hstep : step home ';' = home) (hentries : ∀ entry ∈ entries, IsDeclaration entry)
    (hreturns : ∀ entry ∈ entries, (declarationText entry).foldl step home = home) :
    Text.pieces step cuts home (declarationsText entries ++ [' ']) =
      entries.map declarationText ++ [[' ']] := by
  rw [declarationsText, Text.flatMap_append_eq_join]
  apply Text.pieces_join hcut hstep
  · intro part hpart
    obtain ⟨entry, hentry, rfl⟩ := List.mem_map.mp hpart
    refine ⟨(Text.pieces_eq_singleton_iff _ _).mpr ?_, hreturns entry hentry⟩
    intro before c after htext
    have hc : c ∈ declarationText entry := htext ▸ List.mem_append_right _ List.mem_cons_self
    obtain ⟨-, hbrace, hsemicolon⟩ := (hentries entry hentry).marks c hc
    exact Bool.eq_false_iff.mpr fun hcut => (hcuts _ c hcut).elim hsemicolon hbrace
  · refine (Text.pieces_cons_eq_singleton_iff home ' ' []).mpr ⟨?_, rfl⟩
    exact Bool.eq_false_iff.mpr fun hcut => by simpa using hcuts _ _ hcut

theorem filterMap_declarationTexts {read : List Char → Option (String × String)}
    (hblank : read [' '] = none)
    (h : ∀ entry ∈ entries, read (declarationText entry) = some entry) :
    (entries.map declarationText ++ [[' ']]).filterMap read = entries := by
  rw [List.filterMap_append, List.filterMap_map, List.filterMap_cons_none hblank]
  exact (List.append_nil _).trans (filterMap_eq_self h)

theorem declaration?_declarationText {entry : String × String} (h : IsDeclaration entry) :
    Utility.declaration? (declarationText entry) = some entry := by
  simp [Utility.declaration?, h.nameAndValue?, h.name.nonempty, h.value.nonempty,
    h.value.bare.opening]

theorem splitTopLevel_declarationsText (h : ∀ entry ∈ entries, IsDeclaration entry) :
    splitTopLevel ';' (declarationsText entries ++ [' ']) =
      entries.map declarationText ++ [[' ']] := by
  refine pieces_declarationsText ?_ rfl rfl h fun entry hentry => (h entry hentry).foldl_nesting
  intro state c hcut
  simp only [Nesting.cuts, Bool.and_eq_true, beq_iff_eq] at hcut
  exact .inl hcut.1.1.1.1

theorem statements_declarationsText (h : ∀ entry ∈ entries, IsDeclaration entry)
    (skipSpans : Bool) (rest : List Char) :
    statements skipSpans (declarationsText entries ++ rest) =
      (entries.map declarationText).map .plain ++ statements skipSpans rest := by
  induction entries with
  | nil => rfl
  | cons entry entries ih =>
      obtain ⟨hentry, hentries⟩ := List.forall_mem_cons.mp h
      have hlater := ih hentries
      rw [declarationsText] at hlater ⊢
      rw [List.map_cons, List.flatMap_cons, List.append_assoc, List.append_assoc,
        List.singleton_append, statements_semicolon hentry.isInline, hlater]
      rfl

end Bodies

end Css

namespace ThemeSource

open Css

theorem keepStatements_eq {first : List Char} {rest : List (Char × List Char)}
    (h : ∀ part ∈ rest, part.1 = ';') : keepStatements first rest = first :: rest.map Prod.snd := by
  induction rest generalizing first with
  | nil => rfl
  | cons part rest ih =>
      obtain ⟨hpart, hrest⟩ := List.forall_mem_cons.mp h
      rw [keepStatements, if_pos hpart, ih hrest]
      rfl

theorem eq_of_endsStatement {depth : Nat} {c : Char} (h : endsStatement depth c = true) :
    c = ';' ∨ c = '}' := by
  simp only [endsStatement, Bool.or_eq_true, Bool.and_eq_true, beq_iff_eq] at h
  exact h.imp And.left And.left

theorem variablesOf_eq {body : List Char} (h : '}' ∉ body) :
    variablesOf body = (Text.pieces stepDepth endsStatement 0 body).filterMap variableOf? := by
  rw [variablesOf, keepStatements_eq, Text.pieces]
  intro part hpart
  obtain ⟨hmem, depth, hcut⟩ := Text.mem_of_mem_cutAll hpart
  rcases eq_of_endsStatement hcut with hsemicolon | hbrace
  · exact hsemicolon
  · exact (h (hbrace ▸ hmem)).elim

theorem foldl_stepDepth {text : List Char} (h : ∀ c ∈ text, c ≠ '{' ∧ c ≠ '}') (depth : Nat) :
    text.foldl stepDepth depth = depth := by
  induction text with
  | nil => rfl
  | cons c rest ih =>
      obtain ⟨⟨hopening, hclosing⟩, hrest⟩ := List.forall_mem_cons.mp h
      rw [List.foldl_cons, stepDepth, if_neg hopening, if_neg hclosing, ih hrest]

/-- A declaration whose name starts with two dashes and goes on behind them. -/
@[mk_iff]
structure IsVariable (entry : String × String) : Prop extends IsDeclaration entry where
  dashes : "--".toList <+: entry.1.toList
  long : 2 < entry.1.length

instance (entry : String × String) : Decidable (IsVariable entry) :=
  decidable_of_iff _ (isVariable_iff entry).symm

theorem variableOf?_declarationText {entry : String × String} (h : IsVariable entry) :
    variableOf? (declarationText entry) = some entry := by
  obtain ⟨rest, hrest⟩ := h.dashes
  have hafter : Text.after? ['-', '-'] entry.1.toList = some rest :=
    hrest ▸ Text.after?_append _ rest
  have hlong : rest ≠ [] := by
    rintro rfl
    have hlength := h.long
    rw [← String.length_toList, ← hrest] at hlength
    exact absurd hlength (by decide)
  simp [variableOf?, h.nameAndValue?, hafter, hlong, h.value.nonempty]

theorem variablesOf_declarationsText {entries : List (String × String)}
    (h : ∀ entry ∈ entries, IsVariable entry) :
    variablesOf (declarationsText entries ++ [' ']) = entries := by
  have hbrace : '}' ∉ declarationsText entries ++ [' '] := by
    rw [declarationsText, List.flatMap_map, List.mem_append, List.mem_flatMap]
    rintro (⟨entry, hentry, hmem⟩ | hblank)
    · rcases List.mem_append.mp hmem with hmem | hsemicolon
      · exact ((h entry hentry).marks _ hmem).2.1 rfl
      · exact absurd hsemicolon (by decide)
    · exact absurd hblank (by decide)
  rw [variablesOf_eq hbrace, pieces_declarationsText (fun _ _ => eq_of_endsStatement) rfl rfl
    (fun entry hentry => (h entry hentry).toIsDeclaration)]
  · exact filterMap_declarationTexts rfl fun entry hentry =>
      variableOf?_declarationText (h entry hentry)
  · intro entry hentry
    apply foldl_stepDepth
    intro c hc
    exact ⟨((h entry hentry).marks c hc).1, ((h entry hentry).marks c hc).2.1⟩

def applyText (classes : List String) : List Char :=
  Text.join [' '] (("@apply" :: classes).map String.toList)

@[mk_iff]
structure IsClassList (classes : List String) : Prop where
  nonempty : classes ≠ []
  plain : ∀ name ∈ classes, IsPlain name
  unbroken : ∀ name ∈ classes, name.toList.any Text.isBlank = false

instance (classes : List String) : Decidable (IsClassList classes) :=
  decidable_of_iff _ (isClassList_iff classes).symm

namespace IsClassList

variable {classes : List String}

theorem plain_apply (h : IsClassList classes) : ∀ text ∈ "@apply" :: classes, IsPlain text :=
  List.forall_mem_cons.mpr ⟨by decide +kernel, h.plain⟩

theorem solid (h : IsClassList classes) : Text.Solid (applyText classes) := by
  apply Text.Solid.join [' '] (by simp)
  intro part hpart
  obtain ⟨text, htext, rfl⟩ := List.mem_map.mp hpart
  exact (h.plain_apply text htext).solid

theorem ne_semicolon (h : IsClassList classes) : ∀ c ∈ applyText classes, c ≠ ';' := by
  refine Text.forall_mem_join (by simp) ?_
  intro part hpart c hc
  obtain ⟨text, htext, rfl⟩ := List.mem_map.mp hpart
  exact ((h.plain_apply text htext).marks c hc).2.2.1

theorem words (h : IsClassList classes) :
    Text.words (Text.join [' '] (classes.map String.toList)) = classes.map String.toList := by
  apply Text.words_join
  intro part hpart
  obtain ⟨name, hname, rfl⟩ := List.mem_map.mp hpart
  exact ⟨(h.plain name hname).toList_ne_nil, h.unbroken name hname⟩

theorem after? (h : IsClassList classes) :
    Text.after? "@apply".toList (applyText classes) =
      some (' ' :: Text.join [' '] (classes.map String.toList)) := by
  rw [applyText, List.map_cons, Text.join_cons_of_ne_nil _ _ (by simpa using h.nonempty),
    List.append_assoc, Text.after?_append, List.singleton_append]

theorem classesOf (h : IsClassList classes) :
    classesOf (' ' :: applyText classes ++ [';', ' ']) = classes := by
  have hwhole : ∀ c ∈ ' ' :: applyText classes, (c == ';') = false := by
    simpa using h.ne_semicolon
  have hsplit : Text.splitOn ';' (' ' :: applyText classes ++ [';', ' ']) =
      [' ' :: applyText classes, [' ']] := by
    rw [Text.splitOn, Text.splitWhere_append_cons rfl, Text.splitWhere_eq_singleton hwhole]
    rfl
  have htrim : Text.trim (' ' :: applyText classes) = applyText classes := by
    rw [Text.trim_cons_of_isBlank rfl, h.solid.trim_eq]
  have hblank : Text.after? "@apply".toList (Text.trim [' ']) = none := by decide
  rw [ThemeSource.classesOf, hsplit]
  simp only [List.flatMap_cons, List.flatMap_nil, htrim, h.after?, hblank,
    Text.words_cons (show Text.isBlank ' ' = true from rfl), h.words]
  simp

theorem tidy {needle : String} (hneedle : needle ∈ reservedTexts) (h : IsClassList classes) :
    Tidy needle.toList (' ' :: applyText classes ++ [';', ' ']) := by
  refine .stop (isNeedle_of_mem hneedle) rfl ?_
  apply tidy_join hneedle (List.cons_ne_nil _ _) h.plain_apply
  exact .stop (isNeedle_of_mem hneedle) rfl .nil

end IsClassList

/-- A selector that is no at-rule, and the classes to apply to it. -/
@[mk_iff]
structure IsApply (entry : String × List String) : Prop where
  selector : IsPlain entry.1
  atRule : entry.1.toList.head? ≠ some '@'
  classes : IsClassList entry.2

instance (entry : String × List String) : Decidable (IsApply entry) :=
  decidable_of_iff _ (isApply_iff entry).symm

def applyBlock (entry : String × List String) : Block :=
  ⟨entry.1.toList ++ [' '], ' ' :: applyText entry.2 ++ [';', ' ']⟩

theorem applyOf?_applyBlock {entry : String × List String} (h : IsApply entry) :
    applyOf? (.block (applyBlock entry).header (applyBlock entry).body) = some entry := by
  have hselector : Text.trim (entry.1.toList ++ [' ']) = entry.1.toList := by
    simpa [Text.trimEnd, Text.isBlank] using h.selector.solid.trim_around [] [' ']
  have hatRule : Text.startsWith ['@'] entry.1.toList = false := by
    have hhead := h.atRule
    cases hselector : entry.1.toList with
    | nil => rfl
    | cons c rest =>
        rw [hselector] at hhead
        have hc : '@' ≠ c := fun heq => hhead (heq ▸ rfl)
        simp [Text.startsWith, List.isPrefixOf_cons_cons, hc]
  rw [applyOf?, applyBlock]
  simp only [hselector, h.classes.classesOf, hatRule]
  simp [h.classes.nonempty, h.selector.nonempty]

end ThemeSource

namespace Utility

open Css

def NestedRule.block (rule : NestedRule) : Block :=
  ⟨' ' :: (rule.selector.toList ++ [' ']), declarationsText rule.declarations ++ [' ']⟩

def Definition.block (definition : Definition) : Block where
  header := ' ' :: (definition.pattern.toList ++ [' '])
  body := declarationsText definition.declarations ++
    ((definition.nested.map NestedRule.block).flatMap Block.write ++ [' '])

@[mk_iff]
structure NestedRule.IsPlain (rule : NestedRule) : Prop where
  selector : Css.IsPlain rule.selector
  declarations : ∀ entry ∈ rule.declarations, IsDeclaration entry

instance (rule : NestedRule) : Decidable rule.IsPlain :=
  decidable_of_iff _ (NestedRule.isPlain_iff rule).symm

@[mk_iff]
structure Definition.IsPlain (definition : Definition) : Prop where
  pattern : Css.IsPlain definition.pattern
  unbroken : definition.pattern.toList.any Text.isBlank = false
  declarations : ∀ entry ∈ definition.declarations, IsDeclaration entry
  nested : ∀ rule ∈ definition.nested, rule.IsPlain

instance (definition : Definition) : Decidable definition.IsPlain :=
  decidable_of_iff _ (Definition.isPlain_iff definition).symm

namespace NestedRule.IsPlain

variable {rule : NestedRule} {needle : String}

theorem isInline (h : rule.IsPlain) : IsInline rule.block.header :=
  isInline_blank.append (h.selector.isInline.append isInline_blank)

theorem tidy (hneedle : needle ∈ reservedTexts) (h : rule.IsPlain) :
    rule.block.IsTidy needle.toList where
  header := by
    refine .stop (isNeedle_of_mem hneedle) rfl ?_
    exact h.selector.tidy_append hneedle rfl .nil
  body := (tidy_declarationsText hneedle h.declarations).append
    (.stop (isNeedle_of_mem hneedle) rfl .nil)

theorem nestedRule? (h : rule.IsPlain) :
    nestedRule? rule.block.header rule.block.body = some rule := by
  have hselector : Text.trim rule.block.header = rule.selector.toList := by
    simpa [NestedRule.block, Text.trimStart, Text.trimEnd, Text.isBlank] using
      h.selector.solid.trim_around [' '] [' ']
  have hentries : (splitTopLevel ';' rule.block.body).filterMap declaration? =
      rule.declarations := by
    rw [NestedRule.block, splitTopLevel_declarationsText h.declarations]
    exact filterMap_declarationTexts rfl fun entry hentry =>
      declaration?_declarationText (h.declarations entry hentry)
  simp [Utility.nestedRule?, hselector, hentries, h.selector.nonempty]

end NestedRule.IsPlain

namespace Definition.IsPlain

variable {definition : Definition} {needle : String}

theorem tidy (hneedle : needle ∈ reservedTexts) (h : definition.IsPlain) :
    definition.block.IsTidy needle.toList where
  header := by
    refine .stop (isNeedle_of_mem hneedle) rfl ?_
    exact h.pattern.tidy_append hneedle rfl .nil
  body := by
    apply (tidy_declarationsText hneedle h.declarations).append
    refine Tidy.append (Tidy.flatMap ?_) (.stop (isNeedle_of_mem hneedle) rfl .nil)
    intro block hblock
    obtain ⟨rule, hrule, rfl⟩ := List.mem_map.mp hblock
    exact ((h.nested rule hrule).tidy hneedle).write

theorem statements (h : definition.IsPlain) :
    statements true definition.block.body =
      (definition.declarations.map declarationText).map .plain ++
        ((definition.nested.map NestedRule.block).map
            (fun block => .block block.header block.body) ++ [.plain [' ']]) := by
  have hblocks : ∀ block ∈ definition.nested.map NestedRule.block,
      IsInline block.header ∧ Delimiter.braces.Balanced block.body := by
    intro block hblock
    obtain ⟨rule, hrule, rfl⟩ := List.mem_map.mp hblock
    have hreserved : "/*" ∈ reservedTexts := by decide
    exact ⟨(h.nested rule hrule).isInline, ((h.nested rule hrule).tidy hreserved).body.balanced⟩
  have hblank : Css.statements true [' '] = [.plain [' ']] := by
    rw [statements_cons (by decide) (.inr (by decide)), Css.statements]
    rfl
  rw [Definition.block, statements_declarationsText h.declarations, statements_blocks hblocks,
    hblank]

theorem ofBlock (h : definition.IsPlain) : Definition.ofBlock definition.block = definition := by
  have hwords : Text.words definition.block.header = [definition.pattern.toList] := by
    rw [Definition.block, Text.words_cons rfl, Text.words_append_cons rfl,
      Text.words_eq_singleton h.pattern.toList_ne_nil h.unbroken]
    rfl
  have hdeclarations : definition.declarations.filterMap
      (fun entry => declaration? (declarationText entry)) = definition.declarations :=
    filterMap_eq_self fun entry hentry => declaration?_declarationText (h.declarations entry hentry)
  have hnested : definition.nested.filterMap
      (fun rule => nestedRule? rule.block.header rule.block.body) = definition.nested :=
    filterMap_eq_self fun rule hrule => (h.nested rule hrule).nestedRule?
  have hblank : declaration? [' '] = none := rfl
  rw [Definition.ofBlock, h.statements, hwords]
  simp only [List.filterMap_append, List.filterMap_map, Function.comp_def, hdeclarations, hnested]
  simp [hblank]

end Definition.IsPlain

end Utility

end AtomicCss
