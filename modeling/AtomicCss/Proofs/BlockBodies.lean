import AtomicCss.Proofs.NameScanning
import AtomicCss.Proofs.SourceText
import Mathlib.Data.List.Flatten

/-!
The body of a block, read as tokens and as declarations of a utility. Both readers cut it into
statements, but only the second passes over parentheses and quotes. They differ where a token, or
what looks like one, stands in a statement with a `;` of its own.
-/

namespace AtomicCss

theorem forall_eq_of_flatMap_eq {Item Entry : Type} {read readMore : Item → List Entry}
    {items : List Item} (hless : ∀ item ∈ items, (read item).Sublist (readMore item))
    (h : items.flatMap readMore = items.flatMap read) :
    ∀ item ∈ items, readMore item = read item := by
  induction items with
  | nil => simp
  | cons item items ih =>
      obtain ⟨hitem, hitems⟩ := List.forall_mem_cons.mp hless
      have hlength := congrArg List.length h
      have hlater := (List.Sublist.flatMap_right items hitems).length_le
      have hshorter := hitem.length_le
      simp only [List.flatMap_cons, List.length_append] at h hlength
      have heq : read item = readMore item := hitem.eq_of_length (by omega)
      rw [heq] at h
      exact List.forall_mem_cons.mpr ⟨heq.symm, ih hitems (List.append_cancel_left h)⟩

namespace Text

theorem join_append_cons (separator lead part : List Char) (parts : List (List Char)) :
    join separator ((lead ++ part) :: parts) = lead ++ join separator (part :: parts) := by
  cases parts with
  | nil => rfl
  | cons next parts => simp [join]

theorem infix_join_of_mem {separator part : List Char} {parts : List (List Char)}
    (h : part ∈ parts) : part <:+: join separator parts := by
  induction parts with
  | nil => cases h
  | cons first parts ih =>
      cases parts with
      | nil =>
          rw [List.mem_singleton.mp h]
          exact List.infix_rfl
      | cons next parts =>
          rw [join_cons_of_ne_nil _ _ (List.cons_ne_nil _ _)]
          rcases List.mem_cons.mp h with rfl | hlater
          · exact ((List.prefix_append _ _).trans (List.prefix_append _ _)).isInfix
          · exact (ih hlater).trans (List.suffix_append _ _).isInfix

theorem splitOn_append_cons (separator : Char) (first second : List Char) :
    splitOn separator (first ++ separator :: second) =
      splitOn separator first ++ splitOn separator second := by
  apply splitWhere_append_cons
  exact beq_self_eq_true separator

theorem splitOn_join (separator : Char) {parts : List (List Char)} (h : parts ≠ []) :
    splitOn separator (join [separator] parts) = parts.flatMap (splitOn separator) := by
  induction parts with
  | nil => exact (h rfl).elim
  | cons part parts ih =>
      cases parts with
      | nil => simp [join]
      | cons next parts =>
          rw [join_cons_of_ne_nil _ _ (List.cons_ne_nil _ _), List.append_assoc,
            List.singleton_append, splitOn_append_cons, ih (List.cons_ne_nil _ _)]
          rfl

theorem splitOn_eq_singleton {separator : Char} {text : List Char} (h : separator ∉ text) :
    splitOn separator text = [text] := by
  apply splitWhere_eq_singleton
  intro c hc
  exact beq_eq_false_iff_ne.mpr fun heq => h (heq ▸ hc)

theorem not_mem_of_mem_splitOn {separator : Char} {text piece : List Char}
    (h : piece ∈ splitOn separator text) : separator ∉ piece := by
  obtain ⟨parts, last, hpieces, hparts, hlast⟩ :=
    @exists_pieces _ (fun _ _ => ()) (fun _ c => c == separator) () (fun _ _ _ => ⟨rfl, rfl⟩) text
  have huncut : splitOn separator piece = [piece] := by
    rw [splitOn, splitWhere, hpieces] at h
    rcases List.mem_append.mp h with hpart | hpart
    · exact (hparts piece hpart).uncut
    · rw [List.mem_singleton.mp hpart]
      exact hlast
  intro hmem
  obtain ⟨before, after, rfl⟩ := List.append_of_mem hmem
  simpa using (pieces_eq_singleton_iff () _).mp huncut before separator after rfl

end Text

namespace Css

namespace Delimiter

variable {delimiter : Delimiter} {text : List Char}

theorem foldl_advance (hopening : delimiter.opening ∉ text) (hclosing : delimiter.closing ∉ text)
    (state : Nat × Quoting) :
    text.foldl delimiter.advance state = (state.1, text.foldl Quoting.step state.2) := by
  induction text generalizing state with
  | nil => rfl
  | cons c rest ih =>
      obtain ⟨hopens, hopening⟩ := List.ne_and_not_mem_of_not_mem_cons hopening
      obtain ⟨hcloses, hclosing⟩ := List.ne_and_not_mem_of_not_mem_cons hclosing
      have hadvance : delimiter.advance state c = (state.1, state.2.step c) := by
        simp [advance, hopens.symm, hcloses.symm]
      rw [List.foldl_cons, hadvance, ih hopening hclosing, List.foldl_cons]

theorem span?_of_not_mem (hproper : delimiter.IsProper) (hopening : delimiter.opening ∉ text)
    (hclosing : delimiter.closing ∉ text)
    (hquotes : text.foldl Quoting.step .outside = .outside) :
    delimiter.span? (text ++ [delimiter.closing]) = some (text, []) := by
  have huncut : Text.pieces delimiter.advance delimiter.ends (0, .outside) text = [text] := by
    rw [Text.pieces_eq_singleton_iff]
    rintro before c after rfl
    have hc : c ≠ delimiter.closing := fun heq => hclosing (by simp [heq])
    simp [ends, hc]
  rw [span?_of_uncut hproper huncut, if_pos]
  rw [foldl_advance hopening hclosing, hquotes]

end Delimiter

theorem blocks_eq_singleton {keyword header body : List Char} (hkeyword : keyword ≠ [])
    (hheader : '{' ∉ header)
    (hspan : Delimiter.braces.span? (body ++ ['}']) = some (body, [])) :
    blocks keyword (keyword ++ (header ++ '{' :: (body ++ ['}']))) = [⟨header, body⟩] := by
  rw [blocks, blocksFrom_block hkeyword rfl hheader hspan, blocksFrom]

/-- The statements are plain, and the text is what they give with a `;` between them. -/
def Joins (list : List Statement) (text : List Char) : Prop :=
  ∃ texts, texts ≠ [] ∧ list = texts.map .plain ∧ Text.join [';'] texts = text

theorem joins_singleton (text : List Char) : Joins [.plain text] text :=
  ⟨[text], List.cons_ne_nil _ _, rfl, rfl⟩

theorem Joins.prepend {list : List Statement} {later : List Char} (h : Joins list later)
    (lead : List Char) : Joins (Statement.prepend lead list) (lead ++ later) := by
  obtain ⟨texts, hempty, rfl, rfl⟩ := h
  obtain ⟨first, rest, rfl⟩ := List.exists_cons_of_ne_nil hempty
  exact ⟨(lead ++ first) :: rest, List.cons_ne_nil _ _, rfl,
    Text.join_append_cons [';'] lead first rest⟩

theorem joins_statements {skipSpans : Bool} {text : List Char} (h : '{' ∉ text) :
    Joins (statements skipSpans text) text := by
  fun_induction statements skipSpans text with
  | case1 => exact joins_singleton []
  | case2 rest ih =>
      obtain ⟨texts, hempty, hstatements, hjoin⟩ := ih (List.not_mem_of_not_mem_cons h)
      refine ⟨[] :: texts, List.cons_ne_nil _ _, congrArg (.plain [] :: ·) hstatements, ?_⟩
      rw [Text.join_cons_of_ne_nil _ _ hempty, hjoin]
      rfl
  -- a brace does not occur
  | case3 => exact (h List.mem_cons_self).elim
  | case4 => exact (h List.mem_cons_self).elim
  | case5 c rest _ _ _ inner after hspan ih =>
      have hrest : rest = inner ++ ')' :: after := Delimiter.eq_append_of_span? hspan
      rw [hrest] at h ⊢
      simpa using (ih (by simp_all)).prepend (c :: inner ++ [')'])
  | case6 => exact joins_singleton _
  | case7 c rest _ _ _ _ inner after hcut ih =>
      rw [Text.eq_append_of_cut? hcut] at h ⊢
      simpa using (ih (by simp_all)).prepend (c :: inner ++ [c])
  | case8 => exact joins_singleton _
  | case9 c rest _ _ _ _ ih => exact (ih (List.not_mem_of_not_mem_cons h)).prepend [c]

theorem mem_iff_of_nameAndValue? {statement name value : List Char} {c : Char}
    (h : nameAndValue? statement = some (name, value)) (hblank : Text.isBlank c = false)
    (hcolon : c ≠ ':') : c ∈ statement ↔ c ∈ name ∨ c ∈ value := by
  have htrim (text : List Char) : c ∈ Text.trim text ↔ c ∈ text := by
    have hfilter := @Text.filter_trim (· == c) (fun d hd => by
      simpa using fun heq => by simp [heq, hblank] at hd) text
    have hmem := congrArg (c ∈ ·) hfilter
    simpa using hmem
  obtain ⟨⟨before, after⟩, hcut, heq⟩ := Option.map_eq_some_iff.mp h
  cases heq
  rw [← htrim statement, Text.eq_append_of_cut? hcut]
  simp [htrim, hcolon]

end Css

namespace ThemeSource

open Css

/-- A declaration that is read as a token: two dashes, and more of a name behind them. -/
def isCustomProperty (entry : String × String) : Bool :=
  Text.startsWith ['-', '-'] entry.1.toList && 2 < entry.1.length

theorem isCustomProperty_eq (name value : List Char) :
    isCustomProperty (String.ofList name, String.ofList value) =
      (Text.after? ['-', '-'] name).any (!·.isEmpty) := by
  simp only [isCustomProperty, String.toList_ofList, String.length_ofList]
  cases hafter : Text.after? ['-', '-'] name with
  | some rest =>
      rw [Text.eq_append_of_after? hafter]
      cases rest <;> simp [Text.startsWith]
  | none =>
      have hstarts : Text.startsWith ['-', '-'] name = false := by
        rw [Text.startsWith, Bool.eq_false_iff, ne_eq, List.isPrefixOf_iff_prefix]
        rintro ⟨rest, rfl⟩
        rw [Text.after?_append] at hafter
        cases hafter
      simp [hstarts]

theorem variableOf?_eq {statement : List Char} (h : '{' ∉ statement) :
    variableOf? statement = (Utility.declaration? statement).filter isCustomProperty := by
  rw [variableOf?, Utility.declaration?]
  cases hread : nameAndValue? statement with
  | none => rfl
  | some parts =>
      obtain ⟨name, value⟩ := parts
      have hbrace : '{' ∉ value := fun hmem =>
        h ((mem_iff_of_nameAndValue? hread rfl (by decide)).mpr (.inr hmem))
      have hcustom := isCustomProperty_eq name value
      by_cases hvalue : value = []
      · cases hafter : Text.after? ['-', '-'] name <;> simp [hvalue, hafter]
      by_cases hname : name = []
      · simp [hname, Text.after?]
      cases hafter : Text.after? ['-', '-'] name <;>
        simp [hafter, hvalue, hname, hbrace, Option.filter_some, hcustom]

def variablesIn (statement : List Char) : List (String × String) :=
  (Text.splitOn ';' statement).filterMap variableOf?

theorem pieces_eq_splitOn {text : List Char} (hopening : '{' ∉ text) (hclosing : '}' ∉ text) :
    Text.pieces stepDepth endsStatement 0 text = Text.splitOn ';' text := by
  rw [Text.splitOn, Text.splitWhere]
  induction text with
  | nil => rfl
  | cons c rest ih =>
      obtain ⟨hopens, hopening⟩ := List.ne_and_not_mem_of_not_mem_cons hopening
      obtain ⟨hcloses, hclosing⟩ := List.ne_and_not_mem_of_not_mem_cons hclosing
      have hstep : stepDepth 0 c = 0 := by simp [stepDepth, hopens.symm, hcloses.symm]
      by_cases hc : c = ';'
      · rw [Text.pieces_cons_of_cut (by simp [endsStatement, hc]),
          Text.pieces_cons_of_cut (by simp [hc]), hstep, ih hopening hclosing]
      · rw [Text.pieces_cons (by simp [endsStatement, hc, hcloses.symm]),
          Text.pieces_cons (by simp [hc]), hstep, ih hopening hclosing]

theorem variablesOf_eq_variablesIn {body : List Char} (hopening : '{' ∉ body)
    (hclosing : '}' ∉ body) : variablesOf body = variablesIn body := by
  rw [variablesOf_eq hclosing, pieces_eq_splitOn hopening hclosing, variablesIn]

theorem variablesIn_join {texts : List (List Char)} (h : texts ≠ []) :
    variablesIn (Text.join [';'] texts) = texts.flatMap variablesIn := by
  rw [variablesIn, Text.splitOn_join ';' h, List.filterMap_flatMap]
  rfl

theorem mem_iff_of_variableOf? {statement : List Char} {entry : String × String}
    (h : variableOf? statement = some entry) :
    ';' ∈ statement ↔ ';' ∈ entry.1.toList ∨ ';' ∈ entry.2.toList := by
  obtain ⟨⟨name, value⟩, hread, h⟩ := Option.bind_eq_some_iff.mp h
  obtain ⟨rest, -, h⟩ := Option.bind_eq_some_iff.mp h
  rw [mem_iff_of_nameAndValue? hread rfl (by decide)]
  split at h
  · cases h
  · cases h
    simp

theorem variablesIn_of_not_mem {statement : List Char} (h : ';' ∉ statement) :
    variablesIn statement = (variableOf? statement).toList := by
  rw [variablesIn, Text.splitOn_eq_singleton h]
  cases hread : variableOf? statement <;> simp [hread]

/-- Whether a `;` in the statement takes a token apart, or leaves a piece that looks like one. -/
def breaks : Statement → Bool
  | .plain text =>
      text.contains ';' && ((variableOf? text).isSome || !(variablesIn text).isEmpty)
  | .block _ _ => false

theorem breaks_plain_iff {text : List Char} :
    breaks (.plain text) = false ↔
      (';' ∈ text → variableOf? text = none ∧ variablesIn text = []) := by
  simp [breaks]

theorem flatMap_variablesIn_eq_iff (texts : List (List Char)) :
    texts.flatMap variablesIn = texts.filterMap variableOf? ↔
      ∀ text ∈ texts, breaks (.plain text) = false := by
  have hread : texts.filterMap variableOf? = texts.flatMap fun text => (variableOf? text).toList :=
    List.filterMap_eq_flatMap_toList _ _
  constructor
  · intro h
    -- what is read from a piece has no `;`, so that no statement with one is a token
    have hnone : ∀ text ∈ texts, ';' ∈ text → variableOf? text = none := by
      intro text htext hsemicolon
      rw [Option.eq_none_iff_forall_ne_some]
      intro entry hentry
      have hmem : entry ∈ texts.flatMap variablesIn :=
        h ▸ List.mem_filterMap.mpr ⟨text, htext, hentry⟩
      obtain ⟨other, -, hother⟩ := List.mem_flatMap.mp hmem
      obtain ⟨piece, hpiece, hvariable⟩ := List.mem_filterMap.mp hother
      apply Text.not_mem_of_mem_splitOn hpiece
      exact (mem_iff_of_variableOf? hvariable).mpr ((mem_iff_of_variableOf? hentry).mp hsemicolon)
    -- so each statement gives at least as much when it is cut, and all together give the same
    have hless : ∀ text ∈ texts, (variableOf? text).toList.Sublist (variablesIn text) := by
      intro text htext
      by_cases hsemicolon : ';' ∈ text
      · rw [hnone text htext hsemicolon]
        exact List.nil_sublist _
      · rw [variablesIn_of_not_mem hsemicolon]
    intro text htext
    refine breaks_plain_iff.mpr fun hsemicolon => ⟨hnone text htext hsemicolon, ?_⟩
    rw [forall_eq_of_flatMap_eq hless (h.trans hread) text htext, hnone text htext hsemicolon]
    rfl
  · intro h
    rw [hread]
    apply List.flatMap_congr
    intro text htext
    by_cases hsemicolon : ';' ∈ text
    · obtain ⟨hnone, hempty⟩ := breaks_plain_iff.mp (h text htext) hsemicolon
      rw [hnone, hempty]
      rfl
    · exact variablesIn_of_not_mem hsemicolon

def blockText (header body : String) : String :=
  header ++ " \x7b" ++ body ++ "\x7d"

theorem toList_blockText (header body : String) :
    (blockText header body).toList = header.toList ++ ' ' :: '{' :: (body.toList ++ ['}']) := by
  simp [blockText]

/-- A body that is read as it stands: without braces and comments, with each quote closed. -/
@[mk_iff]
structure IsBody (body : List Char) : Prop where
  opening : '{' ∉ body
  closing : '}' ∉ body
  comment : ¬['/', '*'] <:+: body
  quotes : body.foldl Quoting.step .outside = .outside

instance (body : List Char) : Decidable (IsBody body) :=
  decidable_of_iff _ (isBody_iff body).symm

theorem IsBody.blocks {keyword header body : List Char} (h : IsBody body) (hkeyword : keyword ≠ [])
    (hheader : '{' ∉ header) (hcomment : ¬['/', '*'] <:+: keyword ++ header) :
    Css.blocks keyword (stripComments (keyword ++ (header ++ '{' :: (body ++ ['}'])))) =
      [⟨header, body⟩] := by
  rw [stripComments_eq_self]
  · apply blocks_eq_singleton hkeyword hheader
    exact Delimiter.span?_of_not_mem Delimiter.isProper_braces h.opening h.closing h.quotes
  · rw [← List.append_assoc]
    apply Text.not_infix_append_cons (by decide) hcomment
    exact Text.not_infix_append_cons (by decide) h.comment (by decide)

theorem IsBody.customProperties {body : String} (h : IsBody body.toList) :
    (parse (blockText "@theme" body)).customProperties = variablesIn body.toList := by
  have hblocks := @IsBody.blocks "@theme".toList [' '] _ h (by decide) (by decide) (by decide)
  simp only [parse, toList_blockText]
  rw [← variablesOf_eq_variablesIn h.opening h.closing]
  refine (congrArg (List.flatMap fun block => variablesOf block.body) hblocks).trans ?_
  simp

theorem IsBody.utilities {body : String} (h : IsBody body.toList) {texts : List (List Char)}
    (htexts : statements true body.toList = texts.map .plain) :
    (parse (blockText "@utility x" body)).utilities =
      [⟨"x", texts.filterMap Utility.declaration?, []⟩] := by
  have hblocks :=
    @IsBody.blocks "@utility".toList [' ', 'x', ' '] _ h (by decide) (by decide) (by decide)
  have hpattern : String.ofList ((Text.words [' ', 'x', ' ']).head?.getD []) = "x" := by decide
  simp only [parse, toList_blockText]
  refine (congrArg (List.map Utility.Definition.ofBlock) hblocks).trans ?_
  rw [List.map_singleton, Utility.Definition.ofBlock, htexts, hpattern]
  simp [List.filterMap_map]

/-- The tokens of a body are its declarations with names of tokens, unless there is a `;` inside a
statement that holds a token. -/
theorem tokens_agree_with_declarations_iff {body : String} (h : IsBody body.toList) :
    ∃ declarations,
      (parse (blockText "@utility x" body)).utilities = [⟨"x", declarations, []⟩] ∧
      (parse (blockText "@theme" body)).customProperties = variablesIn body.toList ∧
      ((parse (blockText "@theme" body)).customProperties =
          declarations.filter isCustomProperty ↔
        ∀ statement ∈ statements true body.toList, breaks statement = false) := by
  obtain ⟨texts, hempty, htexts, hjoin⟩ := @joins_statements true _ h.opening
  refine ⟨_, h.utilities htexts, h.customProperties, ?_⟩
  have hcustom : (texts.filterMap Utility.declaration?).filter isCustomProperty =
      texts.filterMap variableOf? := by
    rw [List.filter_filterMap]
    apply List.filterMap_congr
    intro text htext
    have hpart : text <:+: body.toList := hjoin ▸ Text.infix_join_of_mem htext
    exact (variableOf?_eq fun hbrace => h.opening (hpart.subset hbrace)).symm
  have hvariables : variablesIn body.toList = texts.flatMap variablesIn := by
    rw [← hjoin, variablesIn_join hempty]
  rw [h.customProperties, hcustom, hvariables, flatMap_variablesIn_eq_iff, htexts,
    List.forall_mem_map]

theorem tokens_agree_with_declarations_quoted :
    IsBody "--gap: 1px; content: \"a;b\"".toList ∧
    ∃ declarations,
      (parse (blockText "@utility x" "--gap: 1px; content: \"a;b\"")).utilities =
        [⟨"x", declarations, []⟩] ∧
      (parse (blockText "@theme" "--gap: 1px; content: \"a;b\"")).customProperties =
        declarations.filter isCustomProperty := by
  have hbody : IsBody "--gap: 1px; content: \"a;b\"".toList := by decide +kernel
  refine ⟨hbody, ?_⟩
  obtain ⟨declarations, hutilities, -, hiff⟩ := tokens_agree_with_declarations_iff hbody
  exact ⟨declarations, hutilities, hiff.mpr (by decide +kernel)⟩

/-- A `;` in parentheses or quotes ends a token, but not a declaration. -/
theorem semicolon_ends_token_in_span :
    (parse (blockText "@theme" " --x: url(data:a;b); --y: \"c;d\"; ")).customProperties =
      [("--x", "url(data:a"), ("--y", "\"c")] ∧
    (parse (blockText "@utility x" " --x: url(data:a;b); --y: \"c;d\"; ")).utilities =
      [⟨"x", [("--x", "url(data:a;b)"), ("--y", "\"c;d\"")], []⟩] := by
  decide +kernel

end ThemeSource

end AtomicCss
