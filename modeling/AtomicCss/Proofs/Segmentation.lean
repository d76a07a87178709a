import AtomicCss.Proofs.Brackets
import AtomicCss.Variant.Token

/-!
Class strings as chains of segments. An automaton that always stops at the same place cuts a text in
exactly one way, and the reader of class strings is such an automaton for every separator that is
not itself a bracket, a parenthesis or a backslash.
-/

namespace AtomicCss

namespace Text

section Pieces

variable {State : Type} {step : State → Char → State} {cuts : State → Char → Bool}

theorem pieces_cons_eq_singleton_iff (state : State) (c : Char) (rest : List Char) :
    pieces step cuts state (c :: rest) = [c :: rest] ↔
      cuts state c = false ∧ pieces step cuts (step state c) rest = [rest] := by
  cases hcut : cuts state c with
  | true => simp [pieces_cons_of_cut hcut]
  | false => simp [pieces, cutAll, hcut]

theorem pieces_eq_singleton_iff (state : State) (text : List Char) :
    pieces step cuts state text = [text] ↔
      ∀ before c after, text = before ++ c :: after →
        cuts (before.foldl step state) c = false := by
  constructor
  · rintro hwhole before c after rfl
    induction before generalizing state with
    | nil => exact ((pieces_cons_eq_singleton_iff state c after).mp hwhole).1
    | cons d before ih =>
        exact ih (step state d) ((pieces_cons_eq_singleton_iff state d _).mp hwhole).2
  · intro huncut
    rcases pieces_cases step cuts state text with hwhole | ⟨first, c, rest, htext, -, hcut⟩
    · exact hwhole
    · rw [huncut first c rest htext] at hcut
      cases hcut

/-- A text that is not cut and leads the automaton back to where it started. -/
structure IsPiece (step : State → Char → State) (cuts : State → Char → Bool) (home : State)
    (text : List Char) : Prop where
  uncut : pieces step cuts home text = [text]
  returns : text.foldl step home = home

theorem pieces_join {home : State} {separator : Char} (hcut : cuts home separator = true)
    (hstep : step home separator = home) {parts : List (List Char)} {last : List Char}
    (hparts : ∀ part ∈ parts, IsPiece step cuts home part)
    (hlast : pieces step cuts home last = [last]) :
    pieces step cuts home (join [separator] (parts ++ [last])) = parts ++ [last] := by
  induction parts with
  | nil => exact hlast
  | cons part rest ih =>
      obtain ⟨hpart, hrest⟩ := List.forall_mem_cons.mp hparts
      have hreturns := hpart.returns
      rw [List.cons_append, join_cons_of_ne_nil _ _ (List.concat_ne_nil _ _), List.append_assoc,
        List.singleton_append, pieces_append_cut hpart.uncut (hreturns.symm ▸ hcut), hreturns,
        hstep, ih hrest]

/-- An automaton that only cuts where it started, and starts again there, leaves pieces behind. -/
theorem exists_pieces {home : State}
    (hcuts : ∀ state c, cuts state c = true → state = home ∧ step state c = home)
    (text : List Char) :
    ∃ parts last, pieces step cuts home text = parts ++ [last] ∧
      (∀ part ∈ parts, IsPiece step cuts home part) ∧
        pieces step cuts home last = [last] := by
  induction hlength : text.length using Nat.strongRecOn generalizing text with
  | ind length ih =>
      rcases pieces_cases step cuts home text with hwhole | ⟨first, c, rest, rfl, hfirst, hcut⟩
      · exact ⟨[], text, hwhole, by simp, hwhole⟩
      · obtain ⟨hreturns, hstep⟩ := hcuts _ c hcut
        have hlt : rest.length < length := by
          rw [← hlength, List.length_append, List.length_cons]
          omega
        obtain ⟨parts, last, hpieces, hparts, hlast⟩ := ih rest.length hlt rest rfl
        refine ⟨first :: parts, last, ?_, ?_, hlast⟩
        · rw [pieces_append_cut hfirst hcut, hstep, hpieces]
          rfl
        · exact List.forall_mem_cons.mpr ⟨⟨hfirst, hreturns⟩, hparts⟩

end Pieces

end Text

namespace ClassName

/-- The separator stands somewhere outside brackets, parentheses and escapes. -/
def HasFreeSeparator (separator : Char) (text : String) : Prop :=
  ∃ before after, text.toList = before ++ separator :: after ∧
    before.foldl Reader.step .initial = .initial

/-- A text that closes all that it opens and has no separator outside. -/
structure IsSegment (separator : Char) (text : String) : Prop where
  whole : ¬HasFreeSeparator separator text
  closed : text.toList.foldl Reader.step .initial = .initial

/-- A class string taken apart: its segments and the base utility behind them. -/
structure Decomposes (separator : Char) (text : String) (segments : List String)
    (base : String) : Prop where
  joined : (String.singleton separator).intercalate (segments ++ [base]) = text
  segments : ∀ segment ∈ segments, IsSegment separator segment
  base : ¬HasFreeSeparator separator base

variable {separator : Char}

theorem cuts_iff (hseparator : Reader.isReserved separator = false) {state : Reader} {c : Char} :
    Reader.cuts separator state c = true ↔ c = separator ∧ state = .initial := by
  simp only [Reader.cuts, Bool.and_eq_true, beq_iff_eq, Bool.not_eq_true']
  constructor
  · exact fun h => h.1
  · rintro ⟨rfl, rfl⟩
    exact ⟨⟨rfl, rfl⟩, hseparator⟩

theorem segments_eq_singleton_iff (hseparator : Reader.isReserved separator = false)
    (text : String) :
    segments separator text.toList = [text.toList] ↔ ¬HasFreeSeparator separator text := by
  rw [segments, Text.pieces_eq_singleton_iff]
  constructor
  · rintro huncut ⟨before, after, htext, hstate⟩
    have hcut := (cuts_iff hseparator).mpr ⟨rfl, hstate⟩
    rw [huncut before separator after htext] at hcut
    cases hcut
  · intro hfree before c after htext
    by_contra hcut
    obtain ⟨rfl, hstate⟩ := (cuts_iff hseparator).mp (Bool.not_eq_false _ ▸ hcut)
    exact hfree ⟨before, after, htext, hstate⟩

theorem isPiece_iff (hseparator : Reader.isReserved separator = false) (text : String) :
    Text.IsPiece Reader.step (Reader.cuts separator) .initial text.toList ↔
      IsSegment separator text := by
  have hwhole := segments_eq_singleton_iff hseparator text
  exact ⟨fun h => ⟨hwhole.mp h.uncut, h.returns⟩, fun h => ⟨hwhole.mpr h.whole, h.closed⟩⟩

theorem decomposes_iff (hseparator : Reader.isReserved separator = false) (text : String)
    (parts : List String) (base : String) :
    Decomposes separator text parts base ↔
      segments separator text.toList = parts.map String.toList ++ [base.toList] := by
  have hjoin : ((String.singleton separator).intercalate (parts ++ [base])).toList =
      Text.join [separator] (parts.map String.toList ++ [base.toList]) := by
    rw [Text.toList_intercalate, List.map_append]
    simp
  constructor
  · rintro ⟨rfl, hparts, hbase⟩
    rw [hjoin, segments]
    apply Text.pieces_join
    · exact (cuts_iff hseparator).mpr ⟨rfl, rfl⟩
    · exact (Open.step_of_cuts ((cuts_iff hseparator).mpr ⟨rfl, rfl⟩)).2
    · intro part hpart
      obtain ⟨segment, hsegment, rfl⟩ := List.mem_map.mp hpart
      exact (isPiece_iff hseparator segment).mpr (hparts segment hsegment)
    · exact (segments_eq_singleton_iff hseparator base).mpr hbase
  · intro hsegments
    obtain ⟨pieces, last, hpieces, hpiece, hlast⟩ :=
      Text.exists_pieces (fun _ _ hcut => Open.step_of_cuts hcut) text.toList
    obtain ⟨rfl, hsame⟩ := List.append_inj' (hpieces.symm.trans hsegments) rfl
    cases hsame
    refine ⟨?_, ?_, (segments_eq_singleton_iff hseparator base).mp hlast⟩
    · apply String.toList_injective
      rw [hjoin, ← hsegments, segments]
      exact Text.join_pieces _ (fun _ _ hcut => ((cuts_iff hseparator).mp hcut).1) _ _
    · intro segment hsegment
      exact (isPiece_iff hseparator segment).mp (hpiece _ (List.mem_map_of_mem hsegment))

/-- A bracket, a parenthesis or a backslash is never taken for a separator. -/
theorem segments_of_isReserved (hseparator : Reader.isReserved separator = true)
    (text : List Char) : segments separator text = [text] := by
  rw [segments, Text.pieces_eq_singleton_iff]
  intro before c after _
  by_contra hcut
  simp only [Reader.cuts, Bool.not_eq_false, Bool.and_eq_true, beq_iff_eq,
    Bool.not_eq_true'] at hcut
  obtain ⟨⟨rfl, -⟩, hfree⟩ := hcut
  rw [hseparator] at hfree
  cases hfree

end ClassName

namespace Variant

open ClassName

theorem raw_tokenize {separator : Char} {text : String} {parts : List (List Char)}
    {last : List Char} (h : segments separator text.toList = parts ++ [last]) :
    (tokenize separator text).1.map Token.raw = parts.map String.ofList ∧
      (tokenize separator text).2 = String.ofList last := by
  simp only [tokenize, h, List.dropLast_concat, List.getLast?_concat, Option.getD_some,
    List.map_map, and_true]
  rfl

/-- The tokens and the base are the one way to take a class string apart at the separators outside
brackets, parentheses and escapes. A separator of which these are made cuts nothing. -/
theorem tokenize_takes_apart_uniquely (separator : Char) (text : String) :
    (Reader.isReserved separator = false →
      ∀ parts base, Decomposes separator text parts base ↔
        parts = (tokenize separator text).1.map Token.raw ∧ base = (tokenize separator text).2) ∧
      (Reader.isReserved separator = true → tokenize separator text = ([], text)) := by
  constructor
  · intro hseparator parts base
    obtain ⟨pieces, last, hpieces, -, -⟩ :=
      Text.exists_pieces (fun _ _ hcut => Open.step_of_cuts hcut) text.toList
    obtain ⟨htokens, hbase⟩ := raw_tokenize hpieces
    rw [decomposes_iff hseparator, htokens, hbase, segments, hpieces]
    constructor
    · intro hsame
      obtain ⟨rfl, hlast⟩ := List.append_inj' hsame rfl
      cases hlast
      simp
    · rintro ⟨rfl, rfl⟩
      simp
  · intro hseparator
    simp [tokenize, segments_of_isReserved hseparator]

theorem tokenize_takes_apart_uniquely_nested :
    Reader.isReserved ':' = false ∧
      (∀ parts base, Decomposes ':' "md:data-[a:b]:(c:d" parts base ↔
        parts = ["md", "data-[a:b]"] ∧ base = "(c:d") ∧
      Reader.isReserved '\\' = true ∧ tokenize '\\' "a\\b" = ([], "a\\b") := by
  have htokens : (tokenize ':' "md:data-[a:b]:(c:d").1.map Token.raw = ["md", "data-[a:b]"] := by
    decide +kernel
  have hbase : (tokenize ':' "md:data-[a:b]:(c:d").2 = "(c:d" := by decide +kernel
  have hunique := (tokenize_takes_apart_uniquely ':' "md:data-[a:b]:(c:d").1 rfl
  rw [htokens, hbase] at hunique
  exact ⟨rfl, hunique, rfl, (tokenize_takes_apart_uniquely '\\' "a\\b").2 rfl⟩

/-- A class string whose base holds the separator, outside all brackets, and that could also be
taken apart there. -/
theorem bracket_separator_is_not_cut :
    tokenize ']' "a]b" = ([], "a]b") ∧
      ¬Decomposes ']' "a]b" ((tokenize ']' "a]b").1.map Token.raw) (tokenize ']' "a]b").2 ∧
      Decomposes ']' "a]b" ["a"] "b" := by
  have htokens : tokenize ']' "a]b" = ([], "a]b") := by decide +kernel
  refine ⟨htokens, fun h => ?_, ?_⟩
  · rw [htokens] at h
    exact h.base ⟨['a'], ['b'], rfl, rfl⟩
  · have hfree {text : String} (hmem : ']' ∉ text.toList) : ¬HasFreeSeparator ']' text := by
      rintro ⟨before, after, htext, -⟩
      exact hmem (htext ▸ List.mem_append_right before List.mem_cons_self)
    refine ⟨rfl, ?_, hfree (by decide)⟩
    intro segment hsegment
    rw [List.mem_singleton.mp hsegment]
    exact ⟨hfree (by decide), rfl⟩

end Variant

end AtomicCss
