import AtomicCss.Utility.Custom
import Mathlib.Data.List.Lex

/-!
Wildcard matching. Whatever has been looked up before, the matcher of a pattern finds texts for its
`*`s whenever there are any, and of all such texts those of which the first is longest, then the
second, and so on.
-/

namespace AtomicCss.Utility.Wildcard

/-- The pattern with a text written for each `*`, in order. -/
def fill : (pattern : List Char) → (texts : List (List Char)) → List Char
  | [], _ => []
  | c :: pattern, [] => c :: pattern
  | c :: pattern, text :: texts =>
      if c = '*' then text ++ fill pattern texts else c :: fill pattern (text :: texts)

/-- One text for each `*`, none of them empty or with a line break, that make the pattern the
subject. -/
structure Fits (pattern : List Char) (texts : List (List Char)) (subject : List Char) : Prop where
  length_eq : texts.length = pattern.count '*'
  nonempty : ∀ text ∈ texts, text ≠ []
  oneLine : ∀ text ∈ texts, '\n' ∉ text
  fill_eq : fill pattern texts = subject

structure FitsGreedily (pattern : List Char) (texts : List (List Char)) (subject : List Char) :
    Prop where
  fits : Fits pattern texts subject
  /-- Lengths are compared one after another, from the first `*` on. -/
  greatest : ∀ others, Fits pattern others subject →
    others.map List.length ≤ texts.map List.length

theorem fits_nil {texts : List (List Char)} {subject : List Char} :
    Fits [] texts subject ↔ texts = [] ∧ subject = [] := by
  constructor
  · intro h
    exact ⟨List.length_eq_zero_iff.mp h.length_eq, h.fill_eq.symm⟩
  · intro ⟨htexts, hsubject⟩
    subst htexts hsubject
    exact ⟨rfl, by simp, by simp, rfl⟩

theorem fill_cons_of_ne {c : Char} (hc : c ≠ '*') (pattern : List Char)
    (texts : List (List Char)) : fill (c :: pattern) texts = c :: fill pattern texts := by
  cases texts with
  | nil => cases pattern <;> rfl
  | cons text texts => exact if_neg hc

theorem fill_append_of_not_mem {lead : List Char} (h : '*' ∉ lead) (pattern : List Char)
    (texts : List (List Char)) : fill (lead ++ pattern) texts = lead ++ fill pattern texts := by
  induction lead with
  | nil => rfl
  | cons c lead ih =>
      obtain ⟨hc, hlead⟩ := List.ne_and_not_mem_of_not_mem_cons h
      rw [List.cons_append, fill_cons_of_ne hc.symm, ih hlead, List.cons_append]

theorem fits_cons_of_ne {c : Char} (hc : c ≠ '*') {pattern subject : List Char}
    {texts : List (List Char)} :
    Fits (c :: pattern) texts subject ↔ ∃ rest, subject = c :: rest ∧ Fits pattern texts rest := by
  have hcount : (c :: pattern).count '*' = pattern.count '*' := List.count_cons_of_ne hc
  have hfill := fill_cons_of_ne hc pattern texts
  constructor
  · intro h
    refine ⟨fill pattern texts, ?_, ?_, h.nonempty, h.oneLine, rfl⟩
    · rw [← h.fill_eq, hfill]
    · rw [h.length_eq, hcount]
  · intro ⟨rest, hsubject, h⟩
    refine ⟨?_, h.nonempty, h.oneLine, ?_⟩
    · rw [h.length_eq, hcount]
    · rw [hsubject, hfill, h.fill_eq]

theorem fits_cons_star {pattern subject : List Char} {texts : List (List Char)} :
    Fits ('*' :: pattern) texts subject ↔
      ∃ text rest later, texts = text :: later ∧ subject = text ++ rest ∧ text ≠ [] ∧
        '\n' ∉ text ∧ Fits pattern later rest := by
  have hcount : ('*' :: pattern).count '*' = pattern.count '*' + 1 := List.count_cons_self
  constructor
  · intro h
    cases texts with
    | nil =>
        have hlength := h.length_eq
        rw [hcount] at hlength
        cases hlength
    | cons text later =>
        have hnonempty := List.forall_mem_cons.mp h.nonempty
        have honeLine := List.forall_mem_cons.mp h.oneLine
        have hlength : later.length = pattern.count '*' :=
          Nat.succ.inj (h.length_eq.trans hcount)
        exact ⟨text, fill pattern later, later, rfl, h.fill_eq.symm, hnonempty.1, honeLine.1,
          hlength, hnonempty.2, honeLine.2, rfl⟩
  · intro ⟨text, rest, later, htexts, hsubject, hnonempty, honeLine, h⟩
    subst htexts hsubject
    refine ⟨?_, List.forall_mem_cons.mpr ⟨hnonempty, h.nonempty⟩,
      List.forall_mem_cons.mpr ⟨honeLine, h.oneLine⟩, ?_⟩
    · rw [List.length_cons, h.length_eq, hcount]
    · exact congrArg (text ++ ·) h.fill_eq

/-- The subject is a text and a literal for each literal. -/
inductive Covers : (literals texts : List (List Char)) → (subject : List Char) → Prop where
  | nil : Covers [] [] []
  | cons {literals texts : List (List Char)} {rest : List Char} {text : List Char}
      (hnonempty : text ≠ []) (honeLine : '\n' ∉ text) (literal : List Char)
      (hrest : Covers literals texts rest) :
      Covers (literal :: literals) (text :: texts) (text ++ (literal ++ rest))

theorem fits_iff_covers {pattern first : List Char} {literals : List (List Char)}
    (hsplit : Text.splitOn '*' pattern = first :: literals) {texts : List (List Char)}
    {subject : List Char} :
    Fits pattern texts subject ↔ ∃ rest, subject = first ++ rest ∧ Covers literals texts rest := by
  induction pattern generalizing first literals texts subject with
  | nil =>
      cases hsplit
      rw [fits_nil]
      constructor
      · intro ⟨htexts, hsubject⟩
        exact ⟨[], hsubject, htexts ▸ .nil⟩
      · intro ⟨rest, hsubject, hcovers⟩
        cases hcovers
        exact ⟨rfl, hsubject⟩
  | cons c pattern ih =>
      obtain ⟨next, later, hlater⟩ : ∃ next later, Text.splitOn '*' pattern = next :: later :=
        ⟨_, _, rfl⟩
      rw [Text.splitOn_cons, hlater] at hsplit
      split at hsplit
      · rename_i hc
        cases hsplit
        rw [hc, fits_cons_star]
        constructor
        · intro ⟨text, rest, others, htexts, hsubject, hnonempty, honeLine, hfits⟩
          obtain ⟨rest', hrest, hcovers⟩ := (ih hlater).mp hfits
          subst htexts hsubject hrest
          exact ⟨_, rfl, .cons hnonempty honeLine next hcovers⟩
        · intro ⟨rest, hsubject, hcovers⟩
          cases hcovers with
          | cons hnonempty honeLine literal hrest =>
              exact ⟨_, _, _, rfl, hsubject, hnonempty, honeLine, (ih hlater).mpr ⟨_, rfl, hrest⟩⟩
      · rename_i hc
        cases hsplit
        rw [fits_cons_of_ne hc]
        constructor
        · intro ⟨rest, hsubject, hfits⟩
          obtain ⟨rest', hrest, hcovers⟩ := (ih hlater).mp hfits
          exact ⟨rest', by rw [hsubject, hrest]; rfl, hcovers⟩
        · intro ⟨rest, hsubject, hcovers⟩
          exact ⟨next ++ rest, hsubject, (ih hlater).mpr ⟨rest, rfl, hcovers⟩⟩

theorem covers_of_captureRest? {literals texts : List (List Char)} {subject : List Char}
    (h : captureRest? literals subject = some texts) : Covers literals texts subject := by
  induction literals generalizing subject texts with
  | nil =>
      cases subject with
      | nil =>
          cases h
          exact .nil
      | cons c rest => cases h
  | cons literal literals ih =>
      obtain ⟨parts, hparts, hfound⟩ := List.exists_of_findSome?_eq_some h
      obtain ⟨later, hlater, htexts⟩ := Option.map_eq_some_iff.mp hfound
      obtain ⟨rest, hafter, hrest⟩ := Option.bind_eq_some_iff.mp hlater
      obtain ⟨hsubject, hnonempty, honeLine⟩ := mem_beginnings.mp hparts
      rw [hsubject, Text.eq_append_of_after? hafter, ← htexts]
      exact .cons hnonempty honeLine literal (ih hrest)

theorem findSome?_of_pairwise {Item Result : Type} {before : Item → Item → Prop}
    (result? : Item → Option Result) {items : List Item} (h : items.Pairwise before) {item : Item}
    (hitem : item ∈ items) {result : Result} (hresult : result? item = some result) :
    ∃ first found, items.findSome? result? = some found ∧ result? first = some found ∧
      (first = item ∨ before first item) := by
  induction items with
  | nil => cases hitem
  | cons head tail ih =>
      obtain ⟨hhead, htail⟩ := List.pairwise_cons.mp h
      rw [List.findSome?_cons]
      cases hfound : result? head with
      | some found =>
          refine ⟨head, found, rfl, hfound, ?_⟩
          rcases List.mem_cons.mp hitem with hitem | hitem
          · exact .inl hitem.symm
          · exact .inr (hhead item hitem)
      | none =>
          rcases List.mem_cons.mp hitem with hitem | hitem
          · rw [hitem, hfound] at hresult
            cases hresult
          · exact ih htail hitem

/-- The first beginning that leads on is the longest that does. -/
theorem exists_captureRest?_ge {literals texts : List (List Char)} {subject : List Char}
    (h : Covers literals texts subject) :
    ∃ found, captureRest? literals subject = some found ∧
      texts.map List.length ≤ found.map List.length := by
  induction h with
  | nil => exact ⟨[], rfl, le_refl _⟩
  | @cons literals texts rest text hnonempty honeLine literal hrest ih =>
      obtain ⟨later, hlater, hle⟩ := ih
      have hmem := mem_beginnings_append hnonempty honeLine (literal ++ rest)
      have hleads : ((Text.after? literal (literal ++ rest)).bind (captureRest? literals)).map
          (text :: ·) = some (text :: later) := by
        rw [Text.after?_append, Option.bind_some, hlater, Option.map_some]
      obtain ⟨first, found, hfound, hfirst, hplace⟩ := findSome?_of_pairwise
        (fun parts =>
          ((Text.after? literal parts.2).bind (captureRest? literals)).map (parts.1 :: ·))
        (pairwise_beginnings _) hmem hleads
      refine ⟨found, hfound, ?_⟩
      rcases hplace with rfl | hlonger
      · cases hleads.symm.trans hfirst
        exact List.cons_le_cons text.length hle
      · obtain ⟨others, -, rfl⟩ := Option.map_eq_some_iff.mp hfirst
        exact le_of_lt (List.Lex.rel hlonger)

theorem Covers.eq_of_map_length_eq {literals texts others : List (List Char)} {subject : List Char}
    (h : Covers literals texts subject) (hothers : Covers literals others subject)
    (hlength : texts.map List.length = others.map List.length) : texts = others := by
  induction literals generalizing texts others subject with
  | nil =>
      cases h
      cases hothers
      rfl
  | cons literal literals ih =>
      cases h with
      | @cons _ texts rest text _ _ _ hrest =>
          generalize hsubject : text ++ (literal ++ rest) = subject at hothers
          cases hothers with
          | @cons _ others rest' other _ _ _ hrest' =>
              obtain ⟨hhead, htail⟩ := List.cons.inj hlength
              obtain ⟨rfl, hafter⟩ := List.append_inj hsubject hhead
              cases List.append_cancel_left hafter
              rw [ih hrest hrest' htail]

section Captures

variable {pattern subject : List Char} {texts : List (List Char)}

theorem exists_captures?_eq (pattern : List Char) :
    ∃ first literals, Text.splitOn '*' pattern = first :: literals ∧
      ∀ subject, captures? pattern subject =
        (Text.after? first subject).bind (captureRest? literals) :=
  ⟨_, _, rfl, fun _ => rfl⟩

theorem fits_of_captures? (h : captures? pattern subject = some texts) :
    Fits pattern texts subject := by
  obtain ⟨first, literals, hsplit, heq⟩ := exists_captures?_eq pattern
  rw [heq] at h
  obtain ⟨rest, hafter, hrest⟩ := Option.bind_eq_some_iff.mp h
  exact (fits_iff_covers hsplit).mpr
    ⟨rest, Text.eq_append_of_after? hafter, covers_of_captureRest? hrest⟩

theorem exists_captures?_ge (h : Fits pattern texts subject) :
    ∃ found, captures? pattern subject = some found ∧
      texts.map List.length ≤ found.map List.length := by
  obtain ⟨first, literals, hsplit, heq⟩ := exists_captures?_eq pattern
  obtain ⟨rest, hsubject, hcovers⟩ := (fits_iff_covers hsplit).mp h
  rw [heq, hsubject, Text.after?_append, Option.bind_some]
  exact exists_captureRest?_ge hcovers

theorem Fits.eq_of_map_length_eq {others : List (List Char)} (h : Fits pattern texts subject)
    (hothers : Fits pattern others subject)
    (hlength : texts.map List.length = others.map List.length) : texts = others := by
  obtain ⟨first, literals, hsplit, -⟩ := exists_captures?_eq pattern
  obtain ⟨rest, hsubject, hcovers⟩ := (fits_iff_covers hsplit).mp h
  obtain ⟨rest', hsubject', hcovers'⟩ := (fits_iff_covers hsplit).mp hothers
  cases List.append_cancel_left (hsubject.symm.trans hsubject')
  exact hcovers.eq_of_map_length_eq hcovers' hlength

theorem captures?_eq_none_iff :
    captures? pattern subject = none ↔ ∀ texts, ¬Fits pattern texts subject := by
  constructor
  · intro hnone texts hfits
    obtain ⟨found, hfound, -⟩ := exists_captures?_ge hfits
    cases hnone.symm.trans hfound
  · intro hfits
    cases hcaptures : captures? pattern subject with
    | none => rfl
    | some texts => exact (hfits texts (fits_of_captures? hcaptures)).elim

theorem fitsGreedily_of_captures? (h : captures? pattern subject = some texts) :
    FitsGreedily pattern texts subject := by
  refine ⟨fits_of_captures? h, ?_⟩
  intro others hothers
  obtain ⟨found, hfound, hle⟩ := exists_captures?_ge hothers
  cases h.symm.trans hfound
  exact hle

theorem captures?_eq_some_iff :
    captures? pattern subject = some texts ↔ FitsGreedily pattern texts subject := by
  constructor
  · exact fitsGreedily_of_captures?
  · intro h
    obtain ⟨found, hfound, hle⟩ := exists_captures?_ge h.fits
    have hgreedy := fitsGreedily_of_captures? hfound
    have hlength := le_antisymm hle (h.greatest found hgreedy.fits)
    rw [hfound, h.fits.eq_of_map_length_eq hgreedy.fits hlength]

end Captures

theorem Matcher.texts?_eq_some_iff {matcher : Matcher} {subject : String} {texts : List String} :
    matcher.texts? subject = some texts ↔
      matcher.captures? subject.toList = some (texts.map String.toList) := by
  rw [texts?, Option.map_eq_some_iff]
  constructor
  · intro ⟨parts, hparts, htexts⟩
    rw [hparts, ← htexts, List.map_map]
    simp
  · intro h
    exact ⟨_, h, by simp⟩

namespace Cache

/-- Each matcher stands under the pattern that it was made from. -/
def IsSound (cache : Cache) : Prop :=
  ∀ pattern matcher, cache.matchers.get? pattern = some matcher →
    matcher = .ofPattern pattern.toList

theorem isSound_empty : empty.IsSound := by
  intro pattern matcher h
  cases h

theorem IsSound.lookup_fst {cache : Cache} (h : cache.IsSound) (pattern : String) :
    (cache.lookup pattern).1 = (Matcher.ofPattern pattern.toList).texts? := by
  rw [lookup]
  cases hget : cache.matchers.get? pattern with
  | none => rfl
  | some matcher => rw [h pattern matcher hget]

theorem IsSound.lookup_snd {cache : Cache} (h : cache.IsSound) (pattern : String) :
    (cache.lookup pattern).2.IsSound := by
  rw [lookup]
  cases hget : cache.matchers.get? pattern with
  | some matcher => exact h
  | none =>
      intro other matcher hother
      rw [Dictionary.get?_insert] at hother
      split at hother
      · rename_i heq
        cases hother
        rw [heq]
      · exact h other matcher hother

def afterLookups (patterns : List String) : Cache :=
  patterns.foldl (fun cache pattern => (cache.lookup pattern).2) empty

theorem isSound_afterLookups (patterns : List String) : (afterLookups patterns).IsSound := by
  have hrun (cache : Cache) (h : cache.IsSound) :
      (patterns.foldl (fun cache pattern => (cache.lookup pattern).2) cache).IsSound := by
    induction patterns generalizing cache with
    | nil => exact h
    | cons pattern patterns ih => exact ih _ (h.lookup_snd pattern)
  exact hrun empty isSound_empty

/-- After any lookups, a pattern is matched by the texts that fit it, those with the greatest
lengths if there are several, and a utility with this pattern works with these texts. -/
theorem lookup_captures_greedily (earlier : List String) (pattern : String) :
    (∀ subject texts, ((afterLookups earlier).lookup pattern).1 subject = some texts ↔
      FitsGreedily pattern.toList (texts.map String.toList) subject.toList) ∧
    (∀ subject, ((afterLookups earlier).lookup pattern).1 subject = none ↔
      ∀ texts, ¬Fits pattern.toList texts subject.toList) ∧
    ∀ declarations nested root text fraction,
      Custom.captures? ⟨pattern, declarations, nested⟩ root (.named text fraction) =
        (((afterLookups earlier).lookup pattern).1 (root ++ "-" ++ text)).map fun texts =>
          ⟨texts, none⟩ := by
  rw [(isSound_afterLookups earlier).lookup_fst]
  refine ⟨?_, ?_, ?_⟩
  · intro subject texts
    rw [← captures?_eq_some_iff]
    exact Matcher.texts?_eq_some_iff
  · intro subject
    rw [← captures?_eq_none_iff]
    exact Option.map_eq_none_iff
  · intro declarations nested root text fraction
    rw [Custom.captures?, Matcher.texts?, Option.map_map]
    rfl

end Cache

end AtomicCss.Utility.Wildcard
