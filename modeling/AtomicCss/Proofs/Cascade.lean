import AtomicCss.Proofs.Merging
import Mathlib.Data.List.Pairwise

/-!
The cascade within one declaration block. A declaration sets its own property and, through the
table of shorthands, every longhand below it; the last one wins, important ones first.
-/

namespace AtomicCss.Sheet

inductive Covers : String → String → Prop
  | self (property : String) : Covers property property
  | longhand {shorthand inner property : String} (hinner : inner ∈ longhandsOf shorthand)
      (hcovers : Covers inner property) : Covers shorthand property

theorem covers_iff {name property : String} :
    Covers name property ↔ property = name ∨ property ∈ longhandsOf name := by
  constructor
  · intro h
    induction h with
    | self property => exact .inl rfl
    | longhand hinner _ ih =>
        rcases ih with rfl | hproperty
        · exact .inr hinner
        · exact .inr (longhandsOf_trans hinner hproperty)
  · rintro (rfl | hproperty)
    · exact .self property
    · exact .longhand hproperty (.self property)

instance (name property : String) : Decidable (Covers name property) :=
  decidable_of_iff _ covers_iff.symm

def covering (property : String) (declarations : List Declaration) : List Declaration :=
  declarations.filter fun declaration => decide (Covers declaration.property property)

def importantCovering (property : String) (declarations : List Declaration) :
    List Declaration :=
  (covering property declarations).filter (·.important)

/-- The declaration that decides a property, in the order given. -/
def effect (property : String) (declarations : List Declaration) : Option Declaration :=
  (importantCovering property declarations).getLast?.or
    (covering property declarations).getLast?

theorem mem_covering {property : String} {declarations : List Declaration}
    {declaration : Declaration} :
    declaration ∈ covering property declarations ↔
      declaration ∈ declarations ∧ Covers declaration.property property := by
  simp [covering]

theorem mem_importantCovering {property : String} {declarations : List Declaration}
    {declaration : Declaration} :
    declaration ∈ importantCovering property declarations ↔
      (declaration ∈ declarations ∧ Covers declaration.property property) ∧
        declaration.important = true := by
  simp [importantCovering, mem_covering]

theorem effect_eq_none_iff {property : String} {declarations : List Declaration} :
    effect property declarations = none ↔
      ∀ declaration ∈ declarations, ¬ Covers declaration.property property := by
  rw [effect, Option.or_eq_none_iff, List.getLast?_eq_none_iff, List.getLast?_eq_none_iff]
  constructor
  · rintro ⟨-, hnone⟩ declaration hmem hcovers
    have hcovering := mem_covering.mpr ⟨hmem, hcovers⟩
    rw [hnone] at hcovering
    cases hcovering
  · intro h
    have hnone : covering property declarations = [] := by
      rw [covering, List.filter_eq_nil_iff]
      intro declaration hmem
      simpa using h declaration hmem
    exact ⟨by rw [importantCovering, hnone, List.filter_nil], hnone⟩

theorem mem_of_effect_eq_some {property : String} {declarations : List Declaration}
    {winner : Declaration} (h : effect property declarations = some winner) :
    winner ∈ declarations := by
  rw [effect, Option.or_eq_some_iff] at h
  rcases h with himportant | ⟨-, hlast⟩
  · exact (mem_importantCovering.mp (List.mem_of_getLast? himportant)).1.1
  · exact (mem_covering.mp (List.mem_of_getLast? hlast)).1

/-! Adding a declaration has the effect of writing it last. -/

theorem effect_append_of_covers {property : String} {declarations : List Declaration}
    {declaration : Declaration} (h : Covers declaration.property property) :
    effect property (declarations ++ [declaration]) =
      if declaration.important then some declaration
      else (importantCovering property declarations).getLast?.or (some declaration) := by
  cases himportant : declaration.important <;>
    simp [effect, importantCovering, covering, List.filter_append, h, himportant]

theorem effect_append_of_not_covers {property : String} {declarations : List Declaration}
    {declaration : Declaration} (h : ¬ Covers declaration.property property) :
    effect property (declarations ++ [declaration]) = effect property declarations := by
  simp [effect, importantCovering, covering, h]

theorem covering_filter_eq {property : String} {declarations : List Declaration}
    {test : Declaration → Bool}
    (h : ∀ declaration ∈ declarations, Covers declaration.property property →
      test declaration = true) :
    covering property (declarations.filter test) = covering property declarations := by
  rw [covering, covering, List.filter_filter]
  apply List.filter_congr
  intro declaration hmem
  by_cases hcovers : Covers declaration.property property
  · simp [hcovers, h declaration hmem hcovers]
  · simp [hcovers]

theorem importantCovering_filter_eq {property : String} {declarations : List Declaration}
    {test : Declaration → Bool}
    (h : ∀ declaration ∈ declarations, Covers declaration.property property →
      declaration.important = true → test declaration = true) :
    importantCovering property (declarations.filter test) =
      importantCovering property declarations := by
  simp only [importantCovering, covering, List.filter_filter]
  apply List.filter_congr
  intro declaration hmem
  by_cases hcovers : Covers declaration.property property
  · cases himportant : declaration.important
    · simp
    · simp [hcovers, h declaration hmem hcovers himportant]
  · simp [hcovers]

theorem effect_addLast_smart_of_not_covers {kept : List Declaration}
    {declaration : Declaration} {property : String}
    (hkept : Merge.Unprefixed kept)
    (hdeclaration : isVendorPrefixed declaration.property = false)
    (h : ¬ Covers declaration.property property) :
    effect property (Merge.addLast .smart kept declaration) = effect property kept := by
  have hevicted : covering property (Merge.evictLonghands kept declaration) =
      covering property kept := by
    rw [Merge.evictLonghands_eq hkept hdeclaration]
    apply covering_filter_eq
    intro earlier _ hcovers
    have hlonghand : earlier.property ∉ longhandsOf declaration.property :=
      fun hlonghand => h (.longhand hlonghand hcovers)
    simp [hlonghand]
  rcases Merge.addLast_smart_cases kept declaration with ⟨-, heq⟩ | ⟨-, heq⟩
  · rw [heq, effect, effect, importantCovering, importantCovering, hevicted]
  · have hothers : covering property ((Merge.evictLonghands kept declaration).filter
        (·.property != declaration.property)) = covering property kept := by
      rw [covering_filter_eq, hevicted]
      intro earlier _ hcovers
      rw [bne_iff_ne]
      intro hproperty
      rw [hproperty] at hcovers
      exact h hcovers
    rw [heq, effect_append_of_not_covers h]
    rw [effect, effect, importantCovering, importantCovering, hothers]

theorem importantCovering_evictLonghands {kept : List Declaration}
    {declaration : Declaration} {property : String}
    (hplain : declaration.important = false) :
    importantCovering property (Merge.evictLonghands kept declaration) =
      importantCovering property kept := by
  rw [Merge.evictLonghands]
  apply importantCovering_filter_eq
  intro earlier _ _ himportant
  simp [Merge.prevails, himportant, hplain]

theorem effect_addLast_smart_of_covers {kept : List Declaration}
    {declaration : Declaration} {property : String}
    (h : Covers declaration.property property) :
    effect property (Merge.addLast .smart kept declaration) =
      effect property (kept ++ [declaration]) := by
  rw [effect_append_of_covers h]
  rcases Merge.addLast_smart_cases kept declaration with
    ⟨⟨earlier, hearlier, hproperty, hprevails⟩, heq⟩ | ⟨hfree, heq⟩
  · -- The declaration is dropped for an important one, which decides in both lists.
    rw [Merge.prevails, Bool.and_eq_true, Bool.not_eq_true'] at hprevails
    rw [← hproperty] at h
    have hmem : earlier ∈ importantCovering property kept :=
      mem_importantCovering.mpr ⟨⟨hearlier, h⟩, hprevails.1⟩
    rw [heq, effect, importantCovering_evictLonghands hprevails.2,
      List.getLast?_eq_some_getLast (List.ne_nil_of_mem hmem), hprevails.2]
    rfl
  · rw [heq, effect_append_of_covers h]
    cases hplain : declaration.important with
    | true => rfl
    | false =>
        have hothers : importantCovering property
            ((Merge.evictLonghands kept declaration).filter
              (·.property != declaration.property)) = importantCovering property kept := by
          rw [importantCovering_filter_eq, importantCovering_evictLonghands hplain]
          intro earlier hearlier _ himportant
          rw [bne_iff_ne]
          intro hproperty
          apply hfree earlier hearlier hproperty
          simp [Merge.prevails, himportant, hplain]
        rw [hothers]

theorem effect_addLast_smart {kept : List Declaration} {declaration : Declaration}
    (property : String) (hkept : Merge.Unprefixed kept)
    (hdeclaration : isVendorPrefixed declaration.property = false) :
    effect property (Merge.addLast .smart kept declaration) =
      effect property (kept ++ [declaration]) := by
  by_cases h : Covers declaration.property property
  · exact effect_addLast_smart_of_covers h
  · rw [effect_addLast_smart_of_not_covers hkept hdeclaration h, effect_append_of_not_covers h]

theorem getLast?_importantCovering (property : String) (declarations : List Declaration) :
    (importantCovering property declarations).getLast? =
      (effect property declarations).filter (·.important) :=
  Merge.getLast?_filter_important (covering property declarations)

theorem effect_append_congr {property : String} {first second : List Declaration}
    (declaration : Declaration) (h : effect property first = effect property second) :
    effect property (first ++ [declaration]) = effect property (second ++ [declaration]) := by
  by_cases hcovers : Covers declaration.property property
  · rw [effect_append_of_covers hcovers, effect_append_of_covers hcovers,
      getLast?_importantCovering, getLast?_importantCovering, h]
  · rw [effect_append_of_not_covers hcovers, effect_append_of_not_covers hcovers, h]

theorem effect_foldl_addLast_smart {declarations : List Declaration} (property : String)
    (hunprefixed : Merge.Unprefixed declarations) :
    effect property (declarations.foldl (Merge.addLast .smart) []) =
      effect property declarations := by
  induction declarations using List.reverseRecOn with
  | nil => rfl
  | append_singleton declarations declaration ih =>
      obtain ⟨hdeclarations, hdeclaration⟩ :=
        Merge.unprefixed_append_singleton.mp hunprefixed
      have hkept : Merge.Unprefixed (declarations.foldl (Merge.addLast .smart) []) :=
        fun candidate hmem =>
          hdeclarations candidate (Merge.mem_of_mem_foldl_addLast_smart hmem)
      rw [List.foldl_append, List.foldl_cons, List.foldl_nil]
      rw [effect_addLast_smart property hkept hdeclaration]
      exact effect_append_congr declaration (ih hdeclarations)

/-! Where rivals stand in some order, the winner is the last of the most important ones. -/

def Outranks (before : Declaration → Declaration → Prop)
    (winner other : Declaration) : Prop :=
  Merge.prevails winner other ∨ winner.important = other.important ∧ before other winner

@[mk_iff]
structure Leads (before : Declaration → Declaration → Prop) (property : String)
    (declarations : List Declaration) (winner : Declaration) : Prop where
  mem : winner ∈ declarations
  covers : Covers winner.property property
  outranks : ∀ other ∈ declarations, Covers other.property property → other ≠ winner →
    Outranks before winner other

section Order

variable {before : Declaration → Declaration → Prop} {property : String}
  {declarations : List Declaration} {winner other : Declaration}

theorem Outranks.asymm (hasymm : ∀ first second, before first second → ¬ before second first)
    (h : Outranks before winner other) : ¬ Outranks before other winner := by
  intro hother
  rcases h with hwinner | ⟨hlevel, hafter⟩ <;> rcases hother with hother | ⟨hsame, hbefore⟩
  case inr.inr => exact hasymm _ _ hafter hbefore
  all_goals simp_all [Merge.prevails]

theorem leads_congr {others : List Declaration}
    (h : ∀ {declaration}, declaration ∈ declarations ↔ declaration ∈ others) :
    Leads before property declarations winner ↔ Leads before property others winner := by
  simp only [leads_iff, h]

theorem rel_of_getLast?_eq_some {relation : Declaration → Declaration → Prop}
    (hpairwise : declarations.Pairwise relation) (hlast : declarations.getLast? = some winner)
    (hother : other ∈ declarations) (hne : other ≠ winner) : relation other winner := by
  obtain ⟨front, rfl⟩ := List.getLast?_eq_some_iff.mp hlast
  rw [List.mem_append, List.mem_singleton] at hother
  exact (List.pairwise_append.mp hpairwise).2.2 other (hother.resolve_right hne) winner
    (by simp)

theorem leads_of_effect_eq_some
    (hordered : (covering property declarations).Pairwise fun earlier later =>
      earlier.important = later.important → before earlier later)
    (h : effect property declarations = some winner) :
    Leads before property declarations winner := by
  rw [effect, Option.or_eq_some_iff] at h
  rcases h with himportant | ⟨hnone, hlast⟩
  · have hwinner := mem_importantCovering.mp (List.mem_of_getLast? himportant)
    refine ⟨hwinner.1.1, hwinner.1.2, ?_⟩
    intro other hother hcovers hne
    cases hlevel : other.important with
    | false =>
        left
        simp [Merge.prevails, hwinner.2, hlevel]
    | true =>
        right
        have hmem := mem_importantCovering.mpr ⟨⟨hother, hcovers⟩, hlevel⟩
        have hsame : other.important = winner.important := hlevel.trans hwinner.2.symm
        have hpairwise := hordered.filter (·.important)
        exact ⟨hwinner.2.trans hlevel.symm,
          rel_of_getLast?_eq_some hpairwise himportant hmem hne hsame⟩
  · have hwinner := mem_covering.mp (List.mem_of_getLast? hlast)
    rw [List.getLast?_eq_none_iff, importantCovering, List.filter_eq_nil_iff] at hnone
    have hplain : ∀ declaration ∈ covering property declarations,
        declaration.important = false := by
      simpa using hnone
    refine ⟨hwinner.1, hwinner.2, ?_⟩
    intro other hother hcovers hne
    have hmem := mem_covering.mpr ⟨hother, hcovers⟩
    have hlevel : winner.important = other.important :=
      (hplain winner (List.mem_of_getLast? hlast)).trans (hplain other hmem).symm
    exact .inr ⟨hlevel, rel_of_getLast?_eq_some hordered hlast hmem hne hlevel.symm⟩

theorem effect_eq_some_iff_leads
    (hasymm : ∀ first second, before first second → ¬ before second first)
    (hordered : (covering property declarations).Pairwise fun earlier later =>
      earlier.important = later.important → before earlier later) :
    effect property declarations = some winner ↔
      Leads before property declarations winner := by
  refine ⟨leads_of_effect_eq_some hordered, ?_⟩
  intro hleads
  cases heffect : effect property declarations with
  | none => exact (effect_eq_none_iff.mp heffect winner hleads.mem hleads.covers).elim
  | some other =>
      have hother := leads_of_effect_eq_some hordered heffect
      by_cases hne : other = winner
      · rw [hne]
      · have hloses := hleads.outranks other hother.mem hother.covers hne
        have hwins := hother.outranks winner hleads.mem hleads.covers (Ne.symm hne)
        exact (hloses.asymm hasymm hwins).elim

theorem Leads.mem_longhandsOf
    (h : Leads before property (declarations.filter (·.property != property)) winner) :
    winner ∈ declarations ∧ property ∈ longhandsOf winner.property := by
  obtain ⟨hmem, hne⟩ := List.mem_filter.mp h.mem
  refine ⟨hmem, (covers_iff.mp h.covers).resolve_left ?_⟩
  exact Ne.symm (bne_iff_ne.mp hne)

end Order

/-! As they are kept, rivals of one level go from the widest shorthand to the property itself. As
they are written, they go by name. The two orders differ only on the property itself. -/

def Encloses (outer inner : Declaration) : Prop :=
  inner.property ∈ longhandsOf outer.property

def NamedBefore (left right : Declaration) : Prop :=
  left.property < right.property

theorem covers_nested {first second property : String} (hfirst : Covers first property)
    (hsecond : Covers second property) (hne : first ≠ second) :
    second ∈ longhandsOf first ∨ first ∈ longhandsOf second := by
  rcases covers_iff.mp hfirst with rfl | hfirst
  · rcases covers_iff.mp hsecond with rfl | hsecond
    · exact (hne rfl).elim
    · exact .inr hsecond
  · rcases covers_iff.mp hsecond with rfl | hsecond
    · exact .inl hfirst
    · exact (shorthands_nested hfirst hsecond hne).imp And.left And.left

theorem Merge.Settled.encloses {kept : List Declaration} (h : Merge.Settled kept)
    (property : String) :
    (covering property kept).Pairwise fun earlier later =>
      earlier.important = later.important → Encloses earlier later := by
  have hpairwise := (h.distinct.and h.ordered).filter
    fun declaration => decide (Covers declaration.property property)
  refine hpairwise.imp_of_mem ?_
  rintro earlier later hearlier hlater ⟨hne, hordered⟩ hlevel
  rcases covers_nested (mem_covering.mp hearlier).2 (mem_covering.mp hlater).2 hne with
    hencloses | hswap
  · exact hencloses
  · -- A longhand in front of its shorthand prevails over it, so the levels differ.
    have hprevails := hordered hswap
    simp [Merge.prevails, hlevel] at hprevails

theorem Merge.Settled.effect_eq_some_iff {kept : List Declaration} {property : String}
    {winner : Declaration} (h : Merge.Settled kept) :
    effect property kept = some winner ↔ Leads Encloses property kept winner :=
  effect_eq_some_iff_leads (fun _ _ => longhandsOf_asymm) (h.encloses property)

theorem Merge.eq_of_property_eq {kept : List Declaration} {first second : Declaration}
    (hdistinct : Merge.Distinct kept)
    (hfirst : first ∈ kept) (hsecond : second ∈ kept)
    (hproperty : first.property = second.property) : first = second := by
  have : Std.Symm fun left right : Declaration => left.property ≠ right.property :=
    ⟨fun _ _ => Ne.symm⟩
  by_contra hne
  exact hdistinct.forall hfirst hsecond hne hproperty

theorem Outranks.namedBefore {winner other : Declaration} {property : String}
    (hwinner : property ∈ longhandsOf winner.property)
    (h : Outranks Encloses winner other) : Outranks NamedBefore winner other := by
  rcases h with hprevails | ⟨hlevel, hencloses⟩
  · exact .inl hprevails
  · exact .inr ⟨hlevel, lt_of_mem_longhandsOf hencloses hwinner⟩

/-- A property's own declaration gives way to a shorthand of the same level with a later name. -/
@[mk_iff]
structure Displaces (property : String) (declarations : List Declaration)
    (own shorthand : Declaration) : Prop where
  decided : effect property declarations = some own
  own_property : own.property = property
  rest : effect property (declarations.filter (·.property != property)) = some shorthand
  level : shorthand.important = own.important
  later : property < shorthand.property

theorem Displaces.leads {kept : List Declaration} {property : String}
    {own shorthand : Declaration} (h : Displaces property kept own shorthand)
    (hsettled : Merge.Settled kept) : Leads NamedBefore property kept shorthand := by
  have hown := hsettled.effect_eq_some_iff.mp h.decided
  have hrest := (hsettled.sublist List.filter_sublist).effect_eq_some_iff.mp h.rest
  obtain ⟨hmem, hlonghand⟩ := hrest.mem_longhandsOf
  refine ⟨hmem, hrest.covers, ?_⟩
  intro other hother hcovers hdiffers
  by_cases hproperty : other.property = property
  · have hsame : other = own :=
      Merge.eq_of_property_eq hsettled.distinct hother hown.mem
        (hproperty.trans h.own_property.symm)
    rw [hsame]
    refine .inr ⟨h.level, ?_⟩
    rw [NamedBefore, h.own_property]
    exact h.later
  · have hkept : other ∈ kept.filter (·.property != property) :=
      List.mem_filter.mpr ⟨hother, bne_iff_ne.mpr hproperty⟩
    exact (hrest.outranks other hkept hcovers hdiffers).namedBefore hlonghand

theorem exists_displaces {kept : List Declaration} {property : String}
    {own other : Declaration} (hsettled : Merge.Settled kept)
    (hdecided : effect property kept = some own) (hown : own.property = property)
    (hother : other ∈ kept) (hcovers : Covers other.property property)
    (hlevel : other.important = own.important) (hlater : property < other.property) :
    ∃ shorthand, Displaces property kept own shorthand := by
  have hleads := hsettled.effect_eq_some_iff.mp hdecided
  have hne : other.property ≠ property := by
    intro hproperty
    rw [hproperty] at hlater
    exact String.lt_irrefl _ hlater
  have hkept : other ∈ kept.filter (·.property != property) :=
    List.mem_filter.mpr ⟨hother, bne_iff_ne.mpr hne⟩
  cases hrest : effect property (kept.filter (·.property != property)) with
  | none => exact (effect_eq_none_iff.mp hrest other hkept hcovers).elim
  | some shorthand =>
      have hshorthand :=
        (hsettled.sublist List.filter_sublist).effect_eq_some_iff.mp hrest
      obtain ⟨hmem, hlonghand⟩ := hshorthand.mem_longhandsOf
      by_cases hsame : other = shorthand
      · subst hsame
        exact ⟨other, hdecided, hown, hrest, hlevel, hlater⟩
      · have hdiffers : shorthand ≠ own := by
          rintro rfl
          rw [hown] at hlonghand
          exact not_mem_longhandsOf_self property hlonghand
        have hbeaten := hleads.outranks shorthand hmem hshorthand.covers hdiffers
        rcases hshorthand.outranks other hkept hcovers hsame with
          hprevails | ⟨hequal, hencloses⟩
        -- What prevails over `other` prevails over `own` too, which is on the same level.
        · simp_all [Outranks, Merge.prevails]
        · refine ⟨shorthand, hdecided, hown, hrest, hequal.trans hlevel, ?_⟩
          exact String.lt_trans hlater (lt_of_mem_longhandsOf hencloses hlonghand)

theorem leads_namedBefore_or_displaces {kept : List Declaration} {property : String}
    {winner : Declaration} (hsettled : Merge.Settled kept)
    (hlonghands : longhandsOf property = [])
    (hdecided : effect property kept = some winner) :
    Leads NamedBefore property kept winner ∨
      ∃ shorthand, Displaces property kept winner shorthand := by
  have hleads := hsettled.effect_eq_some_iff.mp hdecided
  by_cases hlater : ∃ other ∈ kept, Covers other.property property ∧
      other.important = winner.important ∧ winner.property = property ∧
      property < other.property
  · obtain ⟨other, hother, hcovers, hlevel, hown, hlater⟩ := hlater
    exact .inr (exists_displaces hsettled hdecided hown hother hcovers hlevel hlater)
  · refine .inl ⟨hleads.mem, hleads.covers, ?_⟩
    intro other hother hcovers hne
    have houtranks := hleads.outranks other hother hcovers hne
    rcases covers_iff.mp hleads.covers with hown | hlonghand
    · rcases houtranks with hprevails | ⟨hlevel, hencloses⟩
      · exact .inl hprevails
      · refine .inr ⟨hlevel, ?_⟩
        rw [NamedBefore, ← hown]
        -- Not before the property by name, the shorthand would come after it.
        by_contra hnot
        apply hlater
        refine ⟨other, hother, hcovers, hlevel.symm, hown.symm, ?_⟩
        apply String.not_le.mp
        intro hle
        rw [← String.not_le, not_not] at hnot
        have hproperty := String.le_antisymm hle hnot
        rw [Encloses, hproperty, hlonghands] at hencloses
        cases hencloses
    · exact houtranks.namedBefore hlonghand

theorem displaces_foldl_addLast_smart {declarations : List Declaration} {property : String}
    {own shorthand : Declaration} (hunprefixed : Merge.Unprefixed declarations)
    (hlonghands : longhandsOf property = []) :
    Displaces property (declarations.foldl (Merge.addLast .smart) []) own shorthand ↔
      Displaces property declarations own shorthand := by
  have hrest : Merge.Unprefixed (declarations.filter (·.property != property)) :=
    fun candidate hmem => hunprefixed candidate (List.mem_filter.mp hmem).1
  rw [displaces_iff, displaces_iff, effect_foldl_addLast_smart property hunprefixed,
    Merge.filter_foldl_addLast_smart hunprefixed hlonghands,
    effect_foldl_addLast_smart property hrest]

theorem effect_mergeDeclarations_iff_leads {declarations : List Declaration}
    {property : String} {winner : Declaration}
    (hunprefixed : Merge.Unprefixed declarations) :
    effect property (mergeDeclarations .smart declarations) = some winner ↔
      Leads NamedBefore property (declarations.foldl (Merge.addLast .smart) []) winner := by
  have hasymm : ∀ first second, NamedBefore first second → ¬ NamedBefore second first :=
    fun _ _ hlt hswap => String.lt_irrefl _ (String.lt_trans hlt hswap)
  have hsorted := (pairwise_lt_mergeDeclarations_smart hunprefixed).filter
    fun declaration => decide (Covers declaration.property property)
  have hordered : (covering property (mergeDeclarations .smart declarations)).Pairwise
      fun earlier later => earlier.important = later.important →
        NamedBefore earlier later := by
    refine hsorted.imp ?_
    intro earlier later hlt _
    exact hlt
  rw [effect_eq_some_iff_leads hasymm hordered]
  exact leads_congr (mergeDeclarations_perm .smart declarations).mem_iff

/-- Smart merging keeps what decides a property, unless the sort by name puts a shorthand after
the property's own declaration. Then that shorthand decides. -/
theorem smart_merge_cascade (declarations : List Declaration) (property : String)
    (hunprefixed : Merge.Unprefixed declarations) (hlonghands : longhandsOf property = []) :
    (effect property (mergeDeclarations .smart declarations) =
        effect property declarations ↔
      ¬ ∃ own shorthand, Displaces property declarations own shorthand) ∧
    ∀ own shorthand, Displaces property declarations own shorthand →
      effect property (mergeDeclarations .smart declarations) = some shorthand := by
  have hsettled := Merge.settled_foldl_addLast_smart hunprefixed
  have hdisplaced : ∀ own shorthand, Displaces property declarations own shorthand →
      effect property (mergeDeclarations .smart declarations) = some shorthand := by
    intro own shorthand h
    have hkept := (displaces_foldl_addLast_smart hunprefixed hlonghands).mpr h
    exact (effect_mergeDeclarations_iff_leads hunprefixed).mpr (hkept.leads hsettled)
  refine ⟨⟨?_, ?_⟩, hdisplaced⟩
  · rintro hsame ⟨own, shorthand, h⟩
    rw [hdisplaced own shorthand h, h.decided, Option.some_inj] at hsame
    have hlater := h.later
    rw [hsame, h.own_property] at hlater
    exact String.lt_irrefl _ hlater
  · intro hfree
    rw [← effect_foldl_addLast_smart property hunprefixed]
    cases hdecided : effect property (declarations.foldl (Merge.addLast .smart) []) with
    | none =>
        rw [effect_eq_none_iff] at hdecided ⊢
        intro declaration hmem
        exact hdecided declaration ((mergeDeclarations_perm .smart _).mem_iff.mp hmem)
    | some winner =>
        rcases leads_namedBefore_or_displaces hsettled hlonghands hdecided with
          hleads | ⟨shorthand, h⟩
        · exact (effect_mergeDeclarations_iff_leads hunprefixed).mpr hleads
        · have h := (displaces_foldl_addLast_smart hunprefixed hlonghands).mp h
          exact (hfree ⟨winner, shorthand, h⟩).elim

/-- An offset after the shorthand loses at the bottom and holds at the top. -/
theorem smart_merge_cascade_inset :
    let inset : Declaration := ⟨"inset", "0", false⟩
    let bottom : Declaration := ⟨"bottom", "4px", false⟩
    let top : Declaration := ⟨"top", "2px", false⟩
    let declarations := [inset, bottom, top]
    (Merge.Unprefixed declarations ∧ longhandsOf "bottom" = [] ∧ longhandsOf "top" = []) ∧
    (effect "bottom" declarations = some bottom ∧
      effect "bottom" (mergeDeclarations .smart declarations) = some inset) ∧
    effect "top" declarations = some top ∧
      effect "top" (mergeDeclarations .smart declarations) = some top := by
  intro inset bottom top declarations
  have hunprefixed : Merge.Unprefixed declarations := by
    unfold Merge.Unprefixed
    decide +kernel
  have hbottom : longhandsOf "bottom" = [] := by decide +kernel
  have htop : longhandsOf "top" = [] := by decide +kernel
  have hdisplaced : Displaces "bottom" declarations bottom inset :=
    ⟨by decide +kernel, rfl, by decide +kernel, rfl, by decide +kernel⟩
  have hfree : ¬ ∃ own shorthand, Displaces "top" declarations own shorthand := by
    rintro ⟨own, shorthand, h⟩
    have hrest : effect "top" (declarations.filter (·.property != "top")) = some inset := by
      decide +kernel
    have hlater := h.later
    rw [← Option.some.inj (hrest.symm.trans h.rest)] at hlater
    exact absurd hlater (by decide +kernel)
  have hkept : effect "top" declarations = some top := by decide +kernel
  refine ⟨⟨hunprefixed, hbottom, htop⟩, ⟨hdisplaced.decided, ?_⟩, hkept, ?_⟩
  · exact (smart_merge_cascade declarations "bottom" hunprefixed hbottom).2 bottom inset
      hdisplaced
  · rw [(smart_merge_cascade declarations "top" hunprefixed htop).1.mpr hfree]
    exact hkept

end AtomicCss.Sheet
