import AtomicCss.Proofs.NameScanning
import AtomicCss.Proofs.Reachability

/-!
Values with their names written out. One reader changes each name that starts with two dashes,
wherever it stands; another lists the names that follow a `var(`. A changed name ends where the old
one ended and makes or breaks no `var(`, so that the second reader finds the changed names in the
places of the old.
-/

namespace AtomicCss

theorem Text.takeWhile_append_stop {keeps : Char → Bool} {body tail : List Char}
    (hbody : ∀ c ∈ body, keeps c = true) (htail : ∀ c ∈ tail.head?, keeps c = false) :
    (body ++ tail).takeWhile keeps = body ∧ (body ++ tail).dropWhile keeps = tail := by
  rw [List.takeWhile_append_of_pos hbody, List.dropWhile_append_of_pos hbody]
  cases tail with
  | nil => simp
  | cons c rest => simp [htail c rfl]

theorem Text.head?_dropWhile (keeps : Char → Bool) (text : List Char) :
    ∀ c ∈ (text.dropWhile keeps).head?, keeps c = false := by
  intro c hc
  have hstop := List.head?_dropWhile_not keeps text
  rwa [Option.mem_def.mp hc] at hstop

theorem Text.suffix_append_dash_iff {word : List Char} (hword : '-' ∉ word)
    (before after : List Char) : word <:+ before ++ '-' :: after ↔ word <:+ after := by
  have hafter : after <:+ before ++ '-' :: after :=
    (List.suffix_cons '-' after).trans (List.suffix_append before _)
  constructor
  · intro h
    rcases Nat.lt_or_ge after.length word.length with hlength | hlength
    · have hdash := List.suffix_of_suffix_length_le (List.suffix_append before _) h hlength
      exact absurd (hdash.subset List.mem_cons_self) hword
    · exact List.suffix_of_suffix_length_le h hafter hlength
  · exact fun h => h.trans hafter

namespace Css

/-- A change of names into names that end in `var` only where the old names do. -/
structure IsRenaming (change : List Char → List Char) : Prop where
  dashes : ∀ body, (∀ c ∈ body, Css.isNameChar c) → ['-', '-'] <+: change body
  isNameChar : ∀ body, (∀ c ∈ body, Css.isNameChar c) → ∀ c ∈ change body, Css.isNameChar c
  ends_var : ∀ body, (∀ c ∈ body, Css.isNameChar c) →
    (['v', 'a', 'r'] <:+ change body ↔ ['v', 'a', 'r'] <:+ body)

section MapNames

variable {change : List Char → List Char} {text lead : List Char} {c : Char}

theorem mapNames_dashes (change : List Char → List Char) (rest : List Char) :
    mapNames change ('-' :: '-' :: rest) =
      change (rest.takeWhile isNameChar) ++ mapNames change (rest.dropWhile isNameChar) := by
  rw [mapNames]

theorem mapNames_cons (h : ¬['-', '-'] <+: c :: text) :
    mapNames change (c :: text) = c :: mapNames change text := by
  rw [mapNames]
  rintro rest rfl rfl
  exact h ⟨rest, rfl⟩

theorem mapNames_cons_of_ne (hc : c ≠ '-') (change : List Char → List Char) (text : List Char) :
    mapNames change (c :: text) = c :: mapNames change text := by
  apply mapNames_cons
  rintro ⟨rest, heq⟩
  cases heq
  exact hc rfl

theorem head?_mapNames (hchange : IsRenaming change) (text : List Char) :
    (mapNames change text).head? = text.head? := by
  fun_cases mapNames change text with
  | case1 => rfl
  | case2 rest =>
      obtain ⟨renamed, hrenamed⟩ :=
        hchange.dashes (rest.takeWhile isNameChar) fun c hc => List.mem_takeWhile_imp hc
      rw [← hrenamed]
      rfl
  | case3 c rest _ => rfl

/-- Text without dashes stands in front of the changed text where it stands in front of the text. -/
theorem after?_mapNames (hchange : IsRenaming change) (hlead : '-' ∉ lead) (text : List Char) :
    Text.after? lead (mapNames change text) =
      (Text.after? lead text).map (mapNames change) := by
  induction lead generalizing text with
  | nil => rfl
  | cons d lead ih =>
      obtain ⟨hd, hlead⟩ := List.ne_and_not_mem_of_not_mem_cons hlead
      cases text with
      | nil =>
          rw [mapNames]
          rfl
      | cons c rest =>
          by_cases hc : c = '-'
          · subst hc
            have hhead := head?_mapNames hchange ('-' :: rest)
            obtain ⟨renamed, hrenamed⟩ := List.head?_eq_some_iff.mp hhead
            rw [hrenamed, Text.after?, Text.after?, if_neg hd.symm, if_neg hd.symm]
            rfl
          · rw [mapNames_cons_of_ne hc, Text.after?, Text.after?]
            split
            · exact ih hlead rest
            · rfl

theorem trimStart_mapNames (hchange : IsRenaming change) (text : List Char) :
    Text.trimStart (mapNames change text) = mapNames change (Text.trimStart text) := by
  induction text with
  | nil => rw [mapNames, Text.trimStart_nil, mapNames]
  | cons c rest ih =>
      by_cases hblank : Text.isBlank c = true
      · have hc : c ≠ '-' := by
          rintro rfl
          exact absurd hblank (by decide)
        have htrim : Text.trimStart (c :: rest) = Text.trimStart rest :=
          List.dropWhile_cons_of_pos hblank
        rw [mapNames_cons_of_ne hc, htrim, ← ih]
        exact List.dropWhile_cons_of_pos hblank
      · have htrim : Text.trimStart (c :: rest) = c :: rest := List.dropWhile_cons_of_neg hblank
        have hhead := head?_mapNames hchange (c :: rest)
        rw [htrim]
        apply Theme.dropWhile_eq_self
        intro d hd
        cases hhead.symm.trans hd
        exact Bool.eq_false_iff.mpr hblank

theorem dashes_of_mapNames (hchange : IsRenaming change)
    (h : ['-', '-'] <+: mapNames change text) : ['-', '-'] <+: text := by
  cases text with
  | nil =>
      rw [mapNames] at h
      exact h
  | cons c rest =>
      by_contra hdashes
      rw [mapNames_cons hdashes, List.cons_prefix_cons] at h
      obtain ⟨rfl, later, hlater⟩ := h
      have hhead := head?_mapNames hchange rest
      rw [← hlater] at hhead
      obtain ⟨others, rfl⟩ := List.head?_eq_some_iff.mp hhead.symm
      exact hdashes ⟨others, rfl⟩

end MapNames

end Css

namespace Stylesheet

open Css

def renamed (change : List Char → List Char) (name : String) : String :=
  String.ofList (change (name.toList.drop 2))

theorem endsName_eq_false {c : Char} (h : isNameChar c) : endsName c = false := by
  by_contra hends
  simp only [endsName, Bool.not_eq_false, Bool.or_eq_true, beq_iff_eq] at hends
  rcases hends with (rfl | rfl) | hblank
  · exact absurd h (by decide)
  · exact absurd h (by decide)
  · rw [Theme.isBlank_eq_false_of_isNameChar h] at hblank
    cases hblank

section NameAfter

variable {change : List Char → List Char} {text body tail : List Char}

theorem nameAfter_of_dashes (htext : Text.trimStart text = '-' :: '-' :: (body ++ tail))
    (hbody : ∀ c ∈ body, endsName c = false) (htail : ∀ c ∈ tail.head?, endsName c = true) :
    nameAfter text = some (String.ofList ('-' :: '-' :: body)) := by
  have hbody' : ∀ c ∈ '-' :: '-' :: body, (!endsName c) = true := by
    simpa using ⟨by decide, hbody⟩
  have htail' : ∀ c ∈ tail.head?, (!endsName c) = false := by
    simpa using htail
  have hname : ('-' :: '-' :: (body ++ tail)).takeWhile (!endsName ·) = '-' :: '-' :: body :=
    (Text.takeWhile_append_stop hbody' htail').1
  simp only [nameAfter, htext, hname]
  exact if_pos rfl

theorem nameAfter_eq_none_iff : nameAfter text = none ↔ ¬['-', '-'] <+: Text.trimStart text := by
  rw [nameAfter]
  simp [Text.startsWith]

theorem exists_of_nameAfter {name : String} (h : nameAfter text = some name) :
    ∃ body tail, Text.trimStart text = '-' :: '-' :: (body ++ tail) ∧
      (∀ c ∈ body, endsName c = false) ∧ (∀ c ∈ tail.head?, endsName c = true) ∧
      name = String.ofList ('-' :: '-' :: body) := by
  have hdashes : ['-', '-'] <+: Text.trimStart text := by
    by_contra hnone
    rw [nameAfter_eq_none_iff.mpr hnone] at h
    cases h
  obtain ⟨rest, hrest⟩ := hdashes
  have hbody : ∀ c ∈ rest.takeWhile (!endsName ·), endsName c = false := by
    intro c hc
    simpa using List.mem_takeWhile_imp hc
  have htail : ∀ c ∈ (rest.dropWhile (!endsName ·)).head?, endsName c = true := by
    intro c hc
    simpa using Text.head?_dropWhile _ _ c hc
  have htext : Text.trimStart text =
      '-' :: '-' :: (rest.takeWhile (!endsName ·) ++ rest.dropWhile (!endsName ·)) := by
    rw [List.takeWhile_append_dropWhile]
    exact hrest.symm
  rw [nameAfter_of_dashes htext hbody htail] at h
  exact ⟨_, _, htext, hbody, htail, (Option.some.inj h).symm⟩

theorem nameAfter_mapNames (hchange : IsRenaming change)
    (hnames : ∀ name ∈ nameAfter text, ∀ c ∈ name.toList, isNameChar c) :
    nameAfter (mapNames change text) = (nameAfter text).map (renamed change) := by
  cases hname : nameAfter text with
  | none =>
      rw [Option.map_none, nameAfter_eq_none_iff, trimStart_mapNames hchange]
      rw [nameAfter_eq_none_iff] at hname
      exact fun hdashes => hname (dashes_of_mapNames hchange hdashes)
  | some name =>
      obtain ⟨body, tail, htext, -, htail, rfl⟩ := exists_of_nameAfter hname
      have hbody : ∀ c ∈ body, isNameChar c := by
        intro c hc
        apply hnames _ hname
        simp [hc]
      have hstop : ∀ c ∈ tail.head?, isNameChar c = false := by
        intro c hc
        by_contra hname
        have hends := endsName_eq_false (Bool.not_eq_false _ ▸ hname)
        rw [htail c hc] at hends
        cases hends
      obtain ⟨later, hlater⟩ := hchange.dashes body hbody
      have hword := Text.takeWhile_append_stop hbody hstop
      have hmapped : Text.trimStart (mapNames change text) =
          '-' :: '-' :: (later ++ mapNames change tail) := by
        rw [trimStart_mapNames hchange, htext, mapNames_dashes, hword.1, hword.2, ← hlater]
        rfl
      have hrenamed : renamed change (String.ofList ('-' :: '-' :: body)) =
          String.ofList ('-' :: '-' :: later) := by
        rw [renamed, String.toList_ofList]
        exact congrArg String.ofList hlater.symm
      rw [Option.map_some, hrenamed]
      apply nameAfter_of_dashes hmapped
      · intro c hc
        apply endsName_eq_false
        apply hchange.isNameChar body hbody
        rw [← hlater]
        exact List.mem_append_right _ hc
      · rw [head?_mapNames hchange]
        exact htail

end NameAfter

section ReferencesIn

variable {change : List Char → List Char} {text lead word stop tail : List Char} {c : Char}

theorem referencesIn_cons (c : Char) (rest : List Char) :
    referencesIn (c :: rest) =
      ((Text.after? "var(".toList (c :: rest)).bind nameAfter).toList ++ referencesIn rest := by
  rw [referencesIn]
  split
  · rename_i opened hopened
    rw [hopened]
    rfl
  · rename_i hnone
    rw [hnone]
    rfl

theorem after?_append_stop (hlead : ∀ c ∈ lead, isNameChar c) (hword : ∀ c ∈ word, isNameChar c)
    (htail : ∀ c ∈ tail.head?, isNameChar c = false) (hc : isNameChar c = false) :
    Text.after? (lead ++ c :: stop) (word ++ tail) =
      if word = lead then Text.after? (c :: stop) tail else none := by
  induction lead generalizing word with
  | nil =>
      cases word with
      | nil => rfl
      | cons d word =>
          have hne : c ≠ d := by
            rintro rfl
            exact Bool.false_ne_true (hc.symm.trans (hword c List.mem_cons_self))
          rw [if_neg (List.cons_ne_nil d word)]
          exact if_neg hne
  | cons l lead ih =>
      rw [List.forall_mem_cons] at hlead
      cases word with
      | nil =>
          rw [if_neg (List.cons_ne_nil l lead).symm]
          cases tail with
          | nil => rfl
          | cons d tail =>
              have hne : l ≠ d := by
                rintro rfl
                exact Bool.false_ne_true ((htail l rfl).symm.trans hlead.1)
              exact if_neg hne
      | cons d word =>
          rw [List.forall_mem_cons] at hword
          simp only [List.cons_append, Text.after?, ih hlead.2 hword.2, List.cons.injEq]
          grind

theorem referencesIn_word (hword : ∀ c ∈ word, isNameChar c)
    (htail : ∀ c ∈ tail.head?, isNameChar c = false) :
    referencesIn (word ++ tail) =
      (if ['v', 'a', 'r'] <:+ word then ((Text.after? ['('] tail).bind nameAfter).toList else []) ++
        referencesIn tail := by
  induction word with
  | nil => simp
  | cons c word ih =>
      have hvar : Text.after? "var(".toList (c :: (word ++ tail)) =
          if c :: word = ['v', 'a', 'r'] then Text.after? ['('] tail else none := by
        have hlead : "var(".toList = ['v', 'a', 'r'] ++ ['('] := rfl
        have hletters : ∀ c ∈ ['v', 'a', 'r'], isNameChar c := by
          simp [isNameChar]
        rw [hlead, ← List.cons_append]
        exact after?_append_stop hletters hword htail (by decide)
      rw [List.forall_mem_cons] at hword
      rw [List.cons_append, referencesIn_cons, ih hword.2, hvar]
      by_cases hend : c :: word = ['v', 'a', 'r']
      · cases hend
        simp [List.suffix_cons_iff]
      · have hsuffix : ['v', 'a', 'r'] <:+ c :: word ↔ ['v', 'a', 'r'] <:+ word := by
          rw [List.suffix_cons_iff]
          exact or_iff_right (Ne.symm hend)
        simp [hend, hsuffix]

theorem bind_nameAfter_mapNames (hchange : IsRenaming change) (hlead : '-' ∉ lead)
    (hnames : ∀ name ∈ (Text.after? lead text).bind nameAfter, ∀ c ∈ name.toList, isNameChar c) :
    (Text.after? lead (mapNames change text)).bind nameAfter =
      ((Text.after? lead text).bind nameAfter).map (renamed change) := by
  rw [after?_mapNames hchange hlead]
  cases hopened : Text.after? lead text with
  | none => rfl
  | some opened =>
      rw [hopened] at hnames
      exact nameAfter_mapNames hchange hnames

/-- One name further: both readers leave it where it ends, and a `var` at its end opens a reference
before the change where it does so after it. -/
theorem referencesIn_change_append (hchange : IsRenaming change)
    (hword : ∀ c ∈ word, isNameChar c) (htail : ∀ c ∈ tail.head?, isNameChar c = false)
    (hnames : ∀ name ∈ referencesIn ('-' :: '-' :: word ++ tail), ∀ c ∈ name.toList, isNameChar c)
    (ih : (∀ name ∈ referencesIn tail, ∀ c ∈ name.toList, isNameChar c) →
      referencesIn (mapNames change tail) = (referencesIn tail).map (renamed change)) :
    referencesIn (change word ++ mapNames change tail) =
      (referencesIn ('-' :: '-' :: word ++ tail)).map (renamed change) := by
  have hdashed : ∀ c ∈ '-' :: '-' :: word, isNameChar c := by
    simpa using ⟨by decide, hword⟩
  have htail' : ∀ c ∈ (mapNames change tail).head?, isNameChar c = false := by
    rwa [head?_mapNames hchange]
  have hends : ['v', 'a', 'r'] <:+ '-' :: '-' :: word ↔ ['v', 'a', 'r'] <:+ change word :=
    (Text.suffix_append_dash_iff (by decide) ['-'] word).trans (hchange.ends_var word hword).symm
  rw [referencesIn_word hdashed htail] at hnames ⊢
  simp only [List.mem_append, hends] at hnames
  rw [referencesIn_word (hchange.isNameChar word hword) htail',
    ih fun name hname => hnames name (.inr hname), List.map_append]
  simp only [hends]
  split
  · rename_i hvar
    simp only [if_pos hvar, Option.mem_toList] at hnames
    rw [bind_nameAfter_mapNames hchange (by decide) fun name hname => hnames name (.inl hname),
      Option.toList_map]
  · rfl

theorem referencesIn_mapNames (hchange : IsRenaming change)
    (hnames : ∀ name ∈ referencesIn text, ∀ c ∈ name.toList, isNameChar c) :
    referencesIn (mapNames change text) = (referencesIn text).map (renamed change) := by
  induction text using mapNames.induct with
  | case1 =>
      rw [mapNames]
      rfl
  | case2 rest ih =>
      have hsplit : '-' :: '-' :: rest =
          '-' :: '-' :: rest.takeWhile isNameChar ++ rest.dropWhile isNameChar := by
        rw [List.cons_append, List.cons_append, List.takeWhile_append_dropWhile]
      rw [mapNames_dashes]
      rw [hsplit] at hnames ⊢
      exact referencesIn_change_append hchange (fun c hc => List.mem_takeWhile_imp hc)
        (Text.head?_dropWhile isNameChar rest) hnames ih
  | case3 c rest hdashes ih =>
      have hmapped : mapNames change (c :: rest) = c :: mapNames change rest := by
        rw [mapNames]
        exact hdashes
      rw [referencesIn_cons] at hnames ⊢
      simp only [List.mem_append, Option.mem_toList] at hnames
      rw [hmapped, referencesIn_cons, ← hmapped, ih fun name hname => hnames name (.inr hname),
        bind_nameAfter_mapNames hchange (by decide) fun name hname => hnames name (.inl hname),
        List.map_append, Option.toList_map]

theorem dashes_of_mem_referencesIn {name : String} (h : name ∈ referencesIn text) :
    ∃ body, name = "--" ++ String.ofList body := by
  induction text with
  | nil => cases h
  | cons c rest ih =>
      rw [referencesIn_cons, List.mem_append, Option.mem_toList, Option.bind_eq_some_iff] at h
      rcases h with ⟨opened, -, hname⟩ | h
      · obtain ⟨body, tail, -, -, -, rfl⟩ := exists_of_nameAfter hname
        exact ⟨body, String.toList_inj.mp (by simp)⟩
      · exact ih h

end ReferencesIn

end Stylesheet

namespace Theme

variable {theme : Theme} {body : List Char} {value : String}

/-- How a value of this theme writes the name of this text after the dashes. -/
def writeName (theme : Theme) (body : List Char) : List Char :=
  let name := "--" ++ String.ofList body
  if theme.contains name then (theme.varName name).toList else name.toList

theorem dashes_lead (theme : Theme) : ['-', '-'] <+: theme.lead := by
  rw [lead]
  cases theme.namePrefix with
  | none => exact List.prefix_rfl
  | some namePrefix => exact ⟨namePrefix.toList ++ ['-'], (List.append_assoc _ _ _).symm⟩

theorem exists_writeName_eq (hplain : theme.HasPlainPrefix)
    (hbody : ∀ c ∈ body, Css.isNameChar c) :
    ∃ lead, theme.writeName body = lead ++ body ∧ ['-', '-'] <+: lead ∧
      lead.getLast? = some '-' ∧ ∀ c ∈ lead, Css.isNameChar c := by
  rw [writeName]
  split
  · refine ⟨theme.lead, ?_, dashes_lead theme, getLast?_lead theme, ?_⟩
    · rw [toList_varName_eq, keyBody_dashed hbody]
    · exact fun c hc => hplain.isNameChar hc
  · refine ⟨['-', '-'], ?_, List.prefix_rfl, rfl, isNameChar_dashes⟩
    simp

theorem isRenaming_writeName (hplain : theme.HasPlainPrefix) : Css.IsRenaming theme.writeName where
  dashes body hbody := by
    obtain ⟨lead, heq, hdashes, -, -⟩ := exists_writeName_eq hplain hbody
    rw [heq]
    exact hdashes.trans (List.prefix_append _ _)
  isNameChar body hbody := by
    obtain ⟨lead, heq, -, -, hlead⟩ := exists_writeName_eq hplain hbody
    rw [heq]
    exact List.forall_mem_append.mpr ⟨hlead, hbody⟩
  ends_var body hbody := by
    obtain ⟨lead, heq, -, hlast, -⟩ := exists_writeName_eq hplain hbody
    obtain ⟨before, rfl⟩ := List.getLast?_eq_some_iff.mp hlast
    rw [heq, List.append_assoc]
    exact Text.suffix_append_dash_iff (by decide) before body

theorem keyOf_dashed (hbody : ∀ c ∈ body, Css.isNameChar c) :
    keyOf ("--" ++ String.ofList body) = "--" ++ String.ofList body := by
  rw [← dashed_keyBody, keyBody_dashed hbody]

theorem contains_iff_mem_keys {name : String} (hkey : keyOf name = name) :
    theme.contains name = true ↔ name ∈ theme.values.keys := by
  constructor
  · intro h
    have hmem := Dictionary.mem_keys_of_contains h
    rwa [hkey] at hmem
  · intro h
    have hcontains := Dictionary.contains_of_mem_keys h
    rwa [← hkey] at hcontains

theorem renamed_writeName (hbody : ∀ c ∈ body, Css.isNameChar c) :
    let name := "--" ++ String.ofList body
    Stylesheet.renamed theme.writeName name =
      if name ∈ theme.values.keys then theme.varName name else name := by
  intro name
  have hdrop : name.toList.drop 2 = body := by
    simp [name]
  have hcontains : theme.contains name = true ↔ name ∈ theme.values.keys :=
    contains_iff_mem_keys (keyOf_dashed hbody)
  rw [Stylesheet.renamed, hdrop, writeName]
  simp only [← hcontains]
  split
  · exact String.ofList_toList
  · exact String.ofList_toList

theorem references_prefixReferences (hplain : theme.HasPlainPrefix)
    (hnames : ∀ name ∈ Stylesheet.references value, ∀ c ∈ name.toList, Css.isNameChar c) :
    Stylesheet.references (theme.prefixReferences value) =
      (Stylesheet.references value).map fun name =>
        if name ∈ theme.values.keys then theme.varName name else name := by
  rw [prefixReferences]
  cases hnamed : theme.namePrefix with
  | none =>
      have hkept (name : String) :
          (if name ∈ theme.values.keys then theme.varName name else name) = name := by
        split
        · rename_i hkey
          rw [varName, hnamed, theme.keyOf_eq name hkey]
        · rfl
      exact (List.map_id'' hkept _).symm
  | some namePrefix =>
      have hwritten : Stylesheet.references (String.ofList
          (Css.mapNames theme.writeName value.toList)) =
            (Stylesheet.references value).map (Stylesheet.renamed theme.writeName) := by
        rw [Stylesheet.references, String.toList_ofList]
        exact Stylesheet.referencesIn_mapNames (isRenaming_writeName hplain) hnames
      refine hwritten.trans (List.map_congr_left ?_)
      intro name hname
      obtain ⟨body, rfl⟩ := Stylesheet.dashes_of_mem_referencesIn hname
      apply renamed_writeName
      intro c hc
      apply hnames _ hname
      simp [hc]

end Theme

namespace Stylesheet

theorem declarationsList_declare (entries : List (String × String)) :
    Sheet.Node.declarationsList (entries.map fun entry => Sheet.Node.declare entry.1 entry.2) =
      entries.map fun entry => { property := entry.1, value := entry.2 } := by
  induction entries with
  | nil => rfl
  | cons entry rest ih =>
      rw [List.map_cons, Sheet.Node.declarationsList, ih]
      rfl

theorem declarations_themeRule?_all (theme : Theme) (nodes : List Sheet.Node) :
    (themeRule? .all theme nodes).toList.flatMap Sheet.Node.declarations =
      theme.entries.map fun entry =>
        { property := theme.varName entry.1, value := theme.prefixReferences entry.2 } := by
  have hentries : emittedEntries .all theme nodes = writtenEntries theme := rfl
  rw [themeRule?.eq_def, hentries, writtenEntries]
  cases theme.entries with
  | nil => rfl
  | cons entry rest =>
      rw [List.map_cons, Option.toList_some, List.flatMap_singleton, Sheet.Node.declarations,
        declarationsList_declare, List.map_cons, List.map_map]
      rfl

/-- A written value refers to tokens under the names that declare them, and keeps all other names.
The prefix and the names that values refer to hold no marks; names may touch a `var(` and stand in
fallbacks. -/
theorem written_values_refer_to_declared_names (theme : Theme) (hplain : theme.HasPlainPrefix)
    (hnames : ∀ entry ∈ theme.entries, ∀ name ∈ references entry.2, ∀ c ∈ name.toList,
      Css.isNameChar c) :
    (∀ entry ∈ theme.entries,
      references (theme.prefixReferences entry.2) =
        (references entry.2).map fun name =>
          if name ∈ theme.values.keys then theme.varName name else name) ∧
    ∀ nodes : List Sheet.Node,
      let block := (themeRule? .all theme nodes).toList.flatMap Sheet.Node.declarations
      ∀ entry ∈ theme.entries, ∃ declaration ∈ block,
        declaration.property = theme.varName entry.1 ∧
        ∀ name ∈ references entry.2, name ∈ theme.values.keys →
          theme.varName name ∈ references declaration.value ∧
          ∃ target ∈ block, target.property = theme.varName name := by
  have hreferences : ∀ entry ∈ theme.entries,
      references (theme.prefixReferences entry.2) =
        (references entry.2).map fun name =>
          if name ∈ theme.values.keys then theme.varName name else name :=
    fun entry hentry => Theme.references_prefixReferences hplain (hnames entry hentry)
  refine ⟨hreferences, ?_⟩
  intro nodes block entry hentry
  have hdeclared : ∀ entry ∈ theme.entries,
      { property := theme.varName entry.1, value := theme.prefixReferences entry.2 } ∈ block := by
    intro entry hentry
    rw [show block = _ from declarations_themeRule?_all theme nodes]
    exact List.mem_map.mpr ⟨entry, hentry, rfl⟩
  refine ⟨_, hdeclared entry hentry, rfl, ?_⟩
  intro name hname hkey
  constructor
  · rw [hreferences entry hentry]
    exact List.mem_map.mpr ⟨name, hname, if_pos hkey⟩
  · obtain ⟨target, htarget, rfl⟩ := List.mem_map.mp hkey
    exact ⟨_, hdeclared target htarget, rfl⟩

/-- A written name touches a `var(`, and references stand in fallbacks. -/
def touchingTheme : Theme :=
  (Theme.empty.addMany
    [("--ring-var", "2px"), ("--ring", "--ring-var(--glow, var( --ring--wide , var(--none)))"),
      ("--glow", "red"), ("--ring--wide", "var(--glow)")]).withPrefix "mr"

theorem written_values_refer_to_declared_names_touching :
    touchingTheme.HasPlainPrefix ∧
      (∀ entry ∈ touchingTheme.entries, ∀ name ∈ references entry.2, ∀ c ∈ name.toList,
        Css.isNameChar c) ∧
      references (touchingTheme.prefixReferences
        "--ring-var(--glow, var( --ring--wide , var(--none)))") =
          ["--mr-glow", "--mr-ring--wide", "--none"] ∧
      ∃ declaration ∈ (themeRule? .all touchingTheme []).toList.flatMap Sheet.Node.declarations,
        declaration.property = "--mr-ring" ∧ "--mr-glow" ∈ references declaration.value ∧
        ∃ target ∈ (themeRule? .all touchingTheme []).toList.flatMap Sheet.Node.declarations,
          target.property = "--mr-glow" := by
  have hplain : touchingTheme.HasPlainPrefix := by decide +kernel
  have hnames : ∀ entry ∈ touchingTheme.entries, ∀ name ∈ references entry.2, ∀ c ∈ name.toList,
      Css.isNameChar c := by
    have hall : (touchingTheme.entries.all fun entry =>
        (references entry.2).all fun name => name.toList.all Css.isNameChar) = true := by
      decide +kernel
    simpa only [List.all_eq_true] using hall
  have hring : ("--ring", "--ring-var(--glow, var( --ring--wide , var(--none)))") ∈
      touchingTheme.entries := by decide +kernel
  have hglow : touchingTheme.varName "--glow" = "--mr-glow" := by decide +kernel
  obtain ⟨hreferences, hblock⟩ :=
    written_values_refer_to_declared_names touchingTheme hplain hnames
  refine ⟨hplain, hnames, (hreferences _ hring).trans (by decide +kernel), ?_⟩
  obtain ⟨declaration, hdeclaration, hproperty, htargets⟩ := hblock [] _ hring
  refine ⟨declaration, hdeclaration, hproperty.trans (by decide +kernel), ?_⟩
  rw [← hglow]
  exact htargets "--glow" (by decide +kernel) (by decide +kernel)

end Stylesheet

end AtomicCss
