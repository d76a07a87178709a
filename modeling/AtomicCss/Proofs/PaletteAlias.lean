import AtomicCss.Proofs.NameScanning

/-!
The shades of a color under a second name. Each is a reference to the shade of the first name, so
that it gives the value that the first name has later, whatever it was when the second name was
added. The two names may start alike, and then a shade of one can be a shade of the other; but
never of itself.
-/

namespace AtomicCss

namespace Theme

variable {theme : Theme} {palette source target shade : String}

theorem colorLead_append (palette shade : String) :
    colorLead palette ++ shade =
      "--" ++ String.ofList (("color-" ++ palette ++ "-").toList ++ shade.toList) := by
  apply String.toList_inj.mp
  simp [colorLead]

theorem isNameChar_color (hpalette : ∀ c ∈ palette.toList, Css.isNameChar c) :
    ∀ c ∈ ("color-" ++ palette ++ "-").toList, Css.isNameChar c := by
  have hcolor : "color-".toList.all Css.isNameChar = true := by decide
  rw [String.toList_append, String.toList_append, List.forall_mem_append, List.forall_mem_append]
  exact ⟨⟨List.all_eq_true.mp hcolor, hpalette⟩, by simp [Css.isNameChar]⟩

theorem keyOf_colorLead_iff (hpalette : ∀ c ∈ palette.toList, Css.isNameChar c) :
    keyOf (colorLead palette ++ shade) = colorLead palette ++ shade ↔
      Text.replaceChar '.' ['_'] (Text.trimEnd shade.toList) = shade.toList := by
  rw [← dashed_keyBody, colorLead_append, keyBody_append (isNameChar_color hpalette),
    String.append_right_inj, String.ofList_inj, List.append_right_inj]

theorem mem_restsAfter {lead rest : String} :
    rest ∈ theme.restsAfter lead ↔ lead ++ rest ∈ theme.values.keys := by
  rw [restsAfter, List.mem_filterMap]
  constructor
  · rintro ⟨key, hkey, hrest⟩
    obtain ⟨tail, hafter, rfl⟩ := Option.map_eq_some_iff.mp hrest
    have heq : lead ++ String.ofList tail = key := by
      apply String.toList_inj.mp
      rw [Text.eq_append_of_after? hafter, String.toList_append, String.toList_ofList]
    rwa [heq]
  · intro hkey
    refine ⟨_, hkey, ?_⟩
    rw [String.toList_append, Text.after?_append, Option.map_some, String.ofList_toList]

section AddMany

variable {entries : List (String × String)} {key value : String}

theorem namePrefix_addMany (theme : Theme) (entries : List (String × String)) :
    (theme.addMany entries).namePrefix = theme.namePrefix := by
  induction entries generalizing theme with
  | nil => rfl
  | cons entry rest ih => exact ih (theme.add entry.1 entry.2)

theorem get?_add (theme : Theme) (name value key : String) :
    (theme.add name value).values.get? key =
      if key = keyOf name then some (Text.trimmed value) else theme.values.get? key :=
  Dictionary.get?_insert _ _ _ _

/-- The value of a key is settled once all later entries of the key give it this value. -/
theorem get?_addMany
    (hvalue : ∀ entry ∈ entries, keyOf entry.1 = key → Text.trimmed entry.2 = value)
    (hkey : theme.values.get? key = some value ∨ ∃ entry ∈ entries, keyOf entry.1 = key) :
    (theme.addMany entries).values.get? key = some value := by
  induction entries generalizing theme with
  | nil =>
      rcases hkey with hkey | ⟨entry, hentry, -⟩
      · exact hkey
      · cases hentry
  | cons entry rest ih =>
      rw [List.forall_mem_cons] at hvalue
      apply ih hvalue.2
      rw [get?_add]
      by_cases heq : key = keyOf entry.1
      · left
        rw [if_pos heq, hvalue.1 heq.symm]
      · rw [if_neg heq]
        rcases hkey with hkey | ⟨other, hother, hkey⟩
        · exact .inl hkey
        · rcases List.mem_cons.mp hother with rfl | hother
          · exact (heq hkey.symm).elim
          · exact .inr ⟨other, hother, hkey⟩

end AddMany

theorem varRef_congr {first second : Theme} (h : first.namePrefix = second.namePrefix)
    (name : String) : first.varRef name = second.varRef name := by
  rw [varRef, varRef, varName, varName, h]

theorem trimmed_varRef (theme : Theme) (name : String) :
    Text.trimmed (theme.varRef name) = theme.varRef name := by
  have hstart : Text.trimStart (theme.varRef name).toList = (theme.varRef name).toList := by
    rw [toList_varRef]
    exact List.dropWhile_cons_of_neg (by decide)
  have hend : Text.trimEnd (theme.varRef name).toList = (theme.varRef name).toList := by
    apply Text.trimEnd_eq_self
    intro c hc
    rw [toList_varRef, List.getLast?_concat] at hc
    cases hc
    decide
  rw [Text.trimmed, Text.trim, hstart, hend, String.ofList_toList]

/-- The references can be written from the theme as it was at the start. -/
theorem aliasPalette_eq_addMany (theme : Theme) (source target : String) :
    theme.aliasPalette source target =
      theme.addMany ((theme.restsAfter (colorLead source)).map fun shade =>
        (colorLead target ++ shade, theme.varRef (colorLead source ++ shade))) := by
  have hrun (shades : List String) : ∀ later : Theme, later.namePrefix = theme.namePrefix →
      shades.foldl (fun theme shade =>
        theme.add (colorLead target ++ shade) (theme.varRef (colorLead source ++ shade))) later =
      later.addMany (shades.map fun shade =>
        (colorLead target ++ shade, theme.varRef (colorLead source ++ shade))) := by
    induction shades with
    | nil => exact fun _ _ => rfl
    | cons shade rest ih =>
        intro later hlater
        rw [List.foldl_cons, varRef_congr hlater]
        exact ih _ hlater
  exact hrun _ theme rfl

theorem namePrefix_aliasPalette (theme : Theme) (source target : String) :
    (theme.aliasPalette source target).namePrefix = theme.namePrefix := by
  rw [aliasPalette_eq_addMany]
  exact namePrefix_addMany theme _

theorem colorLead_append_ne (hne : target ≠ source) :
    colorLead target ++ shade ≠ colorLead source ++ shade := by
  rw [Ne, String.append_left_inj, colorLead, colorLead, String.append_left_inj,
    String.append_right_inj]
  exact hne

/-- A shade of the second name refers to its shade of the first if no other has its key. -/
theorem get?_aliasPalette_of_unique (hkey : colorLead source ++ shade ∈ theme.values.keys)
    (hunique : ∀ other, colorLead source ++ other ∈ theme.values.keys →
      keyOf (colorLead target ++ other) = keyOf (colorLead target ++ shade) → other = shade) :
    (theme.aliasPalette source target).get? (colorLead target ++ shade) =
      some (theme.varRef (colorLead source ++ shade)) := by
  rw [get?, aliasPalette_eq_addMany]
  apply get?_addMany
  · intro entry hentry heq
    obtain ⟨other, hother, rfl⟩ := List.mem_map.mp hentry
    rw [hunique other (mem_restsAfter.mp hother) heq]
    exact trimmed_varRef theme _
  · right
    exact ⟨_, List.mem_map.mpr ⟨shade, mem_restsAfter.mpr hkey, rfl⟩, rfl⟩

section Shades

variable (hsource : ∀ c ∈ source.toList, Css.isNameChar c)
  (htarget : ∀ c ∈ target.toList, Css.isNameChar c)
  (hkey : colorLead source ++ shade ∈ theme.values.keys)
include hsource htarget hkey

/-- The second name of a shade is a key where the first is one. -/
theorem keyOf_target : keyOf (colorLead target ++ shade) = colorLead target ++ shade := by
  rw [keyOf_colorLead_iff htarget, ← keyOf_colorLead_iff hsource]
  exact theme.keyOf_eq _ hkey

theorem get?_aliasPalette :
    (theme.aliasPalette source target).values.get? (colorLead target ++ shade) =
      some (theme.varRef (colorLead source ++ shade)) := by
  have hunique : ∀ other, colorLead source ++ other ∈ theme.values.keys →
      keyOf (colorLead target ++ other) = keyOf (colorLead target ++ shade) → other = shade := by
    intro other hother heq
    rwa [keyOf_target hsource htarget hother, keyOf_target hsource htarget hkey,
      String.append_right_inj] at heq
  have hget := get?_aliasPalette_of_unique hkey hunique
  rwa [get?, keyOf_target hsource htarget hkey] at hget

end Shades

section Names

variable (hpalette : ∀ c ∈ palette.toList, Css.isNameChar c)
  (hshade : ∀ c ∈ shade.toList, Css.isNameChar c)
include hpalette hshade

theorem isNameChar_varName_color (hplain : theme.HasPlainPrefix) :
    ∀ c ∈ (theme.varName (colorLead palette ++ shade)).toList, Css.isNameChar c := by
  have hbody := List.forall_mem_append.mpr ⟨isNameChar_color hpalette, hshade⟩
  rw [toList_varName_eq, colorLead_append, keyBody_dashed hbody, List.forall_mem_append]
  exact ⟨fun c hc => hplain.isNameChar hc, hbody⟩

theorem inlineChars_varRef_color (hplain : theme.HasPlainPrefix) {value : String}
    (hvalue : theme.values.get? (colorLead palette ++ shade) = some value) (depth : Nat) :
    theme.inlineChars (depth + 1) (theme.varRef (colorLead palette ++ shade)).toList =
      theme.inlineChars depth value.toList := by
  have hname := isNameChar_varName_color hpalette hshade hplain
  have hhome : (theme.varName (colorLead palette ++ shade)).toList.foldl
      Css.Delimiter.parens.advance (0, .outside) = (0, .outside) :=
    Css.parenScanner.foldl_of_isNameChar hname
  rw [inlineChars_varRef hvalue (Css.NameScanner.passes_of_isNameChar hname)
    (Css.NameScanner.passes_of_isNameChar hname), if_pos hhome]

theorem resolve?_color (hfirst : palette.toList.head?.any Char.isAlphanum = true)
    (hcontains : theme.values.contains (colorLead palette ++ shade) = true) :
    theme.resolve? (some (palette ++ "-" ++ shade)) ["--color"] =
      some (theme.varRef (colorLead palette ++ shade)) := by
  have hname : ∀ c ∈ (palette ++ "-" ++ shade).toList, Css.isNameChar c := by
    rw [String.toList_append, String.toList_append, List.forall_mem_append,
      List.forall_mem_append]
    exact ⟨⟨hpalette, by simp [Css.isNameChar]⟩, hshade⟩
  have hunderscored : underscored (palette ++ "-" ++ shade) = palette ++ "-" ++ shade := by
    rw [underscored, replaceChar_of_isNameChar hname, String.ofList_toList]
  have hbare : ¬Text.startsWith "--".toList (palette ++ "-" ++ shade).toList = true := by
    rw [String.toList_append, String.toList_append]
    cases hletters : palette.toList with
    | nil =>
        rw [hletters] at hfirst
        cases hfirst
    | cons first rest =>
        rw [hletters, List.head?_cons, Option.any_some] at hfirst
        intro hdashes
        have hdash : ['-', '-'] <+: first :: (rest ++ "-".toList ++ shade.toList) :=
          List.isPrefixOf_iff_prefix.mp hdashes
        rw [← (List.cons_prefix_cons.mp hdash).1] at hfirst
        exact absurd hfirst (by decide)
  have hspace : namespaceKey "--color" ++ "-" ++ (palette ++ "-" ++ shade) =
      colorLead palette ++ shade := by
    apply String.toList_inj.mp
    simp [namespaceKey, colorLead]
  have hresolved : theme.resolveKey? (some (palette ++ "-" ++ shade)) ["--color"] =
      some (colorLead palette ++ shade) := by
    rw [resolveKey?, if_neg hbare, List.map_singleton, hunderscored, hspace]
    exact List.find?_cons_of_pos hcontains
  rw [resolve?, hresolved, Option.map_some]

end Names

theorem inline_reference_to_shade (hsource : ∀ c ∈ source.toList, Css.isNameChar c)
    (htarget : ∀ c ∈ target.toList, Css.isNameChar c)
    (hshade : ∀ c ∈ shade.toList, Css.isNameChar c) (hplain : theme.HasPlainPrefix)
    {value : String}
    (hreference : theme.values.get? (colorLead target ++ shade) =
      some (theme.varRef (colorLead source ++ shade)))
    (hvalue : theme.values.get? (colorLead source ++ shade) = some value)
    (hkept : ¬"var(".toList <:+: value.toList) (depth : Nat) :
    theme.inline (depth + 2) (theme.varRef (colorLead target ++ shade)) = value := by
  apply String.toList_inj.mp
  calc (theme.inline (depth + 2) (theme.varRef (colorLead target ++ shade))).toList
    _ = theme.inlineChars (depth + 2) (theme.varRef (colorLead target ++ shade)).toList :=
        toList_inline _ _ _
    _ = theme.inlineChars (depth + 1) (theme.varRef (colorLead source ++ shade)).toList :=
        inlineChars_varRef_color htarget hshade hplain hreference _
    _ = theme.inlineChars depth value.toList :=
        inlineChars_varRef_color hsource hshade hplain hvalue _
    _ = value.toList := inlineChars_eq_self hkept depth

/-- A color has each shade of another color as a reference, which gives the value that the shade of
the other color has in the end. -/
theorem aliasPalette_follows_source (theme : Theme) (source target shade : String)
    (hplain : theme.HasPlainPrefix) (hsource : ∀ c ∈ source.toList, Css.isNameChar c)
    (htarget : ∀ c ∈ target.toList, Css.isNameChar c)
    (hshade : ∀ c ∈ shade.toList, Css.isNameChar c)
    (hfirst : target.toList.head?.any Char.isAlphanum = true) (hne : target ≠ source)
    (hkey : colorLead source ++ shade ∈ theme.values.keys) :
    let aliased := theme.aliasPalette source target
    aliased.resolve? (some (target ++ "-" ++ shade)) ["--color"] =
      some (aliased.varRef (colorLead target ++ shade)) ∧
    ∀ value : String, ¬"var(".toList <:+: value.toList → ∀ depth, 2 ≤ depth →
      let updated := aliased.add (colorLead source ++ shade) value
      updated.inline depth (updated.varRef (colorLead target ++ shade)) = Text.trimmed value := by
  intro aliased
  have hreference : aliased.values.get? (colorLead target ++ shade) =
      some (theme.varRef (colorLead source ++ shade)) :=
    get?_aliasPalette hsource htarget hkey
  constructor
  · apply resolve?_color htarget hshade hfirst
    rw [Dictionary.contains, hreference]
    rfl
  · intro value hvalue depth hdepth updated
    have hnamed : updated.namePrefix = theme.namePrefix := namePrefix_aliasPalette theme _ _
    have hplain : updated.HasPlainPrefix := by
      intro namePrefix hmem
      exact hplain namePrefix (hnamed ▸ hmem)
    have hsourceKey := theme.keyOf_eq _ hkey
    have hset : updated.values.get? (colorLead source ++ shade) = some (Text.trimmed value) := by
      rw [get?_add, hsourceKey, if_pos rfl]
    have halias : updated.values.get? (colorLead target ++ shade) =
        some (updated.varRef (colorLead source ++ shade)) := by
      rw [get?_add, hsourceKey, if_neg (colorLead_append_ne hne), hreference,
        varRef_congr hnamed]
    have hkept : ¬"var(".toList <:+: (Text.trimmed value).toList := by
      rw [Text.toList_trimmed]
      exact fun hvar => hvalue (hvar.trans (Text.trim_infix _))
    obtain ⟨more, rfl⟩ := Nat.exists_eq_add_of_le' hdepth
    exact inline_reference_to_shade hsource htarget hshade hplain halias hset hkept more

/-- The second name `blue-dark` makes a shade of `blue` anew. -/
def overlappingTheme : Theme :=
  (empty.addMany
    [("--color-blue-50", "#eff6ff"), ("--color-blue-dark-50", "#172554")]).withPrefix "tw"

theorem aliasPalette_follows_source_overlapping :
    overlappingTheme.HasPlainPrefix ∧ "blue-dark" ≠ "blue" ∧
      colorLead "blue" ++ "50" ∈ overlappingTheme.values.keys ∧
      colorLead "blue" ++ "dark-50" ∈ overlappingTheme.values.keys ∧
      (overlappingTheme.aliasPalette "blue" "blue-dark").resolve? (some "blue-dark-50")
        ["--color"] = some "var(--tw-color-blue-dark-50)" ∧
      ∀ depth, 2 ≤ depth →
        let aliased := overlappingTheme.aliasPalette "blue" "blue-dark"
        (aliased.add "--color-blue-50" " #000 ").inline depth "var(--tw-color-blue-dark-50)" =
            "#000" ∧
          (aliased.add "--color-blue-dark-50" "#111").inline depth
            "var(--tw-color-blue-dark-dark-50)" = "#111" := by
  have hplain : overlappingTheme.HasPlainPrefix := by decide +kernel
  have hlight : colorLead "blue" ++ "50" ∈ overlappingTheme.values.keys := by decide +kernel
  have hdark : colorLead "blue" ++ "dark-50" ∈ overlappingTheme.values.keys := by decide +kernel
  have hname (name : String) (h : name.toList.all Css.isNameChar = true) :
      ∀ c ∈ name.toList, Css.isNameChar c :=
    List.all_eq_true.mp h
  have hshades (shade : String) (hshade : shade.toList.all Css.isNameChar = true)
      (hkey : colorLead "blue" ++ shade ∈ overlappingTheme.values.keys) :=
    aliasPalette_follows_source overlappingTheme "blue" "blue-dark" shade hplain
      (hname _ (by decide)) (hname _ (by decide)) (hname _ hshade) (by decide) (by decide) hkey
  obtain ⟨hresolve, hinline⟩ := hshades "50" (by decide) hlight
  obtain ⟨-, hinlineDark⟩ := hshades "dark-50" (by decide) hdark
  refine ⟨hplain, by decide, hlight, hdark, hresolve.trans (by decide +kernel), ?_⟩
  intro depth hdepth aliased
  constructor
  · exact hinline " #000 " (by decide +kernel) depth hdepth
  · exact hinlineDark "#111" (by decide +kernel) depth hdepth

end Theme

end AtomicCss
