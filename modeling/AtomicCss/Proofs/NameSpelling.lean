import AtomicCss.Proofs.PaletteAlias

/-!
A dot in the name of a token is another way to write an underscore. All operations on a theme take a
name for its key and so cannot tell the two apart, with one exception: the shades of a color are
looked for under its name as it is written, and no key holds a dot.
-/

namespace AtomicCss

namespace Text

variable {f : Char → Char} {lead text : List Char}

theorem trimStart_map (hblank : ∀ c, isBlank (f c) = isBlank c) (text : List Char) :
    trimStart (text.map f) = (trimStart text).map f := by
  have hcomp : isBlank ∘ f = isBlank := funext hblank
  rw [trimStart, List.dropWhile_map, hcomp]
  rfl

theorem trimEnd_map (hblank : ∀ c, isBlank (f c) = isBlank c) (text : List Char) :
    trimEnd (text.map f) = (trimEnd text).map f := by
  have hreverse := trimStart_map hblank text.reverse
  rw [trimStart, trimStart] at hreverse
  rw [trimEnd, ← List.map_reverse, hreverse, ← List.map_reverse]
  rfl

theorem trim_map (hblank : ∀ c, isBlank (f c) = isBlank c) (text : List Char) :
    trim (text.map f) = (trim text).map f := by
  rw [trim, trimStart_map hblank, trimEnd_map hblank]
  rfl

theorem after?_map (hlead : ∀ d ∈ lead, ∀ c, f c = d ↔ c = d) (text : List Char) :
    after? lead (text.map f) = (after? lead text).map (List.map f) := by
  induction lead generalizing text with
  | nil => rfl
  | cons d lead ih =>
      obtain ⟨hd, hlead⟩ := List.forall_mem_cons.mp hlead
      cases text with
      | nil => rfl
      | cons c rest =>
          have hcomm : d = f c ↔ d = c := eq_comm.trans ((hd c).trans eq_comm)
          simp only [List.map_cons, after?, hcomm]
          split
          · exact ih hlead rest
          · rfl

theorem startsWith_eq_isSome_after? (lead text : List Char) :
    startsWith lead text = (after? lead text).isSome := by
  rw [Bool.eq_iff_iff, startsWith, List.isPrefixOf_iff_prefix, Option.isSome_iff_exists]
  apply exists_congr
  intro rest
  rw [after?_eq_some_iff, eq_comm]

end Text

namespace Dictionary

theorem put_eq_self {Value : Type} {key : String} {value : Value} {entries : List (String × Value)}
    (h : entries.lookup key = some value) : put key value entries = entries := by
  induction entries with
  | nil => cases h
  | cons entry rest ih =>
      obtain ⟨other, previous⟩ := entry
      rw [lookup_cons] at h
      by_cases hkey : key = other
      · rw [if_pos hkey, Option.some.injEq] at h
        rw [put, if_pos hkey.symm, hkey, h]
      · rw [if_neg hkey] at h
        rw [put, if_neg (Ne.symm hkey), ih h]

theorem insert_eq_self {Value : Type} {dictionary : Dictionary Value} {key : String} {value : Value}
    (h : dictionary.get? key = some value) : dictionary.insert key value = dictionary := by
  have hput := put_eq_self h
  simp only [insert, hput]

theorem mem_keys_insert {Value : Type} {dictionary : Dictionary Value} {key other : String}
    {value : Value} :
    other ∈ (dictionary.insert key value).keys ↔ other = key ∨ other ∈ dictionary.keys := by
  constructor
  · exact eq_or_mem_of_mem_keys_insert
  · intro h
    apply mem_keys_of_contains
    rw [contains, get?_insert]
    split
    · rfl
    · exact contains_of_mem_keys (h.resolve_left ‹_›)

end Dictionary

namespace Theme

variable {theme : Theme} {palette source target shade : String}

def undot (c : Char) : Char :=
  if c = '.' then '_' else c

theorem isBlank_undot (c : Char) : Text.isBlank (undot c) = Text.isBlank c := by
  rw [undot]
  split
  · rename_i hdot
    rw [hdot]
    rfl
  · rfl

theorem undot_comp_undot : undot ∘ undot = undot := by
  funext c
  by_cases hdot : c = '.' <;> simp [undot, hdot]

theorem undot_eq_dash_iff (c : Char) : undot c = '-' ↔ c = '-' := by
  by_cases hdot : c = '.' <;> simp [undot, hdot]

theorem toList_underscored (name : String) : (underscored name).toList = name.toList.map undot := by
  rw [underscored, String.toList_ofList, Text.replaceChar_singleton]
  rfl

theorem underscored_append (first second : String) :
    underscored (first ++ second) = underscored first ++ underscored second := by
  apply String.toList_inj.mp
  rw [toList_underscored, String.toList_append, String.toList_append, toList_underscored,
    toList_underscored, List.map_append]

theorem underscored_eq_self {name : String} (h : '.' ∉ name.toList) : underscored name = name := by
  apply String.toList_inj.mp
  have hsame : ∀ c ∈ name.toList, undot c = id c := by
    intro c hc
    have hdot : c ≠ '.' := fun heq => h (heq ▸ hc)
    exact if_neg hdot
  rw [toList_underscored, List.map_congr_left hsame, List.map_id]

theorem underscored_underscored (name : String) :
    underscored (underscored name) = underscored name := by
  apply String.toList_inj.mp
  rw [toList_underscored, toList_underscored, List.map_map, undot_comp_undot]

theorem dot_not_mem_map_undot (text : List Char) : '.' ∉ text.map undot := by
  intro hdot
  obtain ⟨c, -, hc⟩ := List.mem_map.mp hdot
  rw [undot] at hc
  split at hc
  · cases hc
  · contradiction

theorem after?_undot (text : List Char) :
    Text.after? "--".toList (text.map undot) =
      (Text.after? "--".toList text).map (List.map undot) := by
  apply Text.after?_map
  intro dash hdash c
  have heq : dash = '-' := by simpa using hdash
  rw [heq, undot_eq_dash_iff]

theorem keyBody_eq_map (name : String) :
    keyBody name = ((Text.after? "--".toList (Text.trim name.toList)).getD
      (Text.trim name.toList)).map undot := by
  rw [keyBody, Text.replaceChar_singleton]
  rfl

theorem keyBody_underscored (name : String) : keyBody (underscored name) = keyBody name := by
  rw [keyBody_eq_map, toList_underscored, Text.trim_map isBlank_undot, after?_undot,
    Option.getD_map, List.map_map, undot_comp_undot, ← keyBody_eq_map]

/-- A name has the key that it has with underscores for its dots. -/
theorem keyOf_underscored (name : String) : keyOf (underscored name) = keyOf name := by
  apply String.toList_inj.mp
  rw [toList_keyOf, toList_keyOf, keyBody_underscored]

theorem dot_not_mem_key {key : String} (h : key ∈ theme.values.keys) : '.' ∉ key.toList := by
  rw [← theme.keyOf_eq key h, toList_keyOf, keyBody_eq_map]
  intro hdot
  rcases List.mem_cons.mp hdot with hdash | hdot
  · cases hdash
  · rcases List.mem_cons.mp hdot with hdash | hbody
    · cases hdash
    · exact dot_not_mem_map_undot _ hbody

section SameKey

variable {first second : String}

theorem add_congr (h : keyOf first = keyOf second) (value : String) :
    theme.add first value = theme.add second value := by
  simp only [add, h]

theorem varName_congr_key (h : keyOf first = keyOf second) :
    theme.varName first = theme.varName second := by
  rw [varName, varName, h]

theorem get?_congr (h : keyOf first = keyOf second) : theme.get? first = theme.get? second := by
  rw [get?, get?, h]

end SameKey

theorem underscored_colorLead (palette : String) :
    underscored (colorLead palette) = colorLead (underscored palette) := by
  rw [colorLead, underscored_append, underscored_append, colorLead]
  rfl

theorem trim_colorLead (palette shade : String) :
    Text.trim (colorLead palette ++ shade).toList =
      (colorLead palette ++ String.ofList (Text.trimEnd shade.toList)).toList := by
  have hlast : (colorLead palette).toList.getLast? = some '-' := by
    rw [colorLead, String.toList_append]
    exact List.getLast?_concat
  have hstart : Text.trimStart (colorLead palette ++ shade).toList =
      (colorLead palette ++ shade).toList := by
    rw [colorLead_append, String.toList_append]
    exact List.dropWhile_cons_of_neg (by decide)
  rw [Text.trim, hstart, String.toList_append, Text.trimEnd_append hlast (by decide),
    String.toList_append, String.toList_ofList]

theorem keyOf_of_dashes {name body : String}
    (h : Text.trim name.toList = ("--" ++ body).toList) :
    keyOf name = underscored ("--" ++ body) := by
  rw [String.toList_append] at h
  apply String.toList_inj.mp
  rw [toList_keyOf, keyBody_eq_map, h, Text.after?_append, Option.getD_some, toList_underscored,
    String.toList_append, List.map_append]
  rfl

/-- The key of a shade is made from the name of the color and from the name of the shade. -/
theorem keyOf_colorLead (palette shade : String) :
    keyOf (colorLead palette ++ shade) =
      colorLead (underscored palette) ++
        underscored (String.ofList (Text.trimEnd shade.toList)) := by
  have hdashes := colorLead_append palette (String.ofList (Text.trimEnd shade.toList))
  have htrim := trim_colorLead palette shade
  rw [hdashes] at htrim
  rw [keyOf_of_dashes htrim, ← hdashes, underscored_append, underscored_colorLead]

theorem addMany_congr {Item : Type} {first second : Item → String} {items : List Item}
    (h : ∀ item ∈ items, keyOf (first item) = keyOf (second item)) (value : Item → String)
    (theme : Theme) :
    theme.addMany (items.map fun item => (first item, value item)) =
      theme.addMany (items.map fun item => (second item, value item)) := by
  induction items generalizing theme with
  | nil => rfl
  | cons item rest ih =>
      obtain ⟨hitem, hrest⟩ := List.forall_mem_cons.mp h
      rw [List.map_cons, List.map_cons, addMany_cons, addMany_cons, add_congr hitem, ih hrest]

theorem addPalette_eq_addMany (theme : Theme) (name : String) (shades : List (String × String)) :
    theme.addPalette name shades =
      theme.addMany (shades.map fun shade => (colorLead name ++ shade.1, shade.2)) := by
  rw [addPalette, addMany, List.foldl_map]

theorem addPalette_underscored (theme : Theme) (name : String) (shades : List (String × String)) :
    theme.addPalette (underscored name) (shades.map fun shade => (underscored shade.1, shade.2)) =
      theme.addPalette name shades := by
  rw [addPalette_eq_addMany, addPalette_eq_addMany, List.map_map]
  apply addMany_congr
  intro shade _
  rw [← underscored_colorLead, ← underscored_append, keyOf_underscored]

theorem aliasPalette_underscored_target (theme : Theme) (source target : String) :
    theme.aliasPalette source (underscored target) = theme.aliasPalette source target := by
  rw [aliasPalette_eq_addMany, aliasPalette_eq_addMany]
  apply addMany_congr
  intro shade _
  rw [keyOf_colorLead, keyOf_colorLead, underscored_underscored]

theorem resolveKey?_underscored (theme : Theme) (name : Option String) (spaces : List String) :
    theme.resolveKey? (name.map underscored) spaces = theme.resolveKey? name spaces := by
  cases name with
  | none => rfl
  | some name =>
      have hdashes : Text.startsWith "--".toList (underscored name).toList =
          Text.startsWith "--".toList name.toList := by
        rw [Text.startsWith_eq_isSome_after?, Text.startsWith_eq_isSome_after?,
          toList_underscored, after?_undot, Option.isSome_map]
      rw [Option.map_some, resolveKey?, resolveKey?, hdashes, contains, contains,
        get?_congr (keyOf_underscored name), keyOf_underscored, underscored_underscored]

section Alias

theorem dot_not_mem_of_mem (hkey : colorLead source ++ shade ∈ theme.values.keys) :
    '.' ∉ source.toList := by
  intro hdot
  apply dot_not_mem_key hkey
  simp [colorLead, hdot]

theorem keyOf_target_of_mem (hkey : colorLead source ++ shade ∈ theme.values.keys)
    (target : String) :
    keyOf (colorLead target ++ shade) = colorLead (underscored target) ++ shade := by
  have hsource : underscored source = source := underscored_eq_self (dot_not_mem_of_mem hkey)
  have hshade := theme.keyOf_eq _ hkey
  rw [keyOf_colorLead, hsource, String.append_right_inj] at hshade
  rw [keyOf_colorLead, hshade]

theorem get?_aliasPalette_of_mem (hkey : colorLead source ++ shade ∈ theme.values.keys)
    (target : String) :
    (theme.aliasPalette source target).get? (colorLead target ++ shade) =
      some (theme.varRef (colorLead source ++ shade)) := by
  apply get?_aliasPalette_of_unique hkey
  intro other hother heq
  rwa [keyOf_target_of_mem hkey, keyOf_target_of_mem hother, String.append_right_inj] at heq

theorem add_eq_self {name value : String} (h : theme.get? name = some (Text.trimmed value)) :
    theme.add name value = theme := by
  have hput : theme.values.insert (keyOf name) (Text.trimmed value) = theme.values :=
    Dictionary.insert_eq_self h
  simp only [add, hput]

theorem addMany_eq_self {entries : List (String × String)}
    (h : ∀ entry ∈ entries, theme.get? entry.1 = some (Text.trimmed entry.2)) :
    theme.addMany entries = theme := by
  induction entries with
  | nil => rfl
  | cons entry rest ih =>
      obtain ⟨hentry, hrest⟩ := List.forall_mem_cons.mp h
      rw [addMany_cons, add_eq_self hentry, ih hrest]

/-- Nothing is new in a second name exactly when each of its shades refers already to the first. -/
theorem aliasPalette_eq_self_iff (theme : Theme) (source target : String) :
    theme.aliasPalette source target = theme ↔
      ∀ shade, colorLead source ++ shade ∈ theme.values.keys →
        theme.get? (colorLead target ++ shade) =
          some (theme.varRef (colorLead source ++ shade)) := by
  constructor
  · intro h shade hkey
    have hshade := get?_aliasPalette_of_mem hkey target
    rwa [h] at hshade
  · intro h
    rw [aliasPalette_eq_addMany]
    apply addMany_eq_self
    intro entry hentry
    obtain ⟨shade, hshade, rfl⟩ := List.mem_map.mp hentry
    rw [trimmed_varRef]
    exact h shade (mem_restsAfter.mp hshade)

/-- No key holds a dot, and so none belongs to a color whose name is written with one. -/
theorem aliasPalette_of_dot (hdot : '.' ∈ source.toList) (target : String) :
    theme.aliasPalette source target = theme := by
  rw [aliasPalette_eq_self_iff]
  intro shade hkey
  exact (dot_not_mem_of_mem hkey hdot).elim

theorem aliasPalette_underscored_source_iff (theme : Theme) (source target : String) :
    theme.aliasPalette (underscored source) target = theme.aliasPalette source target ↔
      '.' ∉ source.toList ∨
        ∀ shade, colorLead (underscored source) ++ shade ∈ theme.values.keys →
          theme.get? (colorLead target ++ shade) =
            some (theme.varRef (colorLead (underscored source) ++ shade)) := by
  by_cases hdot : '.' ∈ source.toList
  · rw [aliasPalette_of_dot hdot, aliasPalette_eq_self_iff]
    simp [hdot]
  · rw [underscored_eq_self hdot]
    simp [hdot]

theorem mem_keys_addMany {entries : List (String × String)} {name value : String}
    (h : keyOf name ∈ theme.values.keys ∨ (name, value) ∈ entries) :
    keyOf name ∈ (theme.addMany entries).values.keys := by
  induction entries generalizing theme with
  | nil => exact h.resolve_right List.not_mem_nil
  | cons first rest ih =>
      apply ih
      rcases h with hkey | hentry
      · exact .inl (Dictionary.mem_keys_insert.mpr (.inr hkey))
      · rcases List.mem_cons.mp hentry with rfl | hrest
        · exact .inl (Dictionary.mem_keys_insert.mpr (.inl rfl))
        · exact .inr hrest

theorem get?_aliasPalette_addPalette {name : String} (hname : '.' ∉ name.toList)
    {shades : List (String × String)} {entry : String × String} (hentry : entry ∈ shades)
    (theme : Theme) (target : String) :
    ((theme.addPalette name shades).aliasPalette name target).get? (colorLead target ++ entry.1) =
      some (theme.varRef (colorLead name ++ entry.1)) := by
  -- The shade as it stands in the keys, which is what the second name is made from.
  let kept := underscored (String.ofList (Text.trimEnd entry.1.toList))
  have hkey : keyOf (colorLead name ++ entry.1) = colorLead name ++ kept := by
    rw [keyOf_colorLead, underscored_eq_self hname]
  have hmem : colorLead name ++ kept ∈ (theme.addPalette name shades).values.keys := by
    have hadded : (colorLead name ++ entry.1, entry.2) ∈
        shades.map fun shade => (colorLead name ++ shade.1, shade.2) :=
      List.mem_map_of_mem hentry
    rw [← hkey, addPalette_eq_addMany]
    exact mem_keys_addMany (.inr hadded)
  have htarget : keyOf (colorLead target ++ entry.1) = keyOf (colorLead target ++ kept) := by
    rw [keyOf_target_of_mem hmem, keyOf_colorLead]
  have hsource : keyOf (colorLead name ++ kept) = keyOf (colorLead name ++ entry.1) := by
    rw [← hkey, keyOf_keyOf]
  have hprefixes : (theme.addPalette name shades).namePrefix = theme.namePrefix := by
    rw [addPalette_eq_addMany, namePrefix_addMany]
  rw [get?_congr htarget, get?_aliasPalette_of_mem hmem, varRef_congr hprefixes, varRef,
    varName_congr_key hsource, varRef]

end Alias

/-- Dots in names can be written as underscores everywhere, except in the name of the color that
gets a second name. With a dot in it the color is not found, and the theme stays as it is. -/
theorem dots_stand_for_underscores (theme : Theme) :
    (∀ name value, theme.add (underscored name) value = theme.add name value) ∧
    (∀ name shades, theme.addPalette (underscored name)
        (shades.map fun shade => (underscored shade.1, shade.2)) = theme.addPalette name shades) ∧
    (∀ name, theme.get? (underscored name) = theme.get? name ∧
      theme.contains (underscored name) = theme.contains name ∧
      theme.varName (underscored name) = theme.varName name) ∧
    (∀ name spaces,
      theme.resolveKey? (name.map underscored) spaces = theme.resolveKey? name spaces) ∧
    (∀ source target,
      theme.aliasPalette source (underscored target) = theme.aliasPalette source target ∧
      (theme.aliasPalette (underscored source) target = theme.aliasPalette source target ↔
        '.' ∉ source.toList ∨
          ∀ shade, colorLead (underscored source) ++ shade ∈ theme.values.keys →
            theme.get? (colorLead target ++ shade) =
              some (theme.varRef (colorLead (underscored source) ++ shade)))) ∧
    ∀ name target shades,
      let registered := theme.addPalette name shades
      ('.' ∉ name.toList → ∀ shade ∈ shades,
        (registered.aliasPalette name target).get? (colorLead target ++ shade.1) =
          some (theme.varRef (colorLead name ++ shade.1))) ∧
      ('.' ∈ name.toList → registered.aliasPalette name target = registered) := by
  refine ⟨?_, theme.addPalette_underscored, ?_, theme.resolveKey?_underscored, ?_, ?_⟩
  · intro name value
    exact add_congr (keyOf_underscored name) value
  · intro name
    have hget := @get?_congr theme _ _ (keyOf_underscored name)
    exact ⟨hget, congrArg Option.isSome hget, varName_congr_key (keyOf_underscored name)⟩
  · intro source target
    exact ⟨theme.aliasPalette_underscored_target source target,
      theme.aliasPalette_underscored_source_iff source target⟩
  · intro name target shades registered
    constructor
    · intro hname shade hshade
      exact get?_aliasPalette_addPalette hname hshade theme target
    · intro hname
      exact aliasPalette_of_dot hname target

/-- A color that is added under a name with a dot cannot get a second name under that same name. -/
theorem dotted_color_gets_no_second_name :
    let registered := empty.addPalette "brand.dark" [("500", "#123")]
    (registered.aliasPalette "brand.dark" "accent").entries =
        [("--color-brand_dark-500", "#123")] ∧
      (registered.aliasPalette (underscored "brand.dark") "accent").entries =
        [("--color-brand_dark-500", "#123"),
          ("--color-accent-500", "var(--color-brand_dark-500)")] := by
  decide +kernel

end Theme

end AtomicCss
