import AtomicCss.Proofs.NameSpelling

/-!
A theme as the record of its history. Whatever changes have been made, the keys stand in the order
in which they were first inserted, and each has the value that it was given last.
-/

namespace AtomicCss

namespace Dictionary

variable {Value : Type}

theorem lookup_of_mem {entries : List (String × Value)} {key : String} {value : Value}
    (hdistinct : (entries.map Prod.fst).Nodup) (h : (key, value) ∈ entries) :
    entries.lookup key = some value := by
  induction entries with
  | nil => cases h
  | cons entry rest ih =>
      obtain ⟨other, first⟩ := entry
      obtain ⟨hother, hrest⟩ := List.nodup_cons.mp hdistinct
      rw [lookup_cons]
      rcases List.mem_cons.mp h with heq | hlater
      · cases heq
        exact if_pos rfl
      · have hne : key ≠ other := by
          intro heq
          apply hother
          exact List.mem_map.mpr ⟨(key, value), hlater, heq⟩
        rw [if_neg hne]
        exact ih hrest hlater

theorem get?_of_mem_entries {dictionary : Dictionary Value} {key : String} {value : Value}
    (h : (key, value) ∈ dictionary.entries) : dictionary.get? key = some value :=
  lookup_of_mem dictionary.distinct h

end Dictionary

namespace Theme

inductive Change where
  | add (name value : String)
  | addMany (entries : List (String × String))
  | addPalette (name : String) (shades : List (String × String))
  | aliasPalette (source target : String)
  | withPrefix (namePrefix : String)

def Change.apply (theme : Theme) : Change → Theme
  | .add name value => theme.add name value
  | .addMany entries => theme.addMany entries
  | .addPalette name shades => theme.addPalette name shades
  | .aliasPalette source target => theme.aliasPalette source target
  | .withPrefix namePrefix => theme.withPrefix namePrefix

def afterChanges (changes : List Change) : Theme :=
  changes.foldl Change.apply empty

/-- Everything that has been inserted so far, the oldest first, as it was written. Nothing is ever
taken out or moved. -/
structure Journal where
  insertions : List (String × String)
  namePrefix : Option String

namespace Journal

def blank : Journal := ⟨[], none⟩

def insertAll (journal : Journal) (insertions : List (String × String)) : Journal :=
  { journal with insertions := journal.insertions ++ insertions }

def keys (journal : Journal) : List String :=
  (journal.insertions.map fun insertion => keyOf insertion.1).eraseDups

def lastValue? (journal : Journal) (key : String) : Option String :=
  (journal.insertions.reverse.find? fun insertion => keyOf insertion.1 == key).map fun insertion =>
    Text.trimmed insertion.2

def shadesOf (journal : Journal) (color : String) : List String :=
  journal.keys.filterMap fun key =>
    (Text.after? (colorLead color).toList key.toList).map String.ofList

def reference (journal : Journal) (key : String) : String :=
  match journal.namePrefix with
  | none => "var(" ++ key ++ ")"
  | some namePrefix => "var(--" ++ namePrefix ++ "-" ++ String.ofList (key.toList.drop 2) ++ ")"

/-- The insertions that a change makes. Those of a color under a second name are read off the
journal as it is before the change. -/
def record (journal : Journal) : Change → Journal
  | .add name value => journal.insertAll [(name, value)]
  | .addMany entries => journal.insertAll entries
  | .addPalette name shades =>
      journal.insertAll (shades.map fun shade => (colorLead name ++ shade.1, shade.2))
  | .aliasPalette source target =>
      journal.insertAll ((journal.shadesOf source).map fun shade =>
        (colorLead target ++ shade, journal.reference (colorLead source ++ shade)))
  | .withPrefix namePrefix =>
      { journal with namePrefix := (empty.withPrefix namePrefix).namePrefix }

def ofChanges (changes : List Change) : Journal :=
  changes.foldl record blank

theorem insertAll_cons (journal : Journal) (insertion : String × String)
    (insertions : List (String × String)) :
    journal.insertAll (insertion :: insertions) =
      (journal.insertAll [insertion]).insertAll insertions := by
  simp [insertAll]

theorem keys_insert (journal : Journal) (name value : String) :
    (journal.insertAll [(name, value)]).keys =
      if keyOf name ∈ journal.keys then journal.keys else journal.keys ++ [keyOf name] := by
  have hmem : keyOf name ∈ journal.keys ↔
      keyOf name ∈ journal.insertions.map fun insertion => keyOf insertion.1 := by
    rw [keys, List.mem_eraseDups]
  simp only [hmem]
  rw [keys, insertAll, List.map_append, List.eraseDups_append]
  split
  · rename_i h
    simp [keys, List.removeAll, h]
  · rename_i h
    simp [keys, List.removeAll, h, List.eraseDups_cons]

theorem lastValue?_insert (journal : Journal) (name value key : String) :
    (journal.insertAll [(name, value)]).lastValue? key =
      if key = keyOf name then some (Text.trimmed value) else journal.lastValue? key := by
  rw [lastValue?, insertAll, List.reverse_append, List.reverse_singleton, List.singleton_append,
    List.find?_cons]
  by_cases h : key = keyOf name
  · simp [h]
  · have hne : (keyOf name == key) = false := beq_eq_false_iff_ne.mpr (Ne.symm h)
    rw [hne, if_neg h]
    rfl

theorem lastValue?_eq_none_iff (journal : Journal) (key : String) :
    journal.lastValue? key = none ↔ ∀ insertion ∈ journal.insertions, keyOf insertion.1 ≠ key := by
  simp [lastValue?]

end Journal

structure Represents (journal : Journal) (theme : Theme) : Prop where
  keys_eq : theme.values.keys = journal.keys
  get?_eq : ∀ key, theme.values.get? key = journal.lastValue? key
  namePrefix_eq : theme.namePrefix = journal.namePrefix

namespace Represents

variable {journal : Journal} {theme : Theme}

theorem blank : Represents .blank empty where
  keys_eq := rfl
  get?_eq _ := rfl
  namePrefix_eq := rfl

theorem add (h : Represents journal theme) (name value : String) :
    Represents (journal.insertAll [(name, value)]) (theme.add name value) where
  keys_eq := by
    rw [Journal.keys_insert, ← h.keys_eq]
    exact Dictionary.keys_put (keyOf name) (Text.trimmed value) theme.values.entries
  get?_eq := by
    intro key
    rw [get?_add, Journal.lastValue?_insert, h.get?_eq]
  namePrefix_eq := h.namePrefix_eq

theorem addMany (h : Represents journal theme) (entries : List (String × String)) :
    Represents (journal.insertAll entries) (theme.addMany entries) := by
  induction entries generalizing journal theme with
  | nil => simpa [Journal.insertAll] using h
  | cons entry rest ih =>
      rw [Journal.insertAll_cons, addMany_cons]
      apply ih
      exact h.add entry.1 entry.2

theorem restsAfter_eq (h : Represents journal theme) (color : String) :
    theme.restsAfter (colorLead color) = journal.shadesOf color := by
  rw [restsAfter, h.keys_eq, Journal.shadesOf]

theorem varRef_eq (h : Represents journal theme) {key : String} (hkey : keyOf key = key) :
    theme.varRef key = journal.reference key := by
  rw [varRef, varName, Journal.reference, h.namePrefix_eq, hkey]
  cases journal.namePrefix with
  | none => rfl
  | some namePrefix =>
      apply String.toList_inj.mp
      simp

theorem aliasPalette (h : Represents journal theme) (source target : String) :
    Represents (journal.record (.aliasPalette source target))
      (theme.aliasPalette source target) := by
  rw [aliasPalette_eq_addMany, Journal.record, ← h.restsAfter_eq]
  have hinsertions : ((theme.restsAfter (colorLead source)).map fun shade =>
      (colorLead target ++ shade, theme.varRef (colorLead source ++ shade))) =
        (theme.restsAfter (colorLead source)).map fun shade =>
          (colorLead target ++ shade, journal.reference (colorLead source ++ shade)) := by
    apply List.map_congr_left
    intro shade hshade
    rw [h.varRef_eq (theme.keyOf_eq _ (mem_restsAfter.mp hshade))]
  rw [hinsertions]
  exact h.addMany _

theorem of_values_eq (h : Represents journal theme) {later : Theme}
    (hvalues : later.values = theme.values) :
    Represents { journal with namePrefix := later.namePrefix } later where
  keys_eq := by
    rw [hvalues]
    exact h.keys_eq
  get?_eq := by
    rw [hvalues]
    exact h.get?_eq
  namePrefix_eq := rfl

theorem withPrefix (h : Represents journal theme) (namePrefix : String) :
    Represents (journal.record (.withPrefix namePrefix)) (theme.withPrefix namePrefix) := by
  have hvalues : (theme.withPrefix namePrefix).values = theme.values := by rw [Theme.withPrefix]
  have hprefixes : (theme.withPrefix namePrefix).namePrefix =
      (empty.withPrefix namePrefix).namePrefix := by
    rw [Theme.withPrefix, Theme.withPrefix]
  rw [Journal.record, ← hprefixes]
  exact h.of_values_eq hvalues

theorem apply (h : Represents journal theme) (change : Change) :
    Represents (journal.record change) (change.apply theme) := by
  cases change with
  | add name value => exact h.add name value
  | addMany entries => exact h.addMany entries
  | addPalette name shades =>
      rw [Change.apply, addPalette_eq_addMany]
      exact h.addMany _
  | aliasPalette source target => exact h.aliasPalette source target
  | withPrefix namePrefix => exact h.withPrefix namePrefix

theorem foldl (h : Represents journal theme) (changes : List Change) :
    Represents (changes.foldl Journal.record journal) (changes.foldl Change.apply theme) := by
  induction changes generalizing journal theme with
  | nil => exact h
  | cons change rest ih =>
      apply ih
      exact h.apply change

end Represents

theorem represents_afterChanges (changes : List Change) :
    Represents (.ofChanges changes) (afterChanges changes) :=
  Represents.blank.foldl changes

theorem dashes_prefix_key {theme : Theme} {key : String} (h : key ∈ theme.values.keys) :
    ['-', '-'] <+: key.toList := by
  rw [← theme.keyOf_eq key h, toList_keyOf]
  exact List.prefix_append ['-', '-'] (keyBody key)

/-- Whatever changes have been made to the empty theme, it lists each key once, at the place of its
first insertion and with the value of its last one. -/
theorem changes_keep_insertion_order (changes : List Change) :
    (afterChanges changes).entries.map Prod.fst = (Journal.ofChanges changes).keys ∧
    ((afterChanges changes).entries.map Prod.fst).Nodup ∧
    (afterChanges changes).size = (afterChanges changes).entries.length ∧
    (∀ entry ∈ (afterChanges changes).entries,
      ['-', '-'] <+: entry.1.toList ∧ '.' ∉ entry.1.toList ∧
        (Journal.ofChanges changes).lastValue? entry.1 = some entry.2) ∧
    ∀ name,
      (afterChanges changes).get? name = (Journal.ofChanges changes).lastValue? (keyOf name) ∧
      ((afterChanges changes).get? name = none ↔
        ∀ insertion ∈ (Journal.ofChanges changes).insertions, keyOf insertion.1 ≠ keyOf name) := by
  have h := represents_afterChanges changes
  refine ⟨h.keys_eq, (afterChanges changes).values.distinct, rfl, ?_, ?_⟩
  · intro entry hentry
    have hkey : entry.1 ∈ (afterChanges changes).values.keys := List.mem_map_of_mem hentry
    refine ⟨dashes_prefix_key hkey, dot_not_mem_key hkey, ?_⟩
    rw [← h.get?_eq]
    exact Dictionary.get?_of_mem_entries hentry
  · intro name
    have hget : (afterChanges changes).get? name =
        (Journal.ofChanges changes).lastValue? (keyOf name) := h.get?_eq (keyOf name)
    rw [hget]
    exact ⟨rfl, Journal.lastValue?_eq_none_iff _ _⟩

example :
    (afterChanges [.addPalette "red" [("500", "#f00")], .aliasPalette "red" "brand",
      .add "color-red-500" " #e00 "]).entries =
        [("--color-red-500", "#e00"), ("--color-brand-500", "var(--color-red-500)")] := by
  decide +kernel

end Theme

end AtomicCss
