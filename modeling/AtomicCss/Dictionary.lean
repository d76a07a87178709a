/-!
Dictionaries keyed by text that remember the order in which keys were first inserted.
-/

namespace AtomicCss

structure Dictionary (Value : Type) where
  entries : List (String × Value)
  distinct : (entries.map Prod.fst).Nodup
  deriving DecidableEq

namespace Dictionary

variable {Value : Type}

/-- Changes the value of a key where it stands, or appends the key. -/
def put (key : String) (value : Value) : List (String × Value) → List (String × Value)
  | [] => [(key, value)]
  | (other, previous) :: rest =>
      if other = key then (key, value) :: rest else (other, previous) :: put key value rest

theorem keys_put (key : String) (value : Value) (entries : List (String × Value)) :
    (put key value entries).map Prod.fst =
      if key ∈ entries.map Prod.fst then entries.map Prod.fst
      else entries.map Prod.fst ++ [key] := by
  induction entries with
  | nil => simp [put]
  | cons entry rest ih =>
      obtain ⟨other, previous⟩ := entry
      by_cases hkey : other = key
      · simp [put, hkey]
      · have hkey' : key ≠ other := fun h => hkey h.symm
        simp only [put, hkey, if_false, List.map_cons, ih, List.mem_cons, hkey', false_or]
        split <;> simp

theorem distinct_put {key : String} {value : Value} {entries : List (String × Value)}
    (h : (entries.map Prod.fst).Nodup) : ((put key value entries).map Prod.fst).Nodup := by
  rw [keys_put]
  split
  · exact h
  · rename_i hkey
    refine List.nodup_append.mpr ⟨h, by simp, ?_⟩
    intro other hother last hlast
    simp only [List.mem_singleton] at hlast
    subst hlast
    intro heq
    exact hkey (heq ▸ hother)

def empty : Dictionary Value := ⟨[], List.nodup_nil⟩

instance : Inhabited (Dictionary Value) := ⟨empty⟩

def insert (dictionary : Dictionary Value) (key : String) (value : Value) : Dictionary Value :=
  ⟨put key value dictionary.entries, distinct_put dictionary.distinct⟩

def insertMany (dictionary : Dictionary Value) (entries : List (String × Value)) :
    Dictionary Value :=
  entries.foldl (fun dictionary entry => dictionary.insert entry.1 entry.2) dictionary

def ofList (entries : List (String × Value)) : Dictionary Value :=
  empty.insertMany entries

def get? (dictionary : Dictionary Value) (key : String) : Option Value :=
  dictionary.entries.lookup key

def contains (dictionary : Dictionary Value) (key : String) : Bool :=
  (dictionary.get? key).isSome

def keys (dictionary : Dictionary Value) : List String :=
  dictionary.entries.map Prod.fst

def values (dictionary : Dictionary Value) : List Value :=
  dictionary.entries.map Prod.snd

def size (dictionary : Dictionary Value) : Nat :=
  dictionary.entries.length

def isEmpty (dictionary : Dictionary Value) : Bool :=
  dictionary.entries.isEmpty

def erase (dictionary : Dictionary Value) (key : String) : Dictionary Value where
  entries := dictionary.entries.filter (·.1 != key)
  distinct := dictionary.distinct.sublist (List.filter_sublist.map Prod.fst)

def insertLast (dictionary : Dictionary Value) (key : String) (value : Value) :
    Dictionary Value :=
  (dictionary.erase key).insert key value

@[simp] theorem entries_empty : (empty : Dictionary Value).entries = [] := rfl

@[simp] theorem entries_insert (dictionary : Dictionary Value) (key : String) (value : Value) :
    (dictionary.insert key value).entries = put key value dictionary.entries := rfl

theorem eq_or_mem_of_mem_keys_insert {dictionary : Dictionary Value} {key other : String}
    {value : Value} (h : other ∈ (dictionary.insert key value).keys) :
    other = key ∨ other ∈ dictionary.keys := by
  rw [keys, entries_insert, keys_put] at h
  split at h
  · exact .inr h
  · rcases List.mem_append.mp h with hother | hkey
    · exact .inr hother
    · exact .inl (List.mem_singleton.mp hkey)

theorem lookup_cons (key other : String) (value : Value) (entries : List (String × Value)) :
    ((other, value) :: entries).lookup key =
      if key = other then some value else entries.lookup key := by
  by_cases h : key = other
  · simp [h]
  · have hbeq : (key == other) = false := by simpa using h
    simp [List.lookup_cons, h, hbeq]

theorem lookup_put (key other : String) (value : Value) (entries : List (String × Value)) :
    (put key value entries).lookup other =
      if other = key then some value else entries.lookup other := by
  induction entries with
  | nil => simp [put, lookup_cons]
  | cons entry rest ih =>
      obtain ⟨head, previous⟩ := entry
      by_cases hhead : head = key
      · subst hhead
        by_cases h : other = head <;> simp [put, lookup_cons, h]
      · by_cases h : other = head
        · subst h
          simp [put, hhead]
        · simp [put, hhead, lookup_cons, h, ih]

theorem get?_insert (dictionary : Dictionary Value) (key other : String) (value : Value) :
    (dictionary.insert key value).get? other =
      if other = key then some value else dictionary.get? other := by
  simp [get?, lookup_put]

theorem mem_put {key : String} {value : Value} {entries : List (String × Value)}
    {entry : String × Value} (h : entry ∈ put key value entries) :
    entry = (key, value) ∨ entry ∈ entries := by
  induction entries with
  | nil => exact .inl (List.mem_singleton.mp h)
  | cons first rest ih =>
      rw [put] at h
      split at h
      · exact (List.mem_cons.mp h).imp_right (List.mem_cons_of_mem first)
      · rcases List.mem_cons.mp h with rfl | h
        · exact .inr List.mem_cons_self
        · exact (ih h).imp_right (List.mem_cons_of_mem first)

theorem mem_values_insertLast {dictionary : Dictionary Value} {key : String} {value other : Value}
    (h : other ∈ (dictionary.insertLast key value).values) :
    other = value ∨ other ∈ dictionary.values := by
  obtain ⟨entry, hentry, rfl⟩ := List.mem_map.mp h
  rcases mem_put hentry with rfl | hold
  · exact .inl rfl
  · exact .inr (List.mem_map_of_mem (List.mem_filter.mp hold).1)

theorem mem_of_lookup {key : String} {value : Value} {entries : List (String × Value)}
    (h : entries.lookup key = some value) : (key, value) ∈ entries := by
  obtain ⟨before, after, hentries, -⟩ := List.lookup_eq_some_iff.mp h
  rw [hentries]
  exact List.mem_append_right _ List.mem_cons_self

theorem mem_entries_of_get? {dictionary : Dictionary Value} {key : String} {value : Value}
    (h : dictionary.get? key = some value) : (key, value) ∈ dictionary.entries :=
  mem_of_lookup h

theorem mem_keys_of_contains {dictionary : Dictionary Value} {key : String}
    (h : dictionary.contains key = true) : key ∈ dictionary.keys := by
  obtain ⟨value, hvalue⟩ := Option.isSome_iff_exists.mp h
  exact List.mem_map.mpr ⟨(key, value), mem_entries_of_get? hvalue, rfl⟩

theorem contains_of_mem_keys {dictionary : Dictionary Value} {key : String}
    (h : key ∈ dictionary.keys) : dictionary.contains key = true := by
  obtain ⟨entry, hentry, rfl⟩ := List.mem_map.mp h
  exact List.lookup_isSome_iff.mpr ⟨entry, hentry, BEq.rfl⟩

end Dictionary

theorem nodup_eraseDups (names : List String) : names.eraseDups.Nodup := by
  induction hlength : names.length using Nat.strongRecOn generalizing names with
  | ind length ih =>
      cases names with
      | nil => simp
      | cons name rest =>
          rw [List.eraseDups_cons, List.nodup_cons]
          refine ⟨by simp, ih _ ?_ _ rfl⟩
          rw [← hlength, List.length_cons]
          exact Nat.lt_succ_of_le (List.length_filter_le ..)

end AtomicCss
