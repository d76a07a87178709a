import AtomicCss.Command.Run
import AtomicCss.Proofs.Construction

/-!
Theme sources can be added one after another or put together first. Where a selector is repeated,
its component moves to the place of the last one in both cases, and a token that is repeated stays
at its first place.
-/

namespace AtomicCss

namespace Dictionary

variable {Value : Type}

theorem eq_of_entries_eq {first second : Dictionary Value} (h : first.entries = second.entries) :
    first = second := by
  cases first
  cases second
  cases h
  rfl

/-- The entries of a later dictionary behind those of keys that it does not have. -/
def overlay (dictionary later : Dictionary Value) : Dictionary Value :=
  later.entries.foldl (fun kept entry => kept.insertLast entry.1 entry.2) dictionary

theorem entries_overlay (dictionary later : Dictionary Value) :
    (dictionary.overlay later).entries =
      dictionary.entries.filter (fun entry => decide (entry.1 ∉ later.keys)) ++ later.entries := by
  rw [overlay, entries_foldl_insertLast, lastEntries_eq_self later.distinct]
  rfl

theorem mem_keys_overlay {dictionary later : Dictionary Value} {key : String} :
    key ∈ (dictionary.overlay later).keys ↔ key ∈ dictionary.keys ∨ key ∈ later.keys := by
  rw [keys, entries_overlay, List.map_append, List.mem_append]
  constructor
  · intro h
    refine h.imp_left fun hkept => ?_
    exact (List.filter_sublist.map Prod.fst).subset hkept
  · intro h
    by_cases hlater : key ∈ later.keys
    · exact .inr hlater
    · left
      obtain ⟨entry, hentry, rfl⟩ := List.mem_map.mp (h.resolve_right hlater)
      exact List.mem_map_of_mem (List.mem_filter.mpr ⟨hentry, decide_eq_true hlater⟩)

theorem empty_overlay (dictionary : Dictionary Value) : empty.overlay dictionary = dictionary := by
  apply eq_of_entries_eq
  rw [entries_overlay, entries_empty, List.filter_nil, List.nil_append]

theorem overlay_assoc (first second third : Dictionary Value) :
    (first.overlay second).overlay third = first.overlay (second.overlay third) := by
  apply eq_of_entries_eq
  rw [entries_overlay, entries_overlay, entries_overlay, entries_overlay, List.filter_append,
    List.filter_filter, List.append_assoc]
  congr 1
  -- An entry of the first one stays if neither of the others has its key, in either grouping.
  apply List.filter_congr
  intro entry _
  rw [Bool.eq_iff_iff]
  simp only [Bool.and_eq_true, decide_eq_true_eq, mem_keys_overlay, not_or, and_comm]

end Dictionary

namespace ThemeSource

theorem empty_extend (source : ThemeSource) : empty.extend source = source := by
  obtain ⟨customProperties, applies, utilities⟩ := source
  have happlies : Dictionary.empty.overlay applies = applies := Dictionary.empty_overlay applies
  exact congrArg (ThemeSource.mk customProperties · utilities) happlies

theorem extend_empty (source : ThemeSource) : source.extend empty = source := by
  rw [extend, empty, List.append_nil, List.append_nil]
  rfl

theorem extend_assoc (first second third : ThemeSource) :
    (first.extend second).extend third = first.extend (second.extend third) := by
  have happlies := Dictionary.overlay_assoc first.applies second.applies third.applies
  simp only [extend, List.append_assoc]
  exact congrArg (ThemeSource.mk _ · _) happlies

end ThemeSource

namespace Settings

theorem withSource_empty (settings : Settings) : settings.withSource .empty = settings := by
  rw [withSource, ThemeSource.empty, List.append_nil]
  rfl

theorem withSource_extend (settings : Settings) (source later : ThemeSource) :
    (settings.withSource source).withSource later =
      settings.withSource (source.extend later) := by
  have happlies := Dictionary.overlay_assoc settings.applies source.applies later.applies
  simp only [withSource, ThemeSource.extend, Theme.addMany_append, List.append_assoc]
  exact congrArg (Settings.mk _ _ _ _ _ _ · _ _) happlies

theorem withSource_foldl_extend (settings : Settings) (source : ThemeSource)
    (fragments : List String) :
    settings.withSource
        (fragments.foldl (fun source css => source.extend (.parse css)) source) =
      fragments.foldl (fun settings css => settings.withSource (.parse css))
        (settings.withSource source) := by
  induction fragments generalizing source with
  | nil => rfl
  | cons css rest ih =>
      rw [List.foldl_cons, List.foldl_cons, ih, withSource_extend]

end Settings

def ThemeSource.ofFile (tree : FileTree) (path : String) : Except Failure ThemeSource :=
  match tree.readText path with
  | .error error => .error (.file path error)
  | .ok text => .ok (parse text)

def Settings.withFile (tree : FileTree) (settings : Settings) (path : String) :
    Except Failure Settings :=
  (ThemeSource.ofFile tree path).map settings.withSource

/-- Putting the files together and adding all at once is adding file by file, also when a file
cannot be read. -/
theorem Settings.map_withSource_foldlM (tree : FileTree) (settings : Settings)
    (source : ThemeSource) (paths : List String) :
    (paths.foldlM (fun source path => (ThemeSource.ofFile tree path).map source.extend)
        source).map settings.withSource =
      paths.foldlM (withFile tree) (settings.withSource source) := by
  induction paths generalizing source with
  | nil => rfl
  | cons path rest ih =>
      rw [List.foldlM_cons, List.foldlM_cons, withFile]
      cases ThemeSource.ofFile tree path with
      | error error => rfl
      | ok later =>
          have hrest := ih (source.extend later)
          rw [← withSource_extend] at hrest
          exact hrest

namespace Configuration

theorem readSources_eq_foldlM (configuration : Configuration) (tree : FileTree)
    (directory : String) :
    configuration.readSources tree directory =
      (configuration.sources.map (Path.join directory)).foldlM
        (fun source path => (ThemeSource.ofFile tree path).map source.extend) .empty := by
  rw [readSources, List.foldlM_map]
  congr 1
  funext source relative
  dsimp only
  rw [ThemeSource.ofFile]
  cases tree.readText (Path.join directory relative) <;> rfl

theorem settings_eq_bind_foldlM (configuration : Configuration) (tree : FileTree)
    (directory : String) :
    configuration.settings tree directory =
      ({ configuration with sources := [] }.settings tree directory).bind fun base =>
        (configuration.sources.map (Path.join directory)).foldlM (Settings.withFile tree) base := by
  have hbase : { configuration with sources := [] }.baseTheme? = configuration.baseTheme? := rfl
  rw [settings, settings, hbase]
  cases configuration.baseTheme? with
  | none => rfl
  | some theme =>
      rw [readSources_eq_foldlM]
      exact Settings.map_withSource_foldlM tree _ .empty _

end Configuration

namespace Action

variable {α β : Type} {action : Action α} {session later : Session}

theorem run_bind_ok {value : α} (h : action.run.run session = (.ok value, later))
    (next : α → Action β) :
    (action >>= next).run.run session = (next value).run.run later := by
  rw [ExceptT.run_bind, StateT.run_bind, h]
  rfl

theorem run_bind_error {error : Failure} (h : action.run.run session = (.error error, later))
    (next : α → Action β) :
    (action >>= next).run.run session = (.error error, later) := by
  rw [ExceptT.run_bind, StateT.run_bind, h]
  rfl

theorem run_ask (answer : FileTree → Except Failure α) (session : Session) :
    (ask answer).run.run session = (answer session.tree, session) := by
  have hget : (get : Action Session).run.run session = (.ok session, session) := rfl
  rw [ask, run_bind_ok hget]
  cases answer session.tree <;> rfl

end Action

namespace Command

theorem run_addSource (settings : Settings) (path : String) (session : Session) :
    (addSource settings (some path)).run.run session =
      (settings.withFile session.tree path, session) := by
  rw [addSource, Settings.withFile, ThemeSource.ofFile]
  cases htext : session.tree.readText path with
  | error error =>
      have hread : (Action.readText path).run.run session =
          (.error (.file path error), session) := by
        rw [Action.readText, Action.run_ask, htext]
      exact Action.run_bind_error hread _
  | ok text =>
      have hread : (Action.readText path).run.run session = (.ok text, session) := by
        rw [Action.readText, Action.run_ask, htext]
      exact Action.run_bind_ok hread _

theorem run_foldlM_addSource (settings : Settings) (paths : List String) (session : Session) :
    (paths.foldlM (fun settings path => addSource settings (some path)) settings).run.run session =
      (paths.foldlM (Settings.withFile session.tree) settings, session) := by
  induction paths generalizing settings with
  | nil => rfl
  | cons path rest ih =>
      have hpath := run_addSource settings path session
      rw [List.foldlM_cons, List.foldlM_cons]
      cases hfile : settings.withFile session.tree path with
      | error error =>
          rw [hfile] at hpath
          exact Action.run_bind_error hpath _
      | ok next =>
          rw [hfile] at hpath
          exact (Action.run_bind_ok hpath _).trans (ih next)

end Command

/-- Theme sources may be grouped in any way: adding two is adding the one that they make together,
so that the sources of a configuration, which are put together first, give the settings that they
give when a command adds them one after another. -/
theorem sources_fold_in_any_grouping (settings : Settings) :
    (∀ source later : ThemeSource, (settings.withSource source).withSource later =
      settings.withSource (source.extend later)) ∧
    (∀ first second third : ThemeSource,
      (first.extend second).extend third = first.extend (second.extend third)) ∧
    (∀ source : ThemeSource,
      ThemeSource.empty.extend source = source ∧ source.extend .empty = source) ∧
    (∀ fragments : List String, settings.withSource (.parseAll fragments) =
      fragments.foldl (fun settings css => settings.withSource (.parse css)) settings) ∧
    ∀ (configuration : Configuration) (session : Session) (directory : String),
      configuration.settings session.tree directory =
        ({ configuration with sources := [] }.settings session.tree directory).bind fun base =>
          (((configuration.sources.map (Path.join directory)).foldlM
            (fun settings path => Command.addSource settings (some path)) base).run.run
              session).1 := by
  refine ⟨settings.withSource_extend, ThemeSource.extend_assoc, ?_, ?_, ?_⟩
  · intro source
    exact ⟨source.empty_extend, source.extend_empty⟩
  · intro fragments
    rw [ThemeSource.parseAll, Settings.withSource_foldl_extend, Settings.withSource_empty]
  · intro configuration session directory
    rw [configuration.settings_eq_bind_foldlM]
    congr 1
    funext base
    rw [Command.run_foldlM_addSource]

end AtomicCss
