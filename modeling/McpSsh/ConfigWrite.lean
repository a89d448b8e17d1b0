import McpSsh.Registry
import McpSsh.Base.Trace

/-!
# Memory and disk

`_write_config` writes a temporary file beside `servers.toml` and moves it into place.
Each step of it may fail. The temporary file's name is that of the configuration file with
another suffix, so it is the configuration file itself when that is called `….tmp`.
-/

set_option autoImplicit false

namespace McpSsh

open Base

/-! ## Suffixes of file names -/

/-- `PurePath.suffix`: the name from its last dot on, unless the dot is its first or last
character. -/
def suffix (name : String) : String :=
  let tail := name.toList.reverse.takeWhile (· ≠ '.')
  if tail ≠ [] ∧ tail.length + 1 < name.toList.length then String.ofList ('.' :: tail.reverse) else ""

/-- What is in front of the suffix. -/
def stem (name : String) : String := String.ofList (name.toList.take (name.toList.length - (suffix name).toList.length))

/-- `PurePath.with_suffix`. -/
def withSuffix (name ending : String) : String := stem name ++ ending

theorem dropWhile_ne_head {cs : List Char} {c d : Char} {rest : List Char}
    (found : cs.dropWhile (· ≠ c) = d :: rest) : d = c := by
  have head := List.head?_dropWhile_not (fun x => decide (x ≠ c)) cs
  rw [found] at head
  simpa using head

theorem toList_suffix (name : String) : (suffix name).toList <:+ name.toList := by
  rw [← List.reverse_prefix]
  unfold suffix
  dsimp only
  split
  · rename_i inside
    obtain ⟨-, inside⟩ := inside
    have split := List.takeWhile_append_dropWhile (p := fun c => decide (c ≠ '.')) (l := name.toList.reverse)
    cases found : name.toList.reverse.dropWhile (· ≠ '.') with
    | nil =>
      rw [found, List.append_nil] at split
      have := congrArg List.length split
      rw [List.length_reverse] at this
      omega
    | cons d rest =>
      rw [found, dropWhile_ne_head found] at split
      refine ⟨rest, ?_⟩
      rw [String.toList_ofList, List.reverse_cons, List.reverse_reverse, List.append_assoc]
      exact split
  · exact List.nil_prefix

/-- A name is its stem and its suffix. -/
theorem stem_append_suffix (name : String) : stem name ++ suffix name = name := by
  obtain ⟨front, same⟩ := toList_suffix name
  apply String.toList_injective
  rw [String.toList_append, stem, String.toList_ofList]
  conv_rhs => rw [← same]
  have cut : name.toList.length - (suffix name).toList.length = front.length := by
    rw [← same, List.length_append]
    omega
  rw [cut, ← same, List.take_left']
  rfl

theorem withSuffix_eq_self_iff {name ending : String} : withSuffix name ending = name ↔ suffix name = ending := by
  conv_lhs => rhs; rw [← stem_append_suffix name]
  rw [withSuffix, String.append_right_inj]
  exact eq_comm

/-! ## The registry and its files -/

/-- The registry, its file and the temporary file beside it (where that is another file),
with what has been written so far. -/
structure SavedStore extends Store where
  temporary : Option FileContent
  /-- The configuration that was last moved into place. -/
  moved : Option AppConfig
  /-- The configurations that `write_text` was called with, each with the memory-only
  servers there were. -/
  written : List (AppConfig × Dict String ServerConfig)

/-- How far a write gets. -/
inductive WriteOutcome where
  | done
  /-- `mkdir` fails, or the temporary file cannot be opened. -/
  | notOpened
  /-- The temporary file is opened, and what it holds when writing to it has failed. -/
  | cutShort (left : FileContent)
  /-- `os.replace` fails. -/
  | notMoved
deriving DecidableEq

/-- What a failing write leaves in the temporary file, where it has opened it. -/
def WriteOutcome.left (cfg : AppConfig) : WriteOutcome → Option FileContent
  | .done | .notOpened => none
  | .cutShort left => some left
  | .notMoved => some (.text (appConfigToToml cfg))

/-- A call of a method that changes the registry. -/
inductive RegistryCall where
  | add (config : ServerConfig) (outcome : WriteOutcome)
  | remove (name : String) (outcome : WriteOutcome)
  | addEphemeral (config : ServerConfig)
  | removeEphemeral (name : String)
deriving DecidableEq

namespace SavedStore

/-- `tmp_path.write_text`, which leaves `content` in the file `config_path.with_suffix(".tmp")`. -/
def writeText (path : String) (s : SavedStore) (cfg : AppConfig) (content : FileContent) : SavedStore :=
  { s with
    file := if withSuffix path ".tmp" = path then content else s.file
    temporary := if withSuffix path ".tmp" = path then s.temporary else some content
    written := s.written ++ [(cfg, s.registry.ephemeral)] }

/-- `os.replace(tmp_path, config_path)`, which does nothing when both name one file. -/
def moveIntoPlace (path : String) (s : SavedStore) (cfg : AppConfig) : SavedStore :=
  if withSuffix path ".tmp" = path then { s with moved := some cfg }
  else { s with file := s.temporary.getD s.file, temporary := none, moved := some cfg }

/-- `Registry._write_config`, with the error it raises. -/
def writeConfig (path : String) (s : SavedStore) (cfg : AppConfig) : WriteOutcome → SavedStore × Option McpSshError
  | .notOpened => (s, some .writeFailed)
  | .cutShort left => (s.writeText path cfg left, some .writeFailed)
  | .notMoved => (s.writeText path cfg (.text (appConfigToToml cfg)), some .writeFailed)
  | .done => (moveIntoPlace path (s.writeText path cfg (.text (appConfigToToml cfg))) cfg, none)

/-- `_write_config`, and the assignment of the new configuration when it has not raised. -/
def commit (path : String) (s : SavedStore) (cfg : AppConfig) (outcome : WriteOutcome) :
    SavedStore × Option McpSshError :=
  match s.writeConfig path cfg outcome with
  | (s, some e) => (s, some e)
  | (s, none) => ({ s with registry := { s.registry with config := cfg } }, none)

/-- One call, with the error it raises. -/
def call (path : String) (s : SavedStore) : RegistryCall → SavedStore × Option McpSshError
  | .add config outcome =>
    if s.registry.taken config.name then (s, some (.serverAlreadyExists config.name))
    else s.commit path (s.withServer config) outcome
  | .remove name outcome =>
    if name ∈ s.registry.config.servers.keys then s.commit path (s.withoutServer name) outcome
    else (s, some (.serverNotFound name))
  | .addEphemeral config =>
    match s.registry.addEphemeral config with
    | .ok r => ({ s with registry := r }, none)
    | .error e => (s, some e)
  | .removeEphemeral name =>
    match s.registry.removeEphemeral name with
    | .ok r => ({ s with registry := r }, none)
    | .error e => (s, some e)

/-- The calls on a registry whose file is called `path`. -/
def calls (path : String) : System SavedStore RegistryCall := fun s c t => t = (s.call path c).1

/-! ## In step -/

/-- One file-backed server is changed, to `server`, and nothing else. -/
structure ChangesOne (s t : SavedStore) (name : String) (server : Option ServerConfig) : Prop where
  new : s.registry.config.servers.get? name ≠ server
  settings : t.registry.config.settings = s.registry.config.settings
  ephemeral : t.registry.ephemeral = s.registry.ephemeral
  servers : ∀ n, t.registry.config.servers.get? n = if n = name then server else s.registry.config.servers.get? n

/-- A call that raises changes neither memory nor file, and any other changes what it is
asked to. -/
structure Clean (path : String) (s : SavedStore) (c : RegistryCall) : Prop where
  raised : ∀ e, (s.call path c).2 = some e →
    (s.call path c).1.registry = s.registry ∧ (s.call path c).1.file = s.file
  added : ∀ config outcome, c = .add config outcome → (s.call path c).2 = none →
    ChangesOne s (s.call path c).1 config.name (some config)
  removed : ∀ name outcome, c = .remove name outcome → (s.call path c).2 = none →
    ChangesOne s (s.call path c).1 name none

/-- Memory and disk agree, in a state reached from `start`. -/
structure InStep (start s : SavedStore) : Prop where
  unmoved : s.moved = none → s.file = start.file ∧ s.registry.config = start.registry.config
  placed : ∀ cfg, s.moved = some cfg → s.file = .text (appConfigToToml cfg) ∧ s.registry.config = cfg
  settings : s.registry.config.settings = start.registry.config.settings
  written : ∀ w ∈ s.written, ∀ name ∈ w.1.servers.keys, name ∉ w.2.keys

/-- The configuration that a call writes, and how far the write gets. -/
def write (s : SavedStore) : RegistryCall → Option (AppConfig × WriteOutcome)
  | .add config outcome => if s.registry.taken config.name then none else some (s.withServer config, outcome)
  | .remove name outcome =>
    if name ∈ s.registry.config.servers.keys then some (s.withoutServer name, outcome) else none
  | .addEphemeral _ | .removeEphemeral _ => none

/-- The temporary file is another file than the configuration, or no write fails on it
with another content than there was. -/
def Spares (path : String) (s : SavedStore) (c : RegistryCall) : Prop :=
  suffix path = ".tmp" → ∀ cfg outcome, s.write c = some (cfg, outcome) →
    ∀ left, outcome.left cfg = some left → left = s.file

section

variable {path : String} {s t start : SavedStore} {cfg : AppConfig} {outcome : WriteOutcome} {c : RegistryCall}

/-! ## What one write can do -/

/-- A write that went through. -/
structure Moved (s t : SavedStore) (cfg : AppConfig) : Prop where
  registry : t.registry = { s.registry with config := cfg }
  file : t.file = .text (appConfigToToml cfg)
  moved : t.moved = some cfg
  written : t.written = s.written ++ [(cfg, s.registry.ephemeral)]

/-- A write that did not. -/
structure Failed (path : String) (s t : SavedStore) (cfg : AppConfig) (outcome : WriteOutcome) : Prop where
  registry : t.registry = s.registry
  file : t.file = if suffix path = ".tmp" then (outcome.left cfg).getD s.file else s.file
  moved : t.moved = s.moved
  written : t.written = s.written ∨ t.written = s.written ++ [(cfg, s.registry.ephemeral)]

theorem failed_writeText {content : FileContent} (left : outcome.left cfg = some content) :
    Failed path s (s.writeText path cfg content) cfg outcome := by
  constructor
  · simp only [writeText]
  · simp only [writeText, withSuffix_eq_self_iff, left, Option.getD_some]
  · simp only [writeText]
  · simp only [writeText, or_true]

theorem moved_done : Moved s (s.commit path cfg .done).1 cfg := by
  simp only [commit, writeConfig, moveIntoPlace]
  by_cases same : withSuffix path ".tmp" = path
  · rw [if_pos same]
    constructor <;> simp only [writeText, if_pos same]
  · rw [if_neg same]
    constructor <;> simp only [writeText, if_neg same, Option.getD_some]

theorem commit_cases (path : String) (s : SavedStore) (cfg : AppConfig) (outcome : WriteOutcome) :
    (s.commit path cfg outcome).2 = none ∧ outcome.left cfg = none ∧ Moved s (s.commit path cfg outcome).1 cfg ∨
    (∃ e, (s.commit path cfg outcome).2 = some e) ∧ Failed path s (s.commit path cfg outcome).1 cfg outcome := by
  cases outcome with
  | done => exact .inl ⟨rfl, rfl, moved_done⟩
  | notOpened => exact .inr ⟨⟨_, rfl⟩, rfl, by simp [commit, writeConfig, WriteOutcome.left], rfl, .inl rfl⟩
  | cutShort left => exact .inr ⟨⟨_, rfl⟩, failed_writeText rfl⟩
  | notMoved => exact .inr ⟨⟨_, rfl⟩, failed_writeText rfl⟩

/-! ## What one call can do -/

theorem call_of_write (asked : s.write c = some (cfg, outcome)) : s.call path c = s.commit path cfg outcome := by
  cases c with
  | add config outcome =>
    obtain ⟨free, same⟩ := Option.ite_none_left_eq_some.mp asked
    cases same
    exact if_neg free
  | remove name outcome =>
    obtain ⟨present, same⟩ := Option.ite_none_right_eq_some.mp asked
    cases same
    exact if_pos present
  | addEphemeral config => cases asked
  | removeEphemeral name => cases asked

/-- A call that does not write changes at most the servers in memory. -/
theorem call_of_not_write (not : s.write c = none) :
    (s.call path c).1 = s ∧ (∃ e, (s.call path c).2 = some e) ∨
    (∃ config r, c = .addEphemeral config ∧ s.registry.addEphemeral config = .ok r ∧
      s.call path c = ({ s with registry := r }, none)) ∨
    (∃ name r, c = .removeEphemeral name ∧ s.registry.removeEphemeral name = .ok r ∧
      s.call path c = ({ s with registry := r }, none)) := by
  cases c with
  | add config outcome =>
    have taken : s.registry.taken config.name = true := by
      by_contra free
      simp [write, free] at not
    rw [call, if_pos taken]
    exact .inl ⟨rfl, _, rfl⟩
  | remove name outcome =>
    have absent : name ∉ s.registry.config.servers.keys := by
      intro present
      simp [write, present] at not
    rw [call, if_neg absent]
    exact .inl ⟨rfl, _, rfl⟩
  | addEphemeral config =>
    cases result : s.registry.addEphemeral config with
    | error e => exact .inl (by simp [call, result])
    | ok r => exact .inr (.inl ⟨config, r, rfl, result, by simp [call, result]⟩)
  | removeEphemeral name =>
    cases result : s.registry.removeEphemeral name with
    | error e => exact .inl (by simp [call, result])
    | ok r => exact .inr (.inr ⟨name, r, rfl, result, by simp [call, result]⟩)

/-- Nothing but the servers is changed in what is written. -/
theorem settings_write (asked : s.write c = some (cfg, outcome)) : cfg.settings = s.registry.config.settings := by
  cases c with
  | add config outcome =>
    obtain ⟨-, same⟩ := Option.ite_none_left_eq_some.mp asked
    cases same
    rfl
  | remove name outcome =>
    obtain ⟨-, same⟩ := Option.ite_none_right_eq_some.mp asked
    cases same
    rfl
  | addEphemeral config => cases asked
  | removeEphemeral name => cases asked

/-- No name is in both halves of the registry. -/
def Apart (s : SavedStore) : Prop := ∀ name ∈ s.registry.config.servers.keys, name ∉ s.registry.ephemeral.keys

theorem apart_write (apart : s.Apart) (asked : s.write c = some (cfg, outcome)) :
    ∀ name ∈ cfg.servers.keys, name ∉ s.registry.ephemeral.keys := by
  intro name member
  cases c with
  | add config outcome =>
    obtain ⟨free, same⟩ := Option.ite_none_left_eq_some.mp asked
    cases same
    simp only [Registry.taken, Bool.or_eq_true, decide_eq_true_eq, not_or] at free
    obtain rfl | old := Dict.mem_keys_insert.mp member
    · exact free.2
    · exact apart name old
  | remove gone outcome =>
    obtain ⟨-, same⟩ := Option.ite_none_right_eq_some.mp asked
    cases same
    obtain ⟨server, kept⟩ := Dict.mem_keys_iff.mp member
    rw [Store.withoutServer, Dict.get?_erase] at kept
    obtain ⟨-, kept⟩ := Option.ite_none_left_eq_some.mp kept
    exact apart name (Dict.mem_keys_of_get? kept)
  | addEphemeral config => cases asked
  | removeEphemeral name => cases asked

/-! ## Every call, and every run -/

theorem Failed.file_eq (failed : Failed path s t cfg outcome) (spared : Spares path s c)
    (asked : s.write c = some (cfg, outcome)) : t.file = s.file := by
  rw [failed.file]
  split
  · rename_i same
    cases left : outcome.left cfg with
    | none => rfl
    | some content => exact spared same cfg outcome asked content left
  · rfl

theorem InStep.of_same (kept : InStep start s) (file : t.file = s.file)
    (config : t.registry.config = s.registry.config) (moved : t.moved = s.moved) (written : t.written = s.written) :
    InStep start t := by
  constructor
  · rw [file, config, moved]
    exact kept.unmoved
  · rw [file, config, moved]
    exact kept.placed
  · rw [config]
    exact kept.settings
  · rw [written]
    exact kept.written

theorem written_concat (kept : ∀ w ∈ s.written, ∀ name ∈ w.1.servers.keys, name ∉ w.2.keys)
    (apart : ∀ name ∈ cfg.servers.keys, name ∉ s.registry.ephemeral.keys) :
    ∀ w ∈ s.written ++ [(cfg, s.registry.ephemeral)], ∀ name ∈ w.1.servers.keys, name ∉ w.2.keys := by
  intro w member
  obtain old | new := List.mem_append.mp member
  · exact kept w old
  · rw [List.mem_singleton.mp new]
    exact apart

theorem inStep_call (kept : InStep start s) (apart : s.Apart) (spared : Spares path s c) :
    InStep start (s.call path c).1 := by
  cases asked : s.write c with
  | none =>
    obtain ⟨same, -⟩ | ⟨config, r, -, added, result⟩ | ⟨name, r, -, removed, result⟩ := call_of_not_write asked
    · rwa [same]
    · obtain ⟨-, rfl⟩ := Registry.addEphemeral_ok_iff.mp added
      rw [result]
      exact kept.of_same rfl rfl rfl rfl
    · obtain ⟨-, rfl⟩ := Registry.removeEphemeral_ok_iff.mp removed
      rw [result]
      exact kept.of_same rfl rfl rfl rfl
  | some write =>
    obtain ⟨cfg, outcome⟩ := write
    have disjoint := apart_write apart asked
    rw [call_of_write asked]
    obtain ⟨-, -, done⟩ | ⟨-, failed⟩ := commit_cases path s cfg outcome
    · constructor
      · intro unmoved
        rw [done.moved] at unmoved
        cases unmoved
      · intro cfg' moved
        rw [done.moved] at moved
        cases moved
        exact ⟨done.file, by rw [done.registry]⟩
      · rw [done.registry]
        exact (settings_write asked).trans kept.settings
      · rw [done.written]
        exact written_concat kept.written disjoint
    · have file := failed.file_eq spared asked
      constructor
      · rw [failed.moved, file, failed.registry]
        exact kept.unmoved
      · rw [failed.moved, file, failed.registry]
        exact kept.placed
      · rw [failed.registry]
        exact kept.settings
      · obtain same | more := failed.written
        · rw [same]
          exact kept.written
        · rw [more]
          exact written_concat kept.written disjoint

theorem apart_call (apart : s.Apart) : (s.call path c).1.Apart := by
  cases asked : s.write c with
  | none =>
    obtain ⟨same, -⟩ | ⟨config, r, -, added, result⟩ | ⟨name, r, -, removed, result⟩ := call_of_not_write asked
    · rwa [same]
    · obtain ⟨free, rfl⟩ := Registry.addEphemeral_ok_iff.mp added
      simp only [Registry.taken, Bool.or_eq_false_iff, decide_eq_false_iff_not] at free
      rw [result]
      intro name member there
      obtain rfl | old := Dict.mem_keys_insert.mp there
      · exact free.1 member
      · exact apart name member old
    · obtain ⟨-, rfl⟩ := Registry.removeEphemeral_ok_iff.mp removed
      rw [result]
      intro name member there
      obtain ⟨server, kept⟩ := Dict.mem_keys_iff.mp there
      rw [Dict.get?_erase] at kept
      exact apart name member (Dict.mem_keys_of_get? (Option.ite_none_left_eq_some.mp kept).2)
  | some write =>
    obtain ⟨cfg, outcome⟩ := write
    rw [call_of_write asked]
    obtain ⟨-, -, done⟩ | ⟨-, failed⟩ := commit_cases path s cfg outcome
    · intro name member
      rw [done.registry] at member ⊢
      exact apart_write apart asked name member
    · intro name member
      rw [failed.registry] at member ⊢
      exact apart name member

/-- A call that returns has moved what it wrote into place, or is about memory only. -/
theorem moved_of_returns (returns : (s.call path c).2 = none) :
    (∃ config, c = .addEphemeral config) ∨ (∃ name, c = .removeEphemeral name) ∨
      ∃ cfg outcome, s.write c = some (cfg, outcome) ∧ Moved s (s.call path c).1 cfg := by
  cases asked : s.write c with
  | none =>
    obtain ⟨-, e, error⟩ | ⟨config, r, rfl, -, -⟩ | ⟨name, r, rfl, -, -⟩ := @call_of_not_write path s c asked
    · rw [returns] at error
      cases error
    · exact .inl ⟨config, rfl⟩
    · exact .inr (.inl ⟨name, rfl⟩)
  | some write =>
    obtain ⟨cfg, outcome⟩ := write
    rw [call_of_write asked] at returns ⊢
    obtain ⟨-, -, done⟩ | ⟨⟨e, error⟩, -⟩ := commit_cases path s cfg outcome
    · exact .inr (.inr ⟨cfg, outcome, rfl, done⟩)
    · rw [returns] at error
      cases error

theorem changesOne_add {config : ServerConfig} {asks : WriteOutcome}
    (asked : s.write (.add config asks) = some (cfg, outcome)) (done : Moved s t cfg) : ChangesOne s t config.name (some config) := by
  obtain ⟨free, same⟩ := Option.ite_none_left_eq_some.mp asked
  cases same
  have absent := Registry.half_eq_none_of_find? (Registry.find?_eq_none_iff.mpr (Bool.not_eq_true _ ▸ free)) .file
  constructor
  · intro present
    have : (none : Option ServerConfig) = some config := absent.symm.trans present
    cases this
  · rw [done.registry]
    rfl
  · rw [done.registry]
  · intro n
    rw [done.registry, Store.withServer, Dict.get?_insert]

theorem changesOne_remove {name : String} {asks : WriteOutcome}
    (asked : s.write (.remove name asks) = some (cfg, outcome)) (done : Moved s t cfg) : ChangesOne s t name none := by
  obtain ⟨present, same⟩ := Option.ite_none_right_eq_some.mp asked
  cases same
  constructor
  · obtain ⟨server, there⟩ := Dict.mem_keys_iff.mp present
    rw [there]
    exact nofun
  · rw [done.registry]
    rfl
  · rw [done.registry]
  · intro n
    rw [done.registry, Store.withoutServer, Dict.get?_erase]

/-- **A call is clean exactly if no failing write damages the file.** -/
theorem clean_iff : Clean path s c ↔ Spares path s c := by
  constructor
  · intro clean same cfg outcome asked left leaves
    have raised := clean.raised
    rw [call_of_write asked] at raised
    obtain ⟨-, none_, -⟩ | ⟨⟨e, error⟩, failed⟩ := commit_cases path s cfg outcome
    · rw [none_] at leaves
      cases leaves
    · have kept := (raised e error).2
      rw [failed.file, if_pos same, leaves] at kept
      exact kept
  · intro spared
    constructor
    · intro e error
      cases asked : s.write c with
      | none =>
        obtain ⟨same, -⟩ | ⟨config, r, -, -, result⟩ | ⟨name, r, -, -, result⟩ := @call_of_not_write path s c asked
        · rw [same]
          exact ⟨rfl, rfl⟩
        · rw [result] at error
          cases error
        · rw [result] at error
          cases error
      | some write =>
        obtain ⟨cfg, outcome⟩ := write
        rw [call_of_write asked] at error ⊢
        obtain ⟨done, -⟩ | ⟨-, failed⟩ := commit_cases path s cfg outcome
        · rw [done] at error
          cases error
        · exact ⟨failed.registry, failed.file_eq spared asked⟩
    · rintro config outcome rfl returns
      obtain ⟨_, other⟩ | ⟨_, other⟩ | ⟨cfg, _, asked, done⟩ := moved_of_returns returns
      · cases other
      · cases other
      · exact changesOne_add asked done
    · rintro name outcome rfl returns
      obtain ⟨_, other⟩ | ⟨_, other⟩ | ⟨cfg, _, asked, done⟩ := moved_of_returns returns
      · cases other
      · cases other
      · exact changesOne_remove asked done

/-- **Memory and disk stay in step** in every run in which no failing write damages the
file, and each further such call is clean. -/
theorem inStep_run (rt : Runtime) (content : FileContent) (opened : Store.opened rt content = .ok start.toStore)
    (unwritten : start.moved = none ∧ start.written = []) {cs : List RegistryCall}
    (run : Run (guard (calls path) (Spares path)) start cs s) :
    InStep start s ∧ ∀ c, Clean path s c ↔ Spares path s c := by
  have initially : InStep start start ∧ start.Apart := by
    obtain ⟨unmoved, unwritten⟩ := unwritten
    obtain ⟨config, -, loaded⟩ := map_eq_ok_iff.mp opened
    refine ⟨⟨fun _ => ⟨rfl, rfl⟩, fun cfg moved => ?_, rfl, ?_⟩, fun name _ there => ?_⟩
    · rw [unmoved] at moved
      cases moved
    · rw [unwritten]
      exact List.forall_mem_nil _
    · rw [loaded] at there
      cases there
  have keep : ∀ s c t, InStep start s ∧ s.Apart → (t = (s.call path c).1 ∧ Spares path s c) → InStep start t ∧ t.Apart := by
    rintro s c _ ⟨kept, apart⟩ ⟨rfl, spared⟩
    exact ⟨inStep_call kept apart spared, apart_call apart⟩
  have kept : InStep start s ∧ s.Apart := run.preserves keep initially
  exact ⟨kept.1, fun c => clean_iff⟩

end

/-! ## A configuration file called `….tmp` -/

/-- A registry of an empty file. -/
def blank : SavedStore := { toStore := .blank, temporary := none, moved := none, written := [] }

def webServer : ServerConfig := { name := "web", host := "10.0.0.1", user := "u", authType := .agent }

/-- The write of a server fails on the temporary file. -/
theorem inStep_run_fails : InStep blank (blank.call "servers.toml" (.add webServer (.cutShort (.text "")))).1 :=
  (inStep_run .inert (.text "") rfl ⟨rfl, rfl⟩ (.step ⟨rfl, fun bad => absurd bad (by decide)⟩ (.refl _))).1

/-- **A full disk empties `servers.tmp`**, and the registry goes on with what was in it. -/
theorem full_disk_empties : ¬ ∀ (rt : Runtime) (path : String) (content : FileContent) (start s : SavedStore)
    (cs : List RegistryCall), Store.opened rt content = .ok start.toStore →
    start.moved = none ∧ start.written = [] → Run (calls path) start cs s →
    InStep start s ∧ ∀ c, Clean path s c := by
  intro claim
  let full : SavedStore := (blank.call "servers.tmp" (.add webServer .done)).1
  have always := (claim .inert "servers.tmp" (.text "") blank full _ rfl ⟨rfl, rfl⟩ (.step rfl (.refl _))).2
  let more : RegistryCall := .add { webServer with name := "db" } (.cutShort (.text ""))
  have kept := ((always more).raised .writeFailed (by decide +kernel)).2
  have emptied : (full.call "servers.tmp" more).1.file = .text "" := by decide +kernel
  have before : full.file ≠ .text "" := by decide +kernel
  exact before (kept ▸ emptied)

end SavedStore

end McpSsh
