import McpSsh.JumpGraph
import McpSsh.Base.Trace

/-!
# Two writers of one file

Users save `servers.toml`, and the registry writes it from its memory when a server is
added or removed. What a user saved is lost when the registry writes before it has
reloaded the file.
-/

set_option autoImplicit false

namespace McpSsh

open Base Toml

/-! ## Runs, with what was saved -/

/-- The registry with its file, and the servers that users have saved and that nobody has
removed since, as `load_config` gives them. -/
structure EditState where
  store : Store
  saved : String → Option ServerConfig

namespace EditState

/-- The saved servers that are still to be there after an operation. -/
def savedAfter (s : EditState) : RegistryOp → String → Option ServerConfig
  | .remove name writes => fun n => if s.store.writesFile (.remove name writes) ∧ n = name then none else s.saved n
  | _ => s.saved

/-- An operation of the registry, or a user who saves a valid file. -/
def step (rt : Runtime) (s : EditState) : RegistryOp → Option EditState
  | .edit file => (loadConfig rt file).toOption.map fun cfg => ⟨s.store.after rt (.edit file), cfg.servers.get?⟩
  | op => some ⟨s.store.after rt op, s.savedAfter op⟩

/-- A registry just loaded; its file counts as saved. -/
def Initial (rt : Runtime) (s : EditState) : Prop :=
  ∃ file, Store.opened rt file = .ok s.store ∧ s.saved = s.store.registry.config.servers.get?

/-- Every saved server is in the file, and in the registry after a reload. -/
def NothingLost (rt : Runtime) (s : EditState) : Prop :=
  ∀ name server, s.saved name = some server →
    (∃ cfg, loadConfig rt s.store.file = .ok cfg ∧ cfg.servers.get? name = some server) ∧
      (s.store.after rt .reload).registry.config.servers.get? name = some server

/-! ## What is safe to write -/

/-- The configuration that an operation writes. -/
def written (s : EditState) : RegistryOp → Option AppConfig
  | .add config writes => if s.store.writesFile (.add config writes) then some (s.store.withServer config) else none
  | .remove name writes => if s.store.writesFile (.remove name writes) then some (s.store.withoutServer name) else none
  | _ => none

end EditState

/-- The text of a configuration is read back with the same servers. -/
def ReadsBack (rt : Runtime) (cfg : AppConfig) : Prop :=
  ∃ settings, loadConfig rt (.text (appConfigToToml cfg)) = .ok { settings, servers := cfg.servers }

namespace EditState

/-- What is written comes from a memory that knows every saved server, and reads back. -/
def UpToDate (rt : Runtime) (s : EditState) (op : RegistryOp) : Prop :=
  ∀ cfg, s.written op = some cfg →
    (∀ name server, s.savedAfter op name = some server → cfg.servers.get? name = some server) ∧ ReadsBack rt cfg

end EditState

/-- **Plain strings, paths that stay as they are and no cycle**: such a configuration is
read back. -/
theorem loadConfig_of_writable {rt : Runtime} {cfg : AppConfig} {settings : GlobalSettings} (writable : Writable cfg)
    (known : expandPathsInSettings rt cfg.settings = some settings)
    (expanded : expandServers rt cfg.servers = some cfg.servers) (acyclic : Acyclic (jumpOf cfg.servers.get?)) :
    loadConfig rt (.text (appConfigToToml cfg)) = .ok { settings, servers := cfg.servers } := by
  obtain ⟨t, parsed, valid⟩ := roundTrips_of_writable rt writable
  have checked := detectCircularJumps_ok_iff.mpr acyclic
  simp [loadConfig, parsed, valid, known, expanded, checked]

namespace EditState

section

variable {rt : Runtime} {s t : EditState} {op : RegistryOp}

/-- Servers that the file has are in the registry after a reload. -/
theorem nothingLost_iff : s.NothingLost rt ↔ ∀ name server, s.saved name = some server →
    ∃ cfg, loadConfig rt s.store.file = .ok cfg ∧ cfg.servers.get? name = some server := by
  refine ⟨fun kept name server saved => (kept name server saved).1, fun kept name server saved => ?_⟩
  obtain ⟨cfg, loaded, there⟩ := kept name server saved
  refine ⟨⟨cfg, loaded, there⟩, ?_⟩
  have reloaded := Store.reload_ok_iff.mpr ⟨cfg, loaded, rfl⟩
  rw [Store.after, reloaded]
  exact there

theorem file_of_not_writes (not : s.store.writesFile op = false) (noEdit : ∀ file, op ≠ .edit file) :
    (s.store.after rt op).file = s.store.file := by
  cases op with
  | edit file => exact absurd rfl (noEdit file)
  | add config writes =>
    cases result : s.store.add writes config with
    | error e => simp [Store.after, result, Except.toOption]
    | ok u =>
      obtain ⟨free, rfl, -⟩ := Store.add_ok_iff.mp result
      simp [Store.writesFile, free] at not
  | remove name writes =>
    cases result : s.store.remove writes name with
    | error e => simp [Store.after, result, Except.toOption]
    | ok u =>
      obtain ⟨present, rfl, -⟩ := Store.remove_ok_iff.mp result
      simp [Store.writesFile, present] at not
  | addEphemeral config =>
    cases result : s.store.registry.addEphemeral config <;> simp [Store.after, result, Except.toOption]
  | removeEphemeral name =>
    cases result : s.store.registry.removeEphemeral name <;> simp [Store.after, result, Except.toOption]
  | reload =>
    cases result : s.store.reload rt with
    | error e => simp [Store.after, result, Except.toOption]
    | ok u =>
      obtain ⟨cfg, -, rfl⟩ := Store.reload_ok_iff.mp result
      simp [Store.after, result, Except.toOption]

theorem file_of_written {cfg : AppConfig} (writes : s.written op = some cfg) :
    (s.store.after rt op).file = .text (appConfigToToml cfg) := by
  cases op with
  | add config allowed =>
    obtain ⟨wrote, ⟨⟩⟩ := Option.ite_none_right_eq_some.mp writes
    simp only [Store.writesFile, Bool.and_eq_true, Bool.not_eq_true'] at wrote
    rw [Store.after, Store.add_ok_iff.mpr ⟨wrote.2, wrote.1, rfl⟩]
    rfl
  | remove name allowed =>
    obtain ⟨wrote, ⟨⟩⟩ := Option.ite_none_right_eq_some.mp writes
    simp only [Store.writesFile, Bool.and_eq_true, decide_eq_true_eq] at wrote
    rw [Store.after, Store.remove_ok_iff.mpr ⟨wrote.2, wrote.1, rfl⟩]
    rfl
  | _ => cases writes

/-- What one step does: it leaves the file alone, or it writes a configuration of the
registry, or a user saves a valid file. -/
theorem step_cases (stepped : s.step rt op = some t) :
    (s.written op = none ∧ t.store.file = s.store.file ∧ t.saved = s.saved) ∨
    (∃ cfg, s.written op = some cfg ∧ t.store.file = .text (appConfigToToml cfg) ∧ t.saved = s.savedAfter op) ∨
    ∃ file cfg, op = .edit file ∧ loadConfig rt t.store.file = .ok cfg ∧ t.saved = cfg.servers.get? := by
  by_cases edits : ∃ file, op = .edit file
  · obtain ⟨file, rfl⟩ := edits
    obtain ⟨cfg, loaded, rfl⟩ := Option.map_eq_some_iff.mp stepped
    refine .inr (.inr ⟨file, cfg, rfl, ?_, rfl⟩)
    cases result : loadConfig rt file with
    | error e =>
      rw [result] at loaded
      cases loaded
    | ok cfg' =>
      rw [result] at loaded
      obtain rfl := Option.some.inj loaded
      exact result
  have noEdit : ∀ file, op ≠ .edit file := fun file same => edits ⟨file, same⟩
  have moved : t = ⟨s.store.after rt op, s.savedAfter op⟩ := by
    cases op with
    | edit file => exact absurd rfl (noEdit file)
    | _ => exact (Option.some.inj stepped).symm
  subst moved
  cases writes : s.written op with
  | some cfg => exact .inr (.inl ⟨cfg, rfl, file_of_written writes, rfl⟩)
  | none =>
    have not : s.store.writesFile op = false := by
      cases op with
      | add config allowed => simpa [written] using writes
      | remove name allowed => simpa [written] using writes
      | _ => rfl
    refine .inl ⟨rfl, file_of_not_writes not noEdit, ?_⟩
    cases op with
    | remove name writes' =>
      funext n
      exact if_neg fun both => by rw [not] at both; cases both.1
    | _ => rfl

/-- **A write that reads back loses nothing** exactly if what it writes has every saved
server. -/
theorem nothingLost_write_iff {cfg : AppConfig} (stepped : s.step rt op = some t) (writes : s.written op = some cfg)
    (readable : ReadsBack rt cfg) : t.NothingLost rt ↔
      ∀ name server, s.savedAfter op name = some server → cfg.servers.get? name = some server := by
  obtain ⟨none_, -⟩ | ⟨cfg', writes', file, saved⟩ | edited := step_cases stepped
  · rw [writes] at none_
    cases none_
  · obtain rfl := Option.some.inj (writes.symm.trans writes')
    obtain ⟨settings, loaded⟩ := readable
    rw [nothingLost_iff, file, saved]
    refine forall₂_congr fun name server => imp_congr_right fun _ => ⟨?_, fun there => ⟨_, loaded, there⟩⟩
    rintro ⟨cfg', loaded', there⟩
    obtain rfl := Except.ok.inj (loaded.symm.trans loaded')
    exact there
  · obtain ⟨file, -, rfl, -⟩ := edited
    cases writes

/-- No step from an up-to-date memory loses a saved server. -/
theorem NothingLost.step (kept : s.NothingLost rt) (stepped : s.step rt op = some t) (fresh : s.UpToDate rt op) :
    t.NothingLost rt := by
  obtain ⟨-, file, saved⟩ | ⟨cfg, writes, -⟩ | ⟨file, cfg, -, loaded, saved⟩ := step_cases stepped
  · rw [nothingLost_iff, file, saved]
    exact nothingLost_iff.mp kept
  · obtain ⟨known, readable⟩ := fresh cfg writes
    exact (nothingLost_write_iff stepped writes readable).mpr known
  · rw [nothingLost_iff, saved]
    exact fun name server there => ⟨cfg, loaded, there⟩

theorem Initial.nothingLost (initial : s.Initial rt) : s.NothingLost rt := by
  obtain ⟨file, opened, saved⟩ := initial
  obtain ⟨cfg, loaded, store⟩ := map_eq_ok_iff.mp opened
  rw [nothingLost_iff, saved, store]
  exact fun name server there => ⟨cfg, loaded, there⟩

/-- **No edit is lost** in any run that writes only from a memory that knows every saved
server, and only what reads back. -/
theorem nothing_lost {ops : List RegistryOp} (initial : s.Initial rt)
    (run : Run (guard (ofFunction (EditState.step rt)) (UpToDate rt)) s ops t) : t.NothingLost rt :=
  run.preserves (fun _ _ _ kept stepped => kept.step stepped.1 stepped.2) initial.nothingLost

end

/-! ## Two runs -/

def agentServer (name : String) : ServerConfig := { name, host := "10.0.0.1", user := "root", authType := .agent }

theorem writable_agentServer {name : String} (bare : isBareKey name = true) (plain : isPlain name = true) :
    WritableServer name (agentServer name) where
  bareName := bare
  name := plain
  host := show isPlain "10.0.0.1" = true by decide
  user := show isPlain "root" = true by decide
  keyPath := by rintro _ ⟨⟩
  certPath := by rintro _ ⟨⟩
  passwordEnv := by rintro _ ⟨⟩
  jumpHost := by rintro _ ⟨⟩
  defaultCwd := by rintro _ ⟨⟩
  defaultEnv := by rintro _ ⟨⟩
  note := by rintro _ ⟨⟩

/-- A file that a user saves. -/
def savedConfig : AppConfig := { servers := Dict.empty.insert "web" (agentServer "web") }

/-- What the registry writes that adds a server to it, and to an empty file. -/
def bothServers : AppConfig := { servers := savedConfig.servers.insert "db" (agentServer "db") }

def addedServer : AppConfig := { servers := Dict.empty.insert "db" (agentServer "db") }

theorem writable_bothServers : Writable bothServers := by
  refine ⟨⟨by decide, by decide, by decide, by decide⟩, ?_⟩
  intro e member
  have items : bothServers.servers.items = [("web", agentServer "web"), ("db", agentServer "db")] := rfl
  rw [items] at member
  obtain rfl | rfl : e = ("web", agentServer "web") ∨ e = ("db", agentServer "db") := by simpa using member
  · exact writable_agentServer (by decide) (by decide)
  · exact writable_agentServer (by decide) (by decide)

theorem loads_savedConfig : loadConfig .inert (.text (appConfigToToml savedConfig)) = .ok savedConfig := by
  refine loadConfig_of_writable ⟨writable_bothServers.settings, fun e member => ?_⟩ rfl rfl
    (detectCircularJumps_ok_iff.mp (by decide))
  exact writable_bothServers.servers e (List.mem_append_left _ member)

theorem loads_bothServers : loadConfig .inert (.text (appConfigToToml bothServers)) = .ok bothServers :=
  loadConfig_of_writable writable_bothServers rfl rfl (detectCircularJumps_ok_iff.mp (by decide))

theorem loads_addedServer : loadConfig .inert (.text (appConfigToToml addedServer)) = .ok addedServer := by
  refine loadConfig_of_writable ⟨writable_bothServers.settings, fun e member => ?_⟩ rfl rfl
    (detectCircularJumps_ok_iff.mp (by decide))
  exact writable_bothServers.servers e (List.mem_append_right _ member)

def justOpened : EditState := ⟨.blank, fun _ => none⟩

theorem justOpened_initial : justOpened.Initial .inert := ⟨.text "", Store.opened_blank, rfl⟩

/-- After the save, and after the reload that follows. -/
def afterSave : EditState := ⟨⟨⟨{}, .empty⟩, .text (appConfigToToml savedConfig)⟩, savedConfig.servers.get?⟩

def afterReload : EditState :=
  ⟨⟨⟨savedConfig, .empty⟩, .text (appConfigToToml savedConfig)⟩, savedConfig.servers.get?⟩

theorem step_save :
    justOpened.step .inert (.edit (.text (appConfigToToml savedConfig))) = some afterSave := by
  simp only [step, loads_savedConfig]
  rfl

theorem step_reload : afterSave.step .inert .reload = some afterReload := by
  simp only [step, afterSave, Store.after, Store.reload, loads_savedConfig]
  rfl

theorem add_upToDate : afterReload.UpToDate .inert (.add (agentServer "db") true) := by
  rintro _ ⟨⟩
  refine ⟨fun name server saved => ?_, _, loads_bothServers⟩
  have old : name ≠ "db" := by
    rintro rfl
    cases saved
  exact Dict.get?_insert.trans ((if_neg old).trans saved)

/-- The registry reloads what a user saved, and then adds a server. -/
theorem nothing_lost_reloaded : ∃ s ops t, s.Initial .inert ∧
    Run (guard (ofFunction (EditState.step .inert)) (UpToDate .inert)) s ops t ∧
      (t.saved "web").isSome = true ∧ t.NothingLost .inert := by
  have run : Run (guard (ofFunction (EditState.step .inert)) (UpToDate .inert)) justOpened
      [.edit (.text (appConfigToToml savedConfig)), .reload, .add (agentServer "db") true] _ :=
    .step ⟨step_save, by rintro _ ⟨⟩⟩ (.step ⟨step_reload, by rintro _ ⟨⟩⟩ (.step ⟨rfl, add_upToDate⟩ (.refl _)))
  exact ⟨justOpened, _, _, justOpened_initial, run, rfl, nothing_lost justOpened_initial run⟩

/-- The registry adds a server before it reloads: what the user saved is gone. -/
theorem save_overwritten : ¬ ∀ (rt : Runtime) (s : EditState) (ops : List RegistryOp) (t : EditState),
    s.Initial rt → Run (ofFunction (EditState.step rt)) s ops t → t.NothingLost rt := by
  intro all
  have run : Run (ofFunction (EditState.step .inert)) justOpened
      [.edit (.text (appConfigToToml savedConfig)), .add (agentServer "db") true] _ :=
    .step step_save (.step rfl (.refl _))
  obtain ⟨⟨cfg, loaded, there⟩, -⟩ := all .inert _ _ _ justOpened_initial run "web" (agentServer "web") rfl
  obtain rfl := Except.ok.inj (loads_addedServer.symm.trans loaded)
  cases there

end EditState

end McpSsh
