import McpSsh.ConfigText

/-!
# The server registry

`registry.py`: servers from the configuration file, overlaid by servers that live
in memory only. Adding or removing a file-backed server rewrites the file; a
change of the file on disk is picked up by a reload, which keeps the old
configuration when the new file does not load.
-/

set_option autoImplicit false

namespace McpSsh

open Base

structure Registry where
  config : AppConfig
  ephemeral : Dict String ServerConfig

namespace Registry

/-- The server a name resolves to; ephemeral servers take precedence. -/
def find? (r : Registry) (name : String) : Option ServerConfig :=
  (r.ephemeral.get? name).or (r.config.servers.get? name)

/-- `Registry.get`. -/
def get (r : Registry) (name : String) : Except McpSshError ServerConfig :=
  match r.find? name with
  | some server => .ok server
  | none => .error (.serverNotFound name)

def listAll (r : Registry) : List ServerConfig := r.config.servers.values ++ r.ephemeral.values

/-- `name` belongs to a file-backed or an ephemeral server. -/
def taken (r : Registry) (name : String) : Bool := name ∈ r.config.servers.keys || name ∈ r.ephemeral.keys

/-- The registered names. -/
def names (r : Registry) : List String := r.config.servers.keys ++ r.ephemeral.keys

/-- `Registry.add_ephemeral`. -/
def addEphemeral (r : Registry) (config : ServerConfig) : Except McpSshError Registry :=
  if r.taken config.name then .error (.serverAlreadyExists config.name)
  else .ok { r with ephemeral := r.ephemeral.insert config.name config }

/-- `Registry.remove_ephemeral`. -/
def removeEphemeral (r : Registry) (name : String) : Except McpSshError Registry :=
  if name ∈ r.ephemeral.keys then .ok { r with ephemeral := r.ephemeral.erase name }
  else .error (.serverNotFound name)

end Registry

/-- The two places an entry can be in. -/
inductive Half where
  | file
  | ephemeral
deriving DecidableEq

/-- The half a tool registers in. -/
def Half.of (persist : Bool) : Half := if persist then .file else .ephemeral

/-- The entries of one half of the registry. -/
def Registry.half (r : Registry) : Half → Dict String ServerConfig
  | .file => r.config.servers
  | .ephemeral => r.ephemeral

/-! ## The registry and its file -/

/-- The registry with what `servers.toml` holds. -/
structure Store where
  registry : Registry
  file : FileContent

namespace Store

/-- The configuration `Registry.add` wants to write. -/
def withServer (s : Store) (config : ServerConfig) : AppConfig :=
  { s.registry.config with servers := s.registry.config.servers.insert config.name config }

/-- The configuration `Registry.remove` wants to write. -/
def withoutServer (s : Store) (name : String) : AppConfig :=
  { s.registry.config with servers := s.registry.config.servers.erase name }

/-- `_write_config` followed by the assignment of the new configuration.
`writes` tells whether the file system lets the file be replaced. -/
def commit (s : Store) (writes : Bool) (cfg : AppConfig) : Except McpSshError Store :=
  if writes then .ok { registry := { s.registry with config := cfg }, file := .text (appConfigToToml cfg) }
  else .error .writeFailed

/-- `Registry.add`. -/
def add (s : Store) (writes : Bool) (config : ServerConfig) : Except McpSshError Store :=
  if s.registry.taken config.name then .error (.serverAlreadyExists config.name)
  else s.commit writes (s.withServer config)

/-- `Registry.remove`. -/
def remove (s : Store) (writes : Bool) (name : String) : Except McpSshError Store :=
  if name ∈ s.registry.config.servers.keys then s.commit writes (s.withoutServer name)
  else .error (.serverNotFound name)

/-- `registry.add` or `registry.add_ephemeral`. -/
def addTo (persist writes : Bool) (s : Store) (config : ServerConfig) : Except McpSshError Store :=
  if persist then s.add writes config
  else (s.registry.addEphemeral config).map fun r => { s with registry := r }

/-- `registry.remove` or `registry.remove_ephemeral`. -/
def removeFrom (persist writes : Bool) (s : Store) (name : String) : Except McpSshError Store :=
  if persist then s.remove writes name
  else (s.registry.removeEphemeral name).map fun r => { s with registry := r }

/-- One turn of `Registry.watch`. -/
def reload (rt : Runtime) (s : Store) : Except LoadError Store :=
  (loadConfig rt s.file).map fun cfg => { s with registry := { s.registry with config := cfg } }

end Store

/-- The registry as the constructor leaves it. -/
def Store.opened (rt : Runtime) (file : FileContent) : Except LoadError Store :=
  (loadConfig rt file).map fun config => { registry := { config, ephemeral := Dict.empty }, file }

/-- The registry of an empty file. -/
def Store.blank : Store := ⟨⟨{}, Dict.empty⟩, .text ""⟩

theorem Store.opened_blank : Store.opened .inert (.text "") = .ok .blank := rfl

/-- What happens to the registry and its file. -/
inductive RegistryOp where
  | add (config : ServerConfig) (writes : Bool)
  | remove (name : String) (writes : Bool)
  | addEphemeral (config : ServerConfig)
  | removeEphemeral (name : String)
  /-- The file is changed from outside. -/
  | edit (file : FileContent)
  | reload
deriving DecidableEq

/-- The state after an operation; one that fails changes nothing. -/
def Store.after (rt : Runtime) (s : Store) : RegistryOp → Store
  | .add config writes => (s.add writes config).toOption.getD s
  | .remove name writes => (s.remove writes name).toOption.getD s
  | .addEphemeral config => ((s.registry.addEphemeral config).toOption.map fun r => { s with registry := r }).getD s
  | .removeEphemeral name => ((s.registry.removeEphemeral name).toOption.map fun r => { s with registry := r }).getD s
  | .edit file => { s with file }
  | .reload => (s.reload rt).toOption.getD s

/-- The operation writes the file of the registry. -/
def Store.writesFile (s : Store) : RegistryOp → Bool
  | .add config writes => writes && !s.registry.taken config.name
  | .remove name writes => writes && name ∈ s.registry.config.servers.keys
  | _ => false

namespace Registry

theorem get_ok_iff {r : Registry} {name : String} {cfg : ServerConfig} :
    r.get name = .ok cfg ↔ r.find? name = some cfg := by
  unfold get
  cases r.find? name <;> simp

theorem find?_eq_none_iff {r : Registry} {name : String} : r.find? name = none ↔ r.taken name = false := by
  simp only [find?, Option.or_eq_none_iff, Dict.get?_eq_none_iff, taken, Bool.or_eq_false_iff, decide_eq_false_iff_not]
  exact and_comm

theorem mem_names_iff {r : Registry} {name : String} : name ∈ r.names ↔ (r.find? name).isSome := by
  rw [Option.isSome_iff_ne_none, ne_eq, find?_eq_none_iff, Bool.not_eq_false, taken, Bool.or_eq_true,
    decide_eq_true_eq, decide_eq_true_eq]
  exact List.mem_append

theorem addEphemeral_ok_iff {r r' : Registry} {config : ServerConfig} : r.addEphemeral config = .ok r' ↔
    r.taken config.name = false ∧ r' = { r with ephemeral := r.ephemeral.insert config.name config } := by
  unfold addEphemeral
  cases r.taken config.name <;> simp [eq_comm]

theorem removeEphemeral_ok_iff {r r' : Registry} {name : String} : r.removeEphemeral name = .ok r' ↔
    name ∈ r.ephemeral.keys ∧ r' = { r with ephemeral := r.ephemeral.erase name } := by
  unfold removeEphemeral
  by_cases present : name ∈ r.ephemeral.keys <;> simp [present, eq_comm]

theorem half_eq_none_of_find? {r : Registry} {name : String} (free : r.find? name = none) (half : Half) :
    (r.half half).get? name = none := by
  simp only [find?, Option.or_eq_none_iff] at free
  cases half
  · exact free.2
  · exact free.1

theorem find?_addEphemeral {r r' : Registry} {config : ServerConfig} (added : r.addEphemeral config = .ok r')
    (name : String) : r'.find? name = if name = config.name then some config else r.find? name := by
  obtain ⟨-, rfl⟩ := addEphemeral_ok_iff.mp added
  by_cases same : name = config.name <;> simp [find?, Dict.get?_insert, same]

theorem find?_removeEphemeral {r r' : Registry} {gone : String} (removed : r.removeEphemeral gone = .ok r')
    (name : String) : r'.find? name = if name = gone then r.config.servers.get? name else r.find? name := by
  obtain ⟨-, rfl⟩ := removeEphemeral_ok_iff.mp removed
  by_cases same : name = gone <;> simp [find?, Dict.get?_erase, same]

end Registry

namespace Store

/-! ## What one operation can do -/

theorem add_ok_iff {s s' : Store} {writes : Bool} {config : ServerConfig} : s.add writes config = .ok s' ↔
    s.registry.taken config.name = false ∧ writes = true ∧
      s' = ⟨{ s.registry with config := s.withServer config }, .text (appConfigToToml (s.withServer config))⟩ := by
  unfold add commit
  cases s.registry.taken config.name <;> cases writes <;> simp [eq_comm]

theorem remove_ok_iff {s s' : Store} {writes : Bool} {name : String} : s.remove writes name = .ok s' ↔
    name ∈ s.registry.config.servers.keys ∧ writes = true ∧
      s' = ⟨{ s.registry with config := s.withoutServer name }, .text (appConfigToToml (s.withoutServer name))⟩ := by
  unfold remove commit
  by_cases present : name ∈ s.registry.config.servers.keys <;> cases writes <;> simp [present, eq_comm]

/-- An added server is new to the registry, and nothing else changes. -/
theorem addTo_spec {persist writes : Bool} {s s' : Store} {config : ServerConfig}
    (added : s.addTo persist writes config = .ok s') : s.registry.find? config.name = none ∧
      ∀ half entry, (s'.registry.half half).get? entry =
        if half = .of persist ∧ entry = config.name then some config else (s.registry.half half).get? entry := by
  cases persist with
  | true =>
    obtain ⟨free, -, rfl⟩ := add_ok_iff.mp added
    refine ⟨Registry.find?_eq_none_iff.mpr free, fun half entry => ?_⟩
    cases half <;> simp [Registry.half, Half.of, withServer, Dict.get?_insert]
  | false =>
    obtain ⟨r, inMemory, rfl⟩ := map_eq_ok_iff.mp added
    obtain ⟨free, rfl⟩ := Registry.addEphemeral_ok_iff.mp inMemory
    refine ⟨Registry.find?_eq_none_iff.mpr free, fun half entry => ?_⟩
    cases half <;> simp [Registry.half, Half.of, Dict.get?_insert]

/-- A removed server is gone from its half, and nothing else changes. -/
theorem removeFrom_spec {persist writes : Bool} {s s' : Store} {name : String}
    (removed : s.removeFrom persist writes name = .ok s') (half : Half) (entry : String) :
    (s'.registry.half half).get? entry =
      if half = .of persist ∧ entry = name then none else (s.registry.half half).get? entry := by
  cases persist with
  | true =>
    obtain ⟨-, -, rfl⟩ := remove_ok_iff.mp removed
    cases half <;> simp [Registry.half, Half.of, withoutServer, Dict.get?_erase]
  | false =>
    obtain ⟨r, inMemory, rfl⟩ := map_eq_ok_iff.mp removed
    obtain ⟨-, rfl⟩ := Registry.removeEphemeral_ok_iff.mp inMemory
    cases half <;> simp [Registry.half, Half.of, Dict.get?_erase]

theorem reload_ok_iff {rt : Runtime} {s s' : Store} : s.reload rt = .ok s' ↔
    ∃ cfg, loadConfig rt s.file = .ok cfg ∧ s' = { s with registry := { s.registry with config := cfg } } :=
  map_eq_ok_iff

/-- **A failed operation leaves the registry as it was.** Otherwise the operation
is one of those below. -/
theorem after_cases (rt : Runtime) (s : Store) (op : RegistryOp) :
    (s.after rt op).registry = s.registry ∨
    (∃ config writes, op = .add config writes ∧ s.add writes config = .ok (s.after rt op)) ∨
    (∃ name writes, op = .remove name writes ∧ s.remove writes name = .ok (s.after rt op)) ∨
    (∃ config, op = .addEphemeral config ∧ s.registry.addEphemeral config = .ok (s.after rt op).registry) ∨
    (∃ name, op = .removeEphemeral name ∧ s.registry.removeEphemeral name = .ok (s.after rt op).registry) ∨
    (op = .reload ∧ s.reload rt = .ok (s.after rt op)) := by
  cases op with
  | add config writes =>
    cases result : s.add writes config with
    | error e => exact .inl (by simp [after, result, Except.toOption])
    | ok t => exact .inr (.inl ⟨config, writes, rfl, by simp [after, result, Except.toOption]⟩)
  | remove name writes =>
    cases result : s.remove writes name with
    | error e => exact .inl (by simp [after, result, Except.toOption])
    | ok t => exact .inr (.inr (.inl ⟨name, writes, rfl, by simp [after, result, Except.toOption]⟩))
  | addEphemeral config =>
    cases result : s.registry.addEphemeral config with
    | error e => exact .inl (by simp [after, result, Except.toOption])
    | ok t => exact .inr (.inr (.inr (.inl ⟨config, rfl, by simp [after, result, Except.toOption]⟩)))
  | removeEphemeral name =>
    cases result : s.registry.removeEphemeral name with
    | error e => exact .inl (by simp [after, result, Except.toOption])
    | ok t => exact .inr (.inr (.inr (.inr (.inl ⟨name, rfl, by simp [after, result, Except.toOption]⟩))))
  | edit file => exact .inl rfl
  | reload =>
    cases result : s.reload rt with
    | error e => exact .inl (by simp [after, result, Except.toOption])
    | ok t => exact .inr (.inr (.inr (.inr (.inr ⟨rfl, by simp [after, result, Except.toOption]⟩))))

end Store

end McpSsh
