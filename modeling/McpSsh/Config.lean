import McpSsh.Models
import McpSsh.Base.Pointer
import McpSsh.Toml.Document

/-!
# Configuration loading

`config.py`: parsing and validating `servers.toml`, expanding the paths in it,
and the check that no chain of `jump_host` names comes back to where it started.
What the code calls outside the repository is a parameter (`Runtime`): how
pydantic converts a value that is not an integer, and the expansion of `~` and
environment variables.
-/

set_option autoImplicit false

namespace McpSsh

open Base Toml

/-- Behaviour of the libraries and the process environment. -/
structure Runtime where
  /-- pydantic's lax conversion of a value that is not a TOML integer. -/
  coerceInt : Value → Option Int
  /-- `str(Path(os.path.expandvars(p)).expanduser())`; `none` where it raises
  `RuntimeError` because a home directory is unknown. -/
  expandPath : String → Option String

/-- A runtime that converts nothing and leaves every path as it is. -/
def Runtime.inert : Runtime := ⟨fun _ => none, some⟩

/-! ## Validation -/

section

variable (rt : Runtime)

/-- A field that must be a string. -/
def asStr (field : List String) : Value → Except (List String) String
  | .str s => .ok s
  | _ => .error field

def asInt (field : List String) : Value → Except (List String) Int
  | .int n => .ok n
  | v => match rt.coerceInt v with
    | some n => .ok n
    | none => .error field

def asTable (field : List String) : Value → Except (List String) Table
  | .table t => .ok t
  | _ => .error field

/-- A field whose value is the string of an enumeration member. -/
def asEnum {α : Type} (all : List α) (value : α → String) (field : List String) (v : Value) :
    Except (List String) α := do
  let s ← asStr field v
  match ofValue all value s with
  | some a => .ok a
  | none => .error field

/-- A field without a default. -/
def required {α : Type} (read : List String → Value → Except (List String) α) (path : List String)
    (t : Table) (key : String) : Except (List String) α :=
  match lookup key t with
  | some v => read (path ++ [key]) v
  | none => .error (path ++ [key])

/-- A field with a default. -/
def withDefault {α : Type} (read : List String → Value → Except (List String) α) (path : List String)
    (t : Table) (key : String) (default : α) : Except (List String) α :=
  match lookup key t with
  | some v => read (path ++ [key]) v
  | none => .ok default

/-- A field that is `None` when it is not given. -/
def optional {α : Type} (read : List String → Value → Except (List String) α) (path : List String)
    (t : Table) (key : String) : Except (List String) (Option α) :=
  withDefault (fun field v => (read field v).map some) path t key none

/-- A `dict[str, α]`, item by item. -/
def asDict {α : Type} (read : List String → Value → Except (List String) α) (path : List String) (v : Value) :
    Except (List String) (Dict String α) := do
  let t ← asTable path v
  t.foldlM (fun d e => (read (path ++ [e.1]) e.2).map (d.insert e.1)) Dict.empty

/-- `ServerConfig.model_validate`; keys that are no fields are ignored. -/
def validateServer (path : List String) (v : Value) : Except (List String) ServerConfig := do
  let t ← asTable path v
  let name ← required asStr path t "name"
  let host ← required asStr path t "host"
  let port ← withDefault (asInt rt) path t "port" 22
  let user ← required asStr path t "user"
  let authType ← required (asEnum AuthType.all AuthType.value) path t "auth_type"
  let keyPath ← optional asStr path t "key_path"
  let certPath ← optional asStr path t "cert_path"
  let passwordEnv ← optional asStr path t "password_env"
  let jumpHost ← optional asStr path t "jump_host"
  let hostKeyPolicy ← optional (asEnum HostKeyPolicy.all HostKeyPolicy.value) path t "host_key_policy"
  let defaultCwd ← optional asStr path t "default_cwd"
  let defaultEnv ← withDefault (asDict asStr) path t "default_env" Dict.empty
  let maxSessions ← optional (asInt rt) path t "max_sessions"
  let keepaliveInterval ← optional (asInt rt) path t "keepalive_interval"
  let note ← optional asStr path t "note"
  return { name, host, port, user, authType, keyPath, certPath, passwordEnv, jumpHost, hostKeyPolicy,
           defaultCwd, defaultEnv, maxSessions, keepaliveInterval, note }

/-- `GlobalSettings.model_validate`. -/
def validateSettings (path : List String) (v : Value) : Except (List String) GlobalSettings := do
  let t ← asTable path v
  let d : GlobalSettings := {}
  let knownHostsFile ← withDefault asStr path t "known_hosts_file" d.knownHostsFile
  let defaultHostKeyPolicy ← withDefault (asEnum HostKeyPolicy.all HostKeyPolicy.value) path t
    "default_host_key_policy" d.defaultHostKeyPolicy
  let auditLog ← withDefault asStr path t "audit_log" d.auditLog
  let stateFile ← withDefault asStr path t "state_file" d.stateFile
  let maxSessions ← withDefault (asInt rt) path t "max_sessions" d.maxSessions
  let keepaliveInterval ← withDefault (asInt rt) path t "keepalive_interval" d.keepaliveInterval
  let keepaliveCountMax ← withDefault (asInt rt) path t "keepalive_count_max" d.keepaliveCountMax
  let connectTimeout ← withDefault (asInt rt) path t "connect_timeout" d.connectTimeout
  let defaultEncoding ← withDefault asStr path t "default_encoding" d.defaultEncoding
  return { knownHostsFile, defaultHostKeyPolicy, auditLog, stateFile, maxSessions, keepaliveInterval,
           keepaliveCountMax, connectTimeout, defaultEncoding }

/-- `AppConfig.model_validate`. -/
def validateConfig (t : Table) : Except (List String) AppConfig := do
  let settings ← withDefault (validateSettings rt) [] t "settings" {}
  let servers ← withDefault (asDict (validateServer rt)) [] t "servers" Dict.empty
  return { settings, servers }

/-! ## Path expansion -/

/-- Expand an optional path field. -/
def expandOption (p : Option String) : Option (Option String) :=
  match p with
  | none => some none
  | some p => (rt.expandPath p).map some

/-- `_expand_paths_in_server`. -/
def expandPathsInServer (server : ServerConfig) : Option ServerConfig := do
  let keyPath ← expandOption rt server.keyPath
  let certPath ← expandOption rt server.certPath
  let defaultCwd ← expandOption rt server.defaultCwd
  return { server with keyPath, certPath, defaultCwd }

/-- `_expand_paths_in_settings`. -/
def expandPathsInSettings (settings : GlobalSettings) : Option GlobalSettings := do
  let knownHostsFile ← rt.expandPath settings.knownHostsFile
  let auditLog ← rt.expandPath settings.auditLog
  let stateFile ← rt.expandPath settings.stateFile
  return { settings with knownHostsFile, auditLog, stateFile }

/-- Expand every server of a map, in order. -/
def expandServers (servers : Dict String ServerConfig) : Option (Dict String ServerConfig) :=
  servers.items.foldlM (fun d e => (expandPathsInServer rt e.2).map (d.insert e.1)) Dict.empty

end

/-! ## Jump hosts -/

/-- The name a server jumps through, when the server is known. -/
def jumpOf (get : String → Option ServerConfig) (name : String) : Option String :=
  (get name).bind ServerConfig.jumpHost

/-- `_has_cycle`: follow `jump_host` from `start` with the set of visited names.
One turn more than there are servers always ends the loop. -/
def hasCycle (servers : Dict String ServerConfig) (start : String) : Option Bool :=
  revisits (jumpOf servers.get?) (servers.items.length + 1) [] (some start)

/-- `_detect_circular_jumps`. -/
def detectCircularJumps (servers : Dict String ServerConfig) : Except McpSshError Unit :=
  match servers.keys.find? fun name => hasCycle servers name ≠ some false with
  | some name => .error (.circularJump name)
  | none => .ok ()

/-! ## Loading -/

/-- What reading the file gives. -/
inductive FileContent where
  | unreadable
  /-- Bytes that are not UTF-8. -/
  | undecodable
  | text (s : String)
deriving DecidableEq

/-- What `load_config` raises: its own error, or one it lets through. -/
inductive LoadError where
  | mcpSsh (e : McpSshError)
  | unicodeDecode
  | runtime
deriving DecidableEq

/-- `load_config`. -/
def loadConfig (rt : Runtime) (content : FileContent) : Except LoadError AppConfig :=
  match content with
  | .unreadable => .error (.mcpSsh (.loadFailed .notParsed))
  | .undecodable => .error .unicodeDecode
  | .text s =>
    match loads s with
    | .error _ => .error (.mcpSsh (.loadFailed .notParsed))
    | .ok raw =>
      match validateConfig rt raw with
      | .error field => .error (.mcpSsh (.loadFailed (.invalid field)))
      | .ok cfg =>
        match expandPathsInSettings rt cfg.settings, expandServers rt cfg.servers with
        | some settings, some servers =>
          match detectCircularJumps servers with
          | .error e => .error (.mcpSsh e)
          | .ok () => .ok { settings, servers }
        | _, _ => .error .runtime

end McpSsh
