import McpSsh.Base.Dict

/-!
# Data models

The records of `models.py` that the registry, the connection pool, the tools and
the discovery engine pass around, and the errors of `exceptions.py` with the
data their messages carry. A `dict` of the source is an insertion-ordered `Dict`.
-/

set_option autoImplicit false

namespace McpSsh

open Base

inductive AuthType where
  | agent
  | key
  | password
  | cert
  | sk
  | keyboardInteractive
  | gssapi
deriving DecidableEq

/-- The string an `AuthType` is written as. -/
def AuthType.value : AuthType → String
  | agent => "agent"
  | key => "key"
  | password => "password"
  | cert => "cert"
  | sk => "sk"
  | keyboardInteractive => "keyboard_interactive"
  | gssapi => "gssapi"

def AuthType.all : List AuthType := [agent, key, password, cert, sk, keyboardInteractive, gssapi]

inductive HostKeyPolicy where
  | tofu
  | strict
  | acceptNew
deriving DecidableEq

/-- The string a `HostKeyPolicy` is written as. -/
def HostKeyPolicy.value : HostKeyPolicy → String
  | tofu => "tofu"
  | strict => "strict"
  | acceptNew => "accept_new"

def HostKeyPolicy.all : List HostKeyPolicy := [tofu, strict, acceptNew]

inductive ConnectionStatus where
  | connected
  | disconnected
  | connecting
deriving DecidableEq

/-- The member of an enumeration written as `s`. -/
def ofValue {α : Type} (all : List α) (value : α → String) (s : String) : Option α :=
  all.find? fun a => value a = s

theorem AuthType.ofValue_value (a : AuthType) : ofValue AuthType.all AuthType.value a.value = some a := by
  cases a <;> decide

theorem HostKeyPolicy.ofValue_value (p : HostKeyPolicy) :
    ofValue HostKeyPolicy.all HostKeyPolicy.value p.value = some p := by
  cases p <;> decide

structure ServerConfig where
  name : String
  host : String
  port : Int := 22
  user : String
  authType : AuthType
  keyPath : Option String := none
  certPath : Option String := none
  passwordEnv : Option String := none
  /-- The name of another server to tunnel through. -/
  jumpHost : Option String := none
  hostKeyPolicy : Option HostKeyPolicy := none
  defaultCwd : Option String := none
  defaultEnv : Dict String String := Dict.empty
  maxSessions : Option Int := none
  keepaliveInterval : Option Int := none
  note : Option String := none
deriving DecidableEq

structure GlobalSettings where
  knownHostsFile : String := "~/.local/share/mcp-ssh/known_hosts"
  defaultHostKeyPolicy : HostKeyPolicy := .tofu
  auditLog : String := "~/.local/share/mcp-ssh/audit.jsonl"
  stateFile : String := "~/.local/share/mcp-ssh/state.json"
  maxSessions : Int := 10
  keepaliveInterval : Int := 30
  keepaliveCountMax : Int := 5
  connectTimeout : Int := 15
  defaultEncoding : String := "utf-8"
deriving DecidableEq

structure AppConfig where
  settings : GlobalSettings := {}
  servers : Dict String ServerConfig := Dict.empty
deriving DecidableEq

/-- Why `load_config` rejects a file. -/
inductive LoadFailure where
  /-- The file cannot be read, or is not TOML. -/
  | notParsed
  /-- The field at this path is missing or does not validate. -/
  | invalid (field : List String)
deriving DecidableEq

/-- Which credential of a server is missing. -/
inductive AuthFailure where
  /-- `auth_type='agent'` without `SSH_AUTH_SOCK`. -/
  | agentSocket
  | keyPath (auth : AuthType) (name : String)
  | passwordEnv (name : String)
  | passwordUnset (envVar : String)
  | certPaths (name : String)
deriving DecidableEq

/-- The errors of `exceptions.py`. -/
inductive McpSshError where
  | serverNotFound (name : String)
  | serverAlreadyExists (name : String)
  | circularJump (name : String)
  | loadFailed (cause : LoadFailure)
  | writeFailed
  | connectionError (name : String)
  | authError (cause : AuthFailure)
  | hostKeyError
deriving DecidableEq

end McpSsh
