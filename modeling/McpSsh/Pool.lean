import McpSsh.Registry
import McpSsh.HostScan
import McpSsh.Base.Trace

/-!
# The connection pool

`pool.py`. A call of `get_connection` runs without interruption until asyncssh
dials; what it does up to there is `enter`. While it waits, the call is a stack of
frames: the innermost one is dialing, each other one waits for the connection to its
jump host. Registry operations, other calls, closing and lost connections come in
between.
-/

set_option autoImplicit false

namespace McpSsh

open Base

/-- A connection, by the order in which they were opened. -/
abbrev ConnId := Nat

/-! ## Arguments of a dial -/

/-- The arguments that depend on `auth_type`; all but `agent` pass `agent_path=None`. -/
inductive AuthArgs where
  | agent (path : String)
  | keys (clientKeys : List String)
  | password (password : String)
  | cert (clientKeys clientCerts : List String)
  | keyboardInteractive
  | gssapi (gssHost : String)
deriving DecidableEq

/-- The keyword arguments of `asyncssh.create_connection`. -/
structure ConnectArgs where
  port : Int
  username : String
  knownHosts : Option String
  keepaliveInterval : Int
  keepaliveCountMax : Int
  connectTimeout : Int
  auth : AuthArgs
  tunnel : Option ConnId
deriving DecidableEq

/-- The exceptions that go through `get_connection`. -/
inductive PoolError where
  | mcpSsh (e : McpSshError)
  /-- `asyncssh.DisconnectError`. -/
  | disconnect
  | os
  | unicodeDecode
  | index
  | recursion
  | other
deriving DecidableEq

/-- The exception behind an error of the known_hosts file. -/
def HostsError.toPoolError : HostsError → PoolError
  | .index => .index
  | .unicodeDecode => .unicodeDecode
  | .os => .os

/-- The process around the pool. -/
structure PoolContext where
  settings : GlobalSettings
  getenv : String → Option String
  expandUser : String → String
  /-- How many calls of `get_connection` fit into each other before `RecursionError`. -/
  recursionLimit : Nat

/-- The authentication part of `_build_connect_kwargs`. -/
def authArgs (ctx : PoolContext) (cfg : ServerConfig) : Except AuthFailure AuthArgs :=
  match cfg.authType with
  | .agent =>
    match ctx.getenv "SSH_AUTH_SOCK" with
    | some sock => if sock = "" then .error .agentSocket else .ok (.agent sock)
    | none => .error .agentSocket
  | .key | .sk =>
    match cfg.keyPath with
    | some path => .ok (.keys [path])
    | none => .error (.keyPath cfg.authType cfg.name)
  | .password =>
    match cfg.passwordEnv with
    | none => .error (.passwordEnv cfg.name)
    | some var =>
      match ctx.getenv var with
      | some password => .ok (.password password)
      | none => .error (.passwordUnset var)
  | .cert =>
    match cfg.keyPath, cfg.certPath with
    | some key, some cert => .ok (.cert [key] [cert])
    | _, _ => .error (.certPaths cfg.name)
  | .keyboardInteractive => .ok .keyboardInteractive
  | .gssapi => .ok (.gssapi cfg.host)

/-- `_build_connect_kwargs` up to the tunnel. -/
def connectArgs (ctx : PoolContext) (hosts : HostsFile) (cfg : ServerConfig) : Except PoolError ConnectArgs :=
  match makeKnownHostsArg ctx.settings ctx.expandUser hosts cfg with
  | .error e => .error e.toPoolError
  | .ok knownHosts =>
    match authArgs ctx cfg with
    | .error cause => .error (.mcpSsh (.authError cause))
    | .ok auth => .ok {
        port := cfg.port, username := cfg.user, knownHosts
        keepaliveInterval := cfg.keepaliveInterval.getD ctx.settings.keepaliveInterval
        keepaliveCountMax := ctx.settings.keepaliveCountMax
        connectTimeout := ctx.settings.connectTimeout, auth, tunnel := none }

/-- What is recorded in known_hosts after a dial. -/
def recordHostKey (ctx : PoolContext) (hosts : HostsFile) (cfg : ServerConfig) (appends : Bool)
    (key : Option HostKey) : Except HostsError HostsFile :=
  match cfg.hostKeyPolicy.getD ctx.settings.defaultHostKeyPolicy with
  | .tofu | .acceptNew => appendHostKey appends hosts cfg.host.toList key
  | .strict => .ok hosts

/-! ## Slots -/

/-- `_ConnectionEntry`. -/
structure Slot where
  connection : Option ConnId := none
  status : ConnectionStatus := .disconnected
deriving DecidableEq

abbrev Slots := Dict String Slot

namespace Slots

/-- `_entry`: the slot of a name, a new one if it has none. -/
def slot (slots : Slots) (name : String) : Slot := (slots.get? name).getD {}

def setStatus (slots : Slots) (name : String) (status : ConnectionStatus) : Slots :=
  slots.insert name { slots.slot name with status }

/-- The slot of an established connection. -/
def store (slots : Slots) (name : String) (c : ConnId) : Slots :=
  slots.insert name ⟨some c, .connected⟩

/-- `_on_close`, and the end of `close`. -/
def clear (slots : Slots) (name : String) : Slots :=
  if name ∈ slots.keys then slots.insert name ⟨none, .disconnected⟩ else slots

/-- The connection that `get_connection` hands out without dialing. -/
def pooled (slots : Slots) (closed : List ConnId) (name : String) : Option ConnId :=
  let slot := slots.slot name
  if slot.status = .connected then slot.connection.filter (· ∉ closed) else none

/-- The `except` clauses of `get_connection`: the slot and the exception raised. -/
def handleFailure (slots : Slots) (name : String) (e : PoolError) : Slots × PoolError :=
  match e with
  | .mcpSsh (.authError _) | .mcpSsh .hostKeyError | .mcpSsh (.serverNotFound _) =>
    (slots.setStatus name .disconnected, e)
  | .disconnect | .os => (slots.setStatus name .disconnected, .mcpSsh (.connectionError name))
  | _ => (slots, e)

end Slots

/-! ## Calls in progress -/

/-- A call of `get_connection` in `_connect`, with the configuration it looked up. -/
structure Frame where
  name : String
  cfg : ServerConfig
  args : ConnectArgs

/-- How far a call got. -/
inductive Progress where
  | returned (c : ConnId)
  | raised (e : PoolError)
  /-- The stack of the call, the dialing frame first. -/
  | suspended (frames : List Frame)

/-- How a call of `get_connection` for a name ended. -/
abbrev Ended := String × Except PoolError ConnId

/-- What a call leaves behind when it is interrupted or ends. -/
structure Entered where
  slots : Slots
  progress : Progress
  /-- The calls that ended, inner ones included. -/
  ended : List Ended

section

variable (ctx : PoolContext) (r : Registry) (closed : List ConnId) (hosts : HostsFile)

/-- A call of `get_connection` up to its first interruption. -/
def enter : Nat → String → Slots → Entered
  | 0, name, slots => ⟨slots, .raised .recursion, [(name, .error .recursion)]⟩
  | fuel + 1, name, slots =>
    match r.get name with
    | .error e => ⟨slots, .raised (.mcpSsh e), [(name, .error (.mcpSsh e))]⟩
    | .ok cfg =>
      match slots.pooled closed name with
      | some c => ⟨slots, .returned c, [(name, .ok c)]⟩
      | none =>
        let slots := slots.setStatus name .connecting
        let fail (slots : Slots) (e : PoolError) (ended : List Ended) : Entered :=
          let (slots, e) := slots.handleFailure name e
          ⟨slots, .raised e, ended ++ [(name, .error e)]⟩
        match connectArgs ctx hosts cfg with
        | .error e => fail slots e []
        | .ok args =>
          match cfg.jumpHost with
          | none => ⟨slots, .suspended [⟨name, cfg, args⟩], []⟩
          | some jump =>
            let inner := enter fuel jump slots
            match inner.progress with
            | .returned t => ⟨inner.slots, .suspended [⟨name, cfg, { args with tunnel := some t }⟩], inner.ended⟩
            | .raised e => fail inner.slots e inner.ended
            | .suspended frames => ⟨inner.slots, .suspended (frames ++ [⟨name, cfg, args⟩]), inner.ended⟩

end

/-- An exception goes up the stack of a call. -/
def raiseThrough (e : PoolError) : List Frame → Slots → Slots × List Ended
  | [], slots => (slots, [])
  | frame :: rest, slots =>
    let (slots, e) := slots.handleFailure frame.name e
    let (slots, ended) := raiseThrough e rest slots
    (slots, (frame.name, .error e) :: ended)

/-! ## The pool and the registry in steps -/

/-- A connection that was opened: for which name, to which host, and how. -/
structure Connection where
  name : String
  host : String
  args : ConnectArgs

structure World where
  store : Store
  slots : Slots
  pinned : List String
  /-- Every connection opened so far. -/
  conns : List Connection
  closed : List ConnId
  /-- The calls of `get_connection` in progress. -/
  tasks : List (List Frame)
  /-- The calls of `close` that wait for their connection to close. -/
  closing : List (String × ConnId)
  hosts : HostsFile
  /-- The calls of `get_connection` that ended in the last step. -/
  ended : List Ended

/-- The exceptions of a dial. -/
inductive DialError where
  | disconnect
  | os
  | other
deriving DecidableEq

def DialError.toPoolError : DialError → PoolError
  | .disconnect => .disconnect
  | .os => .os
  | .other => .other

/-- How a dial ends; `lost` tells whether the connection went down before the call
goes on, `appends` whether known_hosts can be written. -/
inductive DialOutcome where
  | up (key : Option HostKey) (appends lost : Bool)
  | failed (e : DialError) (lost : Bool)

inductive PoolEvent where
  | registry (op : RegistryOp)
  | get (name : String)
  /-- The dial of the call at this place ends. -/
  | dialed (task : Nat) (outcome : DialOutcome)
  | lost (c : ConnId)
  | close (name : String)
  /-- The call of `close` at this place goes on: its connection is closed. -/
  | closed (call : Nat)
  | pin (name : String)
  | unpin (name : String)
  /-- The known_hosts file is changed by others. -/
  | edit (hosts : HostsFile)

namespace World

variable (ctx : PoolContext) (rt : Runtime)

/-- A call of `get_connection` starts. -/
def get (w : World) (name : String) : World :=
  let entered := enter ctx w.store.registry w.closed w.hosts ctx.recursionLimit name w.slots
  let tasks := match entered.progress with
    | .suspended frames => w.tasks ++ [frames]
    | _ => w.tasks
  { w with slots := entered.slots, tasks, ended := entered.ended }

/-- The call at place `task` ends with an exception in its innermost frame. -/
def fail (w : World) (task : Nat) (frames : List Frame) (e : PoolError) : World :=
  let (slots, ended) := raiseThrough e frames w.slots
  { w with slots, tasks := w.tasks.eraseIdx task, ended }

/-- The innermost frame of the call at place `task` returns `c`. -/
def deliver (w : World) (task : Nat) (frame : Frame) (rest : List Frame) (c : ConnId) : World :=
  let tasks := match rest with
    | [] => w.tasks.eraseIdx task
    | outer :: rest => w.tasks.set task ({ outer with args := { outer.args with tunnel := some c } } :: rest)
  { w with slots := w.slots.store frame.name c, tasks, ended := [(frame.name, .ok c)] }

/-- The dial of `frame`, the innermost of the call at place `task`, ends. -/
def dialed (w : World) (task : Nat) (frame : Frame) (rest : List Frame) : DialOutcome → World
  | .failed e lost =>
    { w with slots := if lost then w.slots.clear frame.name else w.slots }.fail task (frame :: rest) e.toPoolError
  | .up key appends lost =>
    let c := w.conns.length
    let w := { w with
      conns := w.conns ++ [Connection.mk frame.name frame.cfg.host frame.args]
      closed := if lost then c :: w.closed else w.closed
      slots := if lost then w.slots.clear frame.name else w.slots }
    match recordHostKey ctx w.hosts frame.cfg appends key with
    | .error e => w.fail task (frame :: rest) e.toPoolError
    | .ok hosts => { w with hosts }.deliver task frame rest c

/-- A call of `close` starts. -/
def close (w : World) (name : String) : World :=
  if name ∈ w.pinned then { w with ended := [] }
  else
    match (w.slots.slot name).connection with
    | some c =>
      if c ∈ w.closed then { w with slots := w.slots.clear name, ended := [] }
      else { w with closing := w.closing ++ [(name, c)], ended := [] }
    | none => { w with slots := w.slots.clear name, ended := [] }

/-- One step; `none` for an event that cannot happen. -/
def step (w : World) : PoolEvent → Option World
  | .registry op => some { w with store := w.store.after rt op, ended := [] }
  | .get name => some (w.get ctx name)
  | .dialed task outcome =>
    match w.tasks[task]? with
    | some (frame :: rest) => some (w.dialed ctx task frame rest outcome)
    | _ => none
  | .lost c =>
    match w.conns[c]? with
    | some conn =>
      if c ∈ w.closed then none
      else some { w with closed := c :: w.closed, slots := w.slots.clear conn.name, ended := [] }
    | none => none
  | .close name => some (w.close name)
  | .closed call =>
    match w.closing[call]? with
    | some (name, c) =>
      if c ∈ w.closed then
        some { w with slots := w.slots.clear name, closing := w.closing.eraseIdx call, ended := [] }
      else none
    | none => none
  | .pin name => some { w with pinned := name :: w.pinned, ended := [] }
  | .unpin name => some { w with pinned := w.pinned.filter (· ≠ name), ended := [] }
  | .edit hosts => some { w with hosts, ended := [] }

/-- A pool just made, over a registry just loaded. -/
def start (store : Store) (hosts : HostsFile) : World :=
  ⟨store, Dict.empty, [], [], [], [], [], hosts, []⟩

/-- The system of the pool and the registry. -/
def system : System World PoolEvent := ofFunction (step ctx rt)

/-! ### What the steps of the network do -/

section

variable {ctx : PoolContext} {rt : Runtime} {w w' : World}

/-- A dial ends for the innermost call of a stack; what then becomes of the whole stack is `dialed`. -/
theorem step_dialed {task : Nat} {outcome : DialOutcome} (stepped : w.step ctx rt (.dialed task outcome) = some w') :
    ∃ frame rest, w.tasks[task]? = some (frame :: rest) ∧ w' = w.dialed ctx task frame rest outcome := by
  simp only [step] at stepped
  split at stepped
  · rename_i frame rest found
    exact ⟨frame, rest, found, (Option.some.inj stepped).symm⟩
  · cases stepped

/-- A lost connection clears the slot of its name, whichever connection is in it. -/
theorem step_lost {c : ConnId} (stepped : w.step ctx rt (.lost c) = some w') :
    ∃ conn, w.conns[c]? = some conn ∧ c ∉ w.closed ∧
      w' = { w with closed := c :: w.closed, slots := w.slots.clear conn.name, ended := [] } := by
  simp only [step] at stepped
  split at stepped
  · rename_i conn opened
    split at stepped
    · cases stepped
    · rename_i alive
      exact ⟨conn, opened, alive, (Option.some.inj stepped).symm⟩
  · cases stepped

/-- A call of `close` ends when its connection is down, and clears the slot a second time. -/
theorem step_closed {call : Nat} (stepped : w.step ctx rt (.closed call) = some w') :
    ∃ name c, w.closing[call]? = some (name, c) ∧ c ∈ w.closed ∧
      w' = { w with slots := w.slots.clear name, closing := w.closing.eraseIdx call, ended := [] } := by
  simp only [step] at stepped
  split at stepped
  · rename_i name c found
    split at stepped
    · rename_i gone
      exact ⟨name, c, found, gone, (Option.some.inj stepped).symm⟩
    · cases stepped
  · cases stepped

end

end World

end McpSsh
