import McpSsh.Pool

/-!
# Proxies

`proxy.py`. A proxy pins the connection of its server while it is active, and the
pool does not close a pinned connection. Starting a proxy, stopping it and closing
all of them wait for the network in between; other operations run meanwhile.
-/

set_option autoImplicit false

namespace McpSsh

open Base

inductive ProxyType where
  /-- `local`. -/
  | localForward
  | socks5
deriving DecidableEq

/-- The arguments of `start_proxy`. -/
structure ProxyArgs where
  server : String
  type : ProxyType
  localPort : Int
  localHost : String := "127.0.0.1"
  remoteHost : Option String := none
  remotePort : Option Int := none
deriving DecidableEq

structure ProxyRecord extends ProxyArgs where
  id : String
  /-- The status is `active`, and not `stopped`. -/
  active : Bool := true
deriving DecidableEq

/-- How `forward_local_port` or `forward_socks` ends. -/
inductive ForwardOutcome where
  /-- It listens; the proxy gets this id. -/
  | listening (id : String)
  | raises
  /-- It ends with an exception that is no `Exception`. -/
  | cancelled
deriving DecidableEq

/-- A call of `close_all`: the proxies whose listeners it has yet to wait for, the
first one closed already, and those it has unpinned. -/
structure CloseAll where
  waiting : List ProxyRecord
  released : List ProxyRecord

structure ProxyManager where
  pool : World
  proxies : Dict String ProxyRecord
  /-- The calls of `start_proxy` that wait for their listener. -/
  starting : List ProxyArgs
  /-- The calls of `stop_proxy` that wait for their listener to close. -/
  stopping : List ProxyRecord
  /-- The calls of `close_all` in progress. -/
  closing : List CloseAll

inductive ProxyEvent where
  /-- Something happens in the pool, but for its pins. -/
  | pool (event : PoolEvent)
  /-- A call of `start_proxy` gets its connection. -/
  | start (args : ProxyArgs)
  /-- The listener of the call at this place is there, or not. -/
  | forwarded (call : Nat) (outcome : ForwardOutcome)
  | stop (id : String)
  /-- `wait_closed` of the call of `stop_proxy` at this place ends. -/
  | stopped (call : Nat) (raises : Bool)
  | closeAll
  /-- `wait_closed` of the call of `close_all` at this place ends. -/
  | closedOne (call : Nat)

/-- `type='local' requires remote_host and remote_port`. -/
def ProxyArgs.incomplete (args : ProxyArgs) : Bool :=
  args.type = .localForward && (args.remoteHost.isNone || args.remotePort.isNone)

namespace ProxyManager

/-- `pool.pin`. -/
def pin (s : ProxyManager) (server : String) : ProxyManager :=
  { s with pool := { s.pool with pinned := server :: s.pool.pinned, ended := [] } }

/-- `pool.unpin`. -/
def unpin (s : ProxyManager) (server : String) : ProxyManager :=
  { s with pool := { s.pool with pinned := s.pool.pinned.filter (· ≠ server), ended := [] } }

/-- `start_proxy` from its connection to the request for a listener. -/
def start (s : ProxyManager) (args : ProxyArgs) : ProxyManager :=
  if args.incomplete then (s.pin args.server).unpin args.server
  else { s.pin args.server with starting := s.starting ++ [args] }

/-- `start_proxy` after the request for a listener. -/
def forwarded (s : ProxyManager) (call : Nat) (args : ProxyArgs) (outcome : ForwardOutcome) : ProxyManager :=
  let s := { s with starting := s.starting.eraseIdx call }
  match outcome with
  | .listening id => { s with proxies := s.proxies.insert id { args with id } }
  | .raises => s.unpin args.server
  | .cancelled => s

/-- `stop_proxy` up to `wait_closed`; an unknown id raises `ProxyNotFound`. -/
def stop (s : ProxyManager) (id : String) : ProxyManager :=
  match s.proxies.get? id with
  | some record =>
    { s with proxies := s.proxies.erase id, stopping := s.stopping ++ [{ record with active := false }] }
  | none => s

/-- `stop_proxy` after `wait_closed`. -/
def stopped (s : ProxyManager) (call : Nat) (record : ProxyRecord) (raises : Bool) : ProxyManager :=
  let s := { s with stopping := s.stopping.eraseIdx call }
  if raises then s else s.unpin record.server

/-- `close_all` up to its first `wait_closed`. -/
def closeAll (s : ProxyManager) : ProxyManager :=
  if s.proxies.values = [] then s else { s with closing := s.closing ++ [⟨s.proxies.values, []⟩] }

/-- `close_all` after the `wait_closed` of `record`, up to the next one or to its end. -/
def closedOne (s : ProxyManager) (call : Nat) (record : ProxyRecord) (waiting released : List ProxyRecord) :
    ProxyManager :=
  let s := s.unpin record.server
  if waiting = [] then { s with proxies := Dict.empty, closing := s.closing.eraseIdx call }
  else { s with closing := s.closing.set call ⟨waiting, record :: released⟩ }

variable (ctx : PoolContext) (rt : Runtime)

/-- One step; `none` for an event that cannot happen. -/
def step (s : ProxyManager) : ProxyEvent → Option ProxyManager
  | .pool (.pin _) | .pool (.unpin _) => none
  | .pool event => (s.pool.step ctx rt event).map fun pool => { s with pool }
  | .start args =>
    if s.pool.ended.any fun call => call.1 = args.server && call.2.toOption.isSome then some (s.start args) else none
  | .forwarded call outcome => s.starting[call]?.map fun args => s.forwarded call args outcome
  | .stop id => some (s.stop id)
  | .stopped call raises => s.stopping[call]?.map fun record => s.stopped call record raises
  | .closeAll => some s.closeAll
  | .closedOne call =>
    match s.closing[call]? with
    | some ⟨record :: waiting, released⟩ => some (s.closedOne call record waiting released)
    | _ => none

/-- No proxy yet, over a pool just made. -/
def init (store : Store) (hosts : HostsFile) : ProxyManager := ⟨World.start store hosts, Dict.empty, [], [], []⟩

/-- The system of the proxies and the pool. -/
def system : System ProxyManager ProxyEvent := ofFunction (step ctx rt)

end ProxyManager

end McpSsh
