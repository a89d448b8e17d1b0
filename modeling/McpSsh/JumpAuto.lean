import McpSsh.JumpChain
import McpSsh.Topology

/-!
# Chains that are found

`setup_jump` with a target: a path over the scanned topology is turned into a chain,
built, and torn down again when a connect through it fails. With it the whole tool: a
chain that is given, or one that is found.
-/

set_option autoImplicit false

namespace McpSsh

open Base

/-- What `setup_jump` finds around it: pool and state store if they are given, the
cached topology and its age in seconds, what a new scan gives, and whether a connect
through the built chain succeeds. -/
structure JumpSurroundings where
  pool : Bool
  state : Bool
  topology : Option TopologyResult
  age : ℚ
  scanned : TopologyResult
  connects : Bool

/-- The arguments of `setup_jump`; no chain and an empty one are the same to it. -/
structure JumpRequest where
  name : String
  chain : List String := []
  target : Option String := none
  persist : Bool := false
  note : Option String := none
  maxAge : Option ℚ := none
  forceRescan : Bool := false

/-- Why `_setup_jump_auto` has no chain to build. -/
inductive NoChain where
  | unavailable
  | targetNotFound (target : String)
  | noTopology
  | staleTopology
  | noPath (target : String)
deriving DecidableEq

/-- The answer of `setup_jump`. -/
inductive JumpAnswer where
  | noChain (reason : NoChain)
  /-- What `_build_chain` answers. -/
  | built (outcome : SetupOutcome)
  | verifyFailed (jump target : String) (chain : List String)
  | verified (jump : String) (persist : Bool) (hops : List HopSummary) (target : String) (chain : List String)
deriving DecidableEq

/-- `f"{node}@{via}"`. -/
def chainElement (hop : String × String) : String := hop.1 ++ "@" ++ hop.2

/-- `_setup_jump_auto` up to the path: which topology is used. -/
def JumpSurroundings.chosen (around : JumpSurroundings) (request : JumpRequest) : Except NoChain TopologyResult :=
  if request.forceRescan then .ok around.scanned
  else
    match around.topology with
    | none => .error .noTopology
    | some topology =>
      if request.maxAge.any fun limit => limit < around.age then .error .staleTopology else .ok topology

/-- `_setup_jump_auto` up to the chain. -/
def JumpSurroundings.findChain (around : JumpSurroundings) (r : Registry) (request : JumpRequest) (target : String) :
    Except NoChain (List String) :=
  if !around.pool || !around.state then .error .unavailable
  else if (r.find? target).isNone then .error (.targetNotFound target)
  else
    match around.chosen request with
    | .error reason => .error reason
    | .ok topology =>
      match (findPath topology target).join with
      | none => .error (.noPath target)
      | some path => .ok (path.map chainElement)

section

variable (repr : String → String)

/-- `_setup_jump_auto`. -/
def setupJumpAuto (around : JumpSurroundings) (writes : Writes) (s : Store) (request : JumpRequest) (target : String) :
    Store × JumpAnswer :=
  match around.findChain s.registry request target with
  | .error reason => (s, .noChain reason)
  | .ok chain =>
    match buildChain repr writes s request.name chain request.persist request.note with
    | (t, .created jump persist hops) =>
      if around.connects then (t, .verified jump persist hops target chain)
      else ((teardownJump writes.remove t request.name).1, .verifyFailed jump target chain)
    | (t, outcome) => (t, .built outcome)

/-- `setup_jump`. -/
def setupJumpCall (around : JumpSurroundings) (writes : Writes) (s : Store) (request : JumpRequest) :
    Store × JumpAnswer :=
  match request.target with
  | some target => setupJumpAuto repr around writes s request target
  | none =>
    let (t, outcome) := setupJump repr writes s request.name request.chain request.persist request.note
    (t, .built outcome)

end

end McpSsh
