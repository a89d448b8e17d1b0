import McpSsh.Models
import McpSsh.Process
import McpSsh.Topology

/-!
# The records of the state file

`SessionRecord` of `models.py` and the topology of `topology.py` with all their fields, as
`McpSsh.Process` has `ProcessRecord`. The field `type` can have one value only and is left
to the codec. The type of the latencies, which are finite floats, is a parameter.
-/

set_option autoImplicit false

namespace McpSsh

open Base

structure SessionRecord where
  id : String
  server : String
  command : Option String
  useTmux : Bool
  tmuxWindow : Option String := none
  startedAt : Timestamp
  lastChecked : Option Timestamp := none
  status : ProcessStatus := .unknown
deriving DecidableEq

namespace State

inductive AddressState where
  | reachable
  | refused
  | forwardingDisabled
  | filtered
deriving DecidableEq

structure AddressProbe (φ : Type) where
  addr : String
  port : Int
  state : AddressState
  latencyMs : Option φ := none
  isSsh : Bool := false

structure TopologyEdge (φ : Type) where
  fromNode : String
  toNode : String
  reachable : Bool
  via : Option String := none
  addresses : List (AddressProbe φ) := []
  sourceState : SourceState := .ok

structure TopologyNode where
  name : String
  host : String
  port : Int
  candidateAddrs : List String := []
  harvested : Bool := false
  harvestError : Option String := none
  sourceOnly : Bool := false

structure TopologyResult (φ : Type) where
  scannedAt : Timestamp
  nodes : List TopologyNode := []
  edges : List (TopologyEdge φ) := []
  adjacency : Dict String (List String) := Dict.empty

end State

/-! ## The values of the enumerations -/

def ProcessStatus.all : List ProcessStatus := [.running, .exited, .killed, .unknown]

def ProcessStatus.value : ProcessStatus → String
  | running => "running"
  | exited => "exited"
  | killed => "killed"
  | unknown => "unknown"

def State.AddressState.all : List State.AddressState := [.reachable, .refused, .forwardingDisabled, .filtered]

def State.AddressState.value : State.AddressState → String
  | reachable => "reachable"
  | refused => "refused"
  | forwardingDisabled => "forwarding_disabled"
  | filtered => "filtered"

def SourceState.all : List SourceState := [.ok, .sourceUnreachable, .forwardingDisabled]

def SourceState.value : SourceState → String
  | ok => "ok"
  | sourceUnreachable => "source_unreachable"
  | forwardingDisabled => "forwarding_disabled"

theorem ProcessStatus.ofValue_value (s : ProcessStatus) : ofValue ProcessStatus.all ProcessStatus.value s.value = some s := by
  cases s <;> decide

theorem State.AddressState.ofValue_value (s : State.AddressState) :
    ofValue State.AddressState.all State.AddressState.value s.value = some s := by
  cases s <;> decide

theorem SourceState.ofValue_value (s : SourceState) : ofValue SourceState.all SourceState.value s.value = some s := by
  cases s <;> decide

end McpSsh
