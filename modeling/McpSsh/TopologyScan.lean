import McpSsh.JumpChain
import McpSsh.Registry
import McpSsh.StateRecords
import McpSsh.Topology
import Mathlib.Data.List.MinMax
import Mathlib.Data.List.Sort

/-!
# Scanning the topology

`scan_topology` of `topology.py`: which servers are scanned, what a dial says about an
address, how the addresses of a target become a cell and the cells of a source a row, and
the adjacency that is read off the matrix. A cell carries the vantage its addresses were
dialed from, which the source does not record. Latencies are exact rationals.
-/

set_option autoImplicit false

namespace McpSsh

open Base

/-! ## One address -/

/-- An exception out of a dialer. -/
inductive ForwardError where
  | channelOpen (code : Int)
  | timeout
  | other

/-- How a dial ends; the banner is `none` where reading it fails. -/
inductive DialReply where
  | raised (e : ForwardError)
  | opened (latencyMs : ℚ) (banner : Option (List UInt8))

/-- `_classify_error`. -/
def classifyError : ForwardError → State.AddressState
  | .channelOpen code => if code = 1 then .forwardingDisabled else .refused
  | .timeout => .filtered
  | .other => .refused

/-- `_read_banner`: whether the stream greets with `SSH-`. -/
def readBanner : Option (List UInt8) → Bool
  | none => false
  | some data => !data.isEmpty && [0x53, 0x53, 0x48, 0x2d].isPrefixOf data

/-- `probe_address`. -/
def probeAddress (reply : DialReply) (addr : String) (port : Int) : State.AddressProbe ℚ :=
  match reply with
  | .raised e => { addr, port, state := classifyError e }
  | .opened latencyMs banner =>
    { addr, port, state := .reachable, latencyMs := some latencyMs, isSsh := readBanner banner }

/-! ## One cell -/

/-- What the probes of a cell are compared by; a latency that is not known comes last. -/
def latencyKey (probe : State.AddressProbe ℚ) : WithTop ℚ := probe.latencyMs.elim ⊤ WithTop.some

/-- `_aggregate_cell`. -/
def aggregateCell (fromNode toNode : String) (probes : List (State.AddressProbe ℚ)) : State.TopologyEdge ℚ :=
  let reachable := probes.filter fun p => p.state = .reachable
  { fromNode, toNode, reachable := !reachable.isEmpty
    via := (reachable.argmin latencyKey).map State.AddressProbe.addr, addresses := probes, sourceState := .ok }

/-! ## One row -/

/-- The host the server runs on, or a connection to a server. -/
inductive Vantage where
  | host
  | server (name : String)
deriving DecidableEq

/-- A dialer, and how the dial of the `j`-th address of the `i`-th target goes. -/
structure Dialer where
  vantage : Vantage
  reply : Nat → Nat → String → Int → DialReply

/-- An edge, and where it was probed from, if its addresses were probed at all. -/
structure Cell where
  vantage : Option Vantage
  edge : State.TopologyEdge ℚ

def probesOf (dialer : Dialer) (i : Nat) (target : State.TopologyNode) (port : Int) : List (State.AddressProbe ℚ) :=
  target.candidateAddrs.zipIdx.map fun addr => probeAddress (dialer.reply i addr.2 addr.1 port) addr.1 port

def unreachableEdge (source : String) (target : State.TopologyNode) : State.TopologyEdge ℚ :=
  { fromNode := source, toNode := target.name, reachable := false, sourceState := .sourceUnreachable }

/-- Forwarding is off for the whole source. -/
def disable (edge : State.TopologyEdge ℚ) : State.TopologyEdge ℚ :=
  { edge with sourceState := .forwardingDisabled, reachable := false, via := none }

def anyDisabled (edges : List (State.TopologyEdge ℚ)) : Bool :=
  edges.any fun edge => edge.addresses.any fun p => p.state = .forwardingDisabled

/-- `_scan_row`; `none` where a target has no port. -/
def scanRow (source : String) (dialer : Option Dialer) (targets : List State.TopologyNode) (portOf : Dict String Int) :
    Option (List (State.TopologyEdge ℚ)) :=
  match dialer with
  | none => some ((targets.filter fun t => t.name ≠ source).map (unreachableEdge source))
  | some dialer => do
    let edges ← (targets.zipIdx.filter fun t => t.1.name ≠ source).mapM fun t =>
      (portOf.get? t.1.name).map fun port => aggregateCell source t.1.name (probesOf dialer t.2 t.1 port)
    return if anyDisabled edges then edges.map disable else edges

/-! ## The matrix -/

/-- `_is_internal_hop`: `^_.+_hop\d+$`. -/
def isInternalHop (name : String) : Bool :=
  let text := name.toList
  let line := if text.getLast? = some '\n' then text.dropLast else text
  let digits := line.reverse.takeWhile fun c => (digitValue c).isSome
  let front := line.take (line.length - digits.length)
  let middle := (front.take (front.length - 4)).drop 1
  !digits.isEmpty && front.head? = some '_' && front.drop (front.length - 4) = "_hop".toList && !middle.isEmpty &&
    !middle.contains '\n'

/-- `select_nodes`. -/
def selectNodes (registry : Registry) (include_ exclude : Option (List String)) : List ServerConfig :=
  registry.listAll.filter fun cfg =>
    !isInternalHop cfg.name && ((include_.getD []).isEmpty || (include_.getD []).contains cfg.name) &&
      !(exclude.getD []).contains cfg.name

/-- What the connections of a scan come to, by the position of the server. -/
structure ScanOutcome where
  scannedAt : Timestamp
  /-- The connection for the harvest, and its addresses. -/
  connects : Nat → Except String Unit
  harvest : Nat → Except String (List String)
  /-- The dials of the host. -/
  host : Nat → Nat → String → Int → DialReply
  /-- The connection of a source, and the dials over it. -/
  source : Nat → Except String (Nat → Nat → String → Int → DialReply)

/-- `_harvest_node`. -/
def harvestNode (cfg : ServerConfig) (connects : Except String Unit) (harvested : Except String (List String)) :
    State.TopologyNode :=
  let node : State.TopologyNode := { name := cfg.name, host := cfg.host, port := cfg.port, candidateAddrs := [cfg.host] }
  match connects, harvested with
  | .error message, _ => { node with harvestError := some message }
  | .ok (), .error message => { node with harvestError := some message }
  | .ok (), .ok addrs =>
    { node with
      candidateAddrs := addrs.foldl (fun found addr => if addr ∈ found then found else found ++ [addr]) [cfg.host]
      harvested := true }

/-- `_build_adjacency`. -/
def buildAdjacency (edges : List (State.TopologyEdge ℚ)) : Dict String (List String) :=
  let found := edges.foldl (fun (d : Dict String (List String)) e =>
    if e.reachable then d.insert e.fromNode ((d.get? e.fromNode).getD [] ++ [e.toNode]) else d) Dict.empty
  found.mapValues fun targets => targets.mergeSort fun a b => a ≤ b

section

variable (w : ScanOutcome)

def harvestNodes (configs : List ServerConfig) : List State.TopologyNode :=
  configs.zipIdx.map fun c => harvestNode c.1 (w.connects c.2) (w.harvest c.2)

/-- The sources, `local` first, each with the dialer it is scanned with. -/
def sources (nodes : List State.TopologyNode) : List (String × Option Dialer) :=
  (localNode, some ⟨.host, w.host⟩) :: nodes.zipIdx.map fun n =>
    (n.1.name, (w.source n.2).toOption.map fun reply => ⟨.server n.1.name, reply⟩)

/-- The cells of all rows. -/
def scanCells (nodes : List State.TopologyNode) : Option (List Cell) := do
  let portOf := nodes.foldl (fun d n => d.insert n.name n.port) Dict.empty
  let rows ← (sources w nodes).mapM fun s =>
    (scanRow s.1 s.2 nodes portOf).map fun row => row.map fun edge => (⟨s.2.map Dialer.vantage, edge⟩ : Cell)
  return rows.flatten

/-- `scan_topology`. -/
def scanTopology (registry : Registry) (include_ exclude : Option (List String)) : Option (State.TopologyResult ℚ) := do
  let nodes := harvestNodes w (selectNodes registry include_ exclude)
  let cells ← scanCells w nodes
  let edges := cells.map Cell.edge
  return { scannedAt := w.scannedAt, nodes, edges, adjacency := buildAdjacency edges }

end

end McpSsh
