import McpSsh.Base.BestFirst
import McpSsh.Base.Dict
import Mathlib.Data.Prod.Lex
import Mathlib.Data.List.Lex
import Mathlib.Data.String.Basic
import Mathlib.Algebra.Order.Ring.Rat

/-!
# Paths over a scanned topology

`find_path` of `topology.py`: Dijkstra's algorithm over the reachable edges of a
topology, with the number of hops and the summed latency as a lexicographic cost,
a heap from which outdated entries are not removed, and no set of settled nodes.
Latencies are exact rationals.
-/

set_option autoImplicit false

namespace McpSsh

open Base

/-- The node of the machine the server runs on. -/
def localNode : String := "local"

inductive SourceState where
  | ok
  | sourceUnreachable
  | forwardingDisabled
deriving DecidableEq

structure AddressProbe where
  addr : String
  latencyMs : Option ℚ
deriving DecidableEq

structure TopologyEdge where
  fromNode : String
  toNode : String
  reachable : Bool
  via : Option String
  addresses : List AddressProbe
  sourceState : SourceState
deriving DecidableEq

structure TopologyResult where
  edges : List TopologyEdge

/-- `_edge_latency`. -/
def edgeLatency (edge : TopologyEdge) : ℚ :=
  match edge.addresses.find? fun probe => some probe.addr = edge.via && probe.latencyMs.isSome with
  | some probe => probe.latencyMs.getD 0
  | none => 0

/-- The hop `(to_node, via, latency)` of an edge that `find_path` keeps. -/
structure Hop where
  toNode : String
  via : String
  latency : ℚ
deriving DecidableEq

/-- The hop of a reachable edge with a winning address and a working source. -/
def hopOf (edge : TopologyEdge) : Option Hop :=
  if !edge.reachable || edge.sourceState ≠ .ok then none
  else edge.via.map fun via => ⟨edge.toNode, via, edgeLatency edge⟩

/-- `graph.setdefault(edge.from_node, []).append(...)`, for an edge that is kept. -/
def addEdge (graph : Dict String (List Hop)) (edge : TopologyEdge) : Dict String (List Hop) :=
  match hopOf edge with
  | none => graph
  | some hop => graph.insert edge.fromNode ((graph.get? edge.fromNode).getD [] ++ [hop])

/-- `graph`: the hops out of each node, in the order of the edges. -/
def hopGraph (edges : List TopologyEdge) : Dict String (List Hop) := edges.foldl addEdge Dict.empty

/-- `(hop_count, latency_sum)`, in the order of Python's tuples. -/
abbrev PathCost := ℕ ×ₗ ℚ

/-- A heap entry `(hop_count, latency_sum, node, path)`. -/
abbrev HeapEntry := OpenEntry String PathCost (List (String × String))

/-- The tuple that orders the heap. -/
def heapKey (x : HeapEntry) : PathCost ×ₗ String ×ₗ List (String ×ₗ String) :=
  toLex (x.cost, toLex (x.node, x.path.map toLex))

def heapMin : HeapEntry → List HeapEntry → HeapEntry
  | x, [] => x
  | x, y :: ys => if heapKey y < heapKey x then heapMin y ys else heapMin x ys

/-- `heapq.heappop`: a smallest tuple and the others. -/
def heapPop : List HeapEntry → Option (HeapEntry × List HeapEntry)
  | [] => none
  | x :: xs => some (heapMin x xs, (x :: xs).erase (heapMin x xs))

/-- The heap and the `best` map. -/
structure PathState where
  heap : List HeapEntry
  best : Dict String PathCost

/-- Add a hop to a cost. -/
def addHop (cost : PathCost) (latency : ℚ) : PathCost := toLex ((ofLex cost).1 + 1, (ofLex cost).2 + latency)

/-- The body of the inner loop. -/
def relaxHop (x : HeapEntry) (s : PathState) (hop : Hop) : PathState :=
  if hop.toNode = localNode then s
  else
    let cost := addHop x.cost hop.latency
    let improved : PathState :=
      { heap := ⟨cost, hop.toNode, x.path ++ [(hop.toNode, hop.via)]⟩ :: s.heap,
        best := s.best.insert hop.toNode cost }
    match s.best.get? hop.toNode with
    | none => improved
    | some known => if cost < known then improved else s

/-- The outer loop, with a bound on its turns. -/
def pathLoop (graph : Dict String (List Hop)) (target : String) : Nat → PathState → Option (Option (List (String × String)))
  | 0, _ => none
  | n + 1, s =>
    match heapPop s.heap with
    | none => some none
    | some (x, rest) =>
      if x.node = target then some (some x.path)
      else pathLoop graph target n (((graph.get? x.node).getD []).foldl (relaxHop x) { s with heap := rest })

/-- Where the loop starts. -/
def PathState.initial : PathState :=
  { heap := [⟨toLex (0, 0), localNode, []⟩], best := Dict.empty.insert localNode (toLex (0, 0)) }

/-- `find_path`; the outer loop may take two turns more than there are edges. -/
def findPath (topology : TopologyResult) (target : String) : Option (Option (List (String × String))) :=
  pathLoop (hopGraph topology.edges) target (topology.edges.length + 2) PathState.initial

/-! ## Walks -/

/-- A hop may take this edge. -/
def Usable (edge : TopologyEdge) : Prop := edge.reachable = true ∧ edge.via ≠ none ∧ edge.sourceState = .ok

/-- The edges lead from one node to the other, and none comes back to `local`. -/
def IsWalk (topology : TopologyResult) : String → List TopologyEdge → String → Prop
  | u, [], v => u = v
  | u, e :: es, v =>
    e ∈ topology.edges ∧ Usable e ∧ e.fromNode = u ∧ e.toNode ≠ localNode ∧ IsWalk topology e.toNode es v

/-- The hops `(node, via)` of a walk. -/
def walkHops (walk : List TopologyEdge) : List (String × String) := walk.map fun e => (e.toNode, e.via.getD "")

/-- The number of hops of a walk and its summed latency. -/
def walkCost (walk : List TopologyEdge) : PathCost := toLex (walk.length, (walk.map edgeLatency).sum)

/-- `path` belongs to a walk to `target` than which none is cheaper. -/
def Optimal (topology : TopologyResult) (target : String) (path : List (String × String)) : Prop :=
  ∃ walk, IsWalk topology localNode walk target ∧ path = walkHops walk ∧
    ∀ other, IsWalk topology localNode other target → walkCost walk ≤ walkCost other

end McpSsh
