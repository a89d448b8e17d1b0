import McpSsh.TopologyMatrix
import McpSsh.TopologyPath

/-!
# What a scanned row says

The verdicts of a row on three levels: the probes of an address, the cell they come to,
and the row that is rewritten once forwarding turns out to be off. The adjacency and the
paths are read off the cells, so they inherit what holds of every row.
-/

set_option autoImplicit false

namespace McpSsh

open Base

/-! ## A row -/

structure RowVerdicts (dialer : Option Dialer) (row : List (State.TopologyEdge ℚ)) : Prop where
  reachable : ∀ e ∈ row, e.reachable = true ↔ e.via ≠ none
  winner : ∀ e ∈ row, e.reachable = true → e.sourceState = .ok ∧
    ∃ p ∈ e.addresses, p.state = .reachable ∧ e.via = some p.addr ∧
      ∀ q ∈ e.addresses, q.state = .reachable → latencyKey p ≤ latencyKey q
  disabled : (∃ e ∈ row, ∃ p ∈ e.addresses, p.state = .forwardingDisabled) →
    ∀ e ∈ row, e.reachable = false ∧ e.via = none ∧ e.sourceState = .forwardingDisabled
  unreachable : dialer = none → ∀ e ∈ row, e.reachable = false ∧ e.via = none ∧ e.sourceState = .sourceUnreachable

/-- A cell that is not rewritten. -/
theorem aggregateCell_spec (source target : String) (probes : List (State.AddressProbe ℚ)) :
    ((aggregateCell source target probes).reachable = true ↔ (aggregateCell source target probes).via ≠ none) ∧
      ((aggregateCell source target probes).reachable = true → ∃ p ∈ probes, p.state = .reachable ∧
        (aggregateCell source target probes).via = some p.addr ∧
        ∀ q ∈ probes, q.state = .reachable → latencyKey p ≤ latencyKey q) := by
  have fastest : ∀ p, (probes.filter fun p => p.state = .reachable).argmin latencyKey = some p →
      p ∈ probes ∧ p.state = .reachable ∧ ∀ q ∈ probes, q.state = .reachable → latencyKey p ≤ latencyKey q := by
    intro p best
    obtain ⟨member, state⟩ := List.mem_filter.mp (List.argmin_mem best)
    refine ⟨member, of_decide_eq_true state, fun q there open_ => ?_⟩
    exact List.le_of_mem_argmin (List.mem_filter.mpr ⟨there, decide_eq_true open_⟩) best
  cases best : (probes.filter fun p => p.state = .reachable).argmin latencyKey with
  | none =>
    have empty := List.argmin_eq_none.mp best
    simp [aggregateCell, empty]
  | some p =>
    have found : (probes.filter fun p => p.state = .reachable) ≠ [] := fun empty => by
      rw [empty] at best
      cases best
    obtain ⟨member, state, least⟩ := fastest p best
    refine ⟨?_, fun _ => ⟨p, member, state, by rw [aggregateCell, best]; rfl, least⟩⟩
    simp [aggregateCell, best, found]

section

variable {source : String} {dialer : Option Dialer} {targets : List State.TopologyNode} {portOf : Dict String Int}
  {row : List (State.TopologyEdge ℚ)}

theorem anyDisabled_iff {edges : List (State.TopologyEdge ℚ)} :
    anyDisabled edges = true ↔ ∃ e ∈ edges, ∃ p ∈ e.addresses, p.state = .forwardingDisabled := by
  simp [anyDisabled]

theorem scanRow_verdicts (scanned : scanRow source dialer targets portOf = some row) : RowVerdicts dialer row := by
  cases dialer with
  | none =>
    have each := fun e => @scanRow_unreachable source targets portOf row scanned e
    refine ⟨fun e member => ?_, fun e member reached => ?_, ?_, fun _ e member => ?_⟩
    · obtain ⟨-, -, reachable, via⟩ := each e member
      simp [reachable, via]
    · obtain ⟨-, -, reachable, -⟩ := each e member
      rw [reachable] at reached
      cases reached
    · rintro ⟨e, member, p, probe, -⟩
      obtain ⟨-, addresses, -⟩ := each e member
      rw [addresses] at probe
      cases probe
    · obtain ⟨state, -, reachable, via⟩ := each e member
      exact ⟨reachable, via, state⟩
  | some dialer =>
    obtain ⟨edges, probed, rfl⟩ := scanRow_probed scanned
    have cell : ∀ e ∈ edges, ∃ target probes, e = aggregateCell source target probes := by
      intro e member
      obtain ⟨t, -, found⟩ := mem_of_mapM probed member
      obtain ⟨port, -, rfl⟩ := Option.map_eq_some_iff.mp found
      exact ⟨_, _, rfl⟩
    cases off : anyDisabled edges with
    | true =>
      have each : ∀ e ∈ edges.map disable, e.reachable = false ∧ e.via = none ∧ e.sourceState = .forwardingDisabled := by
        intro e member
        obtain ⟨e, -, rfl⟩ := List.mem_map.mp member
        exact ⟨rfl, rfl, rfl⟩
      refine ⟨fun e member => ?_, fun e member reached => ?_, fun _ => each, nofun⟩
      · obtain ⟨reachable, via, -⟩ := each e member
        simp [reachable, via]
      · rw [(each e member).1] at reached
        cases reached
    | false =>
      refine ⟨fun e member => ?_, fun e member reached => ?_, fun disabled => ?_, nofun⟩
      · obtain ⟨target, probes, rfl⟩ := cell e member
        exact (aggregateCell_spec source target probes).1
      · obtain ⟨target, probes, rfl⟩ := cell e member
        exact ⟨rfl, (aggregateCell_spec source target probes).2 reached⟩
      · have on := anyDisabled_iff.mpr disabled
        rw [if_neg Bool.false_ne_true, off] at on
        cases on

end

/-! ## The adjacency -/

/-- The targets of the reachable edges from a node, in the order of the edges. -/
def reached (edges : List (State.TopologyEdge ℚ)) (source : String) : List String :=
  (edges.filter fun e => e.reachable ∧ e.fromNode = source).map State.TopologyEdge.toNode

/-- What an adjacency says about every node. -/
structure ListsReached (edges : List (State.TopologyEdge ℚ)) (adjacency : Dict String (List String)) : Prop where
  sorted : ∀ s targets, adjacency.get? s = some targets → targets.Pairwise (· ≤ ·)
  exact_ : ∀ s, ((adjacency.get? s).getD []).Perm (reached edges s)

theorem buildAdjacency_listsReached (edges : List (State.TopologyEdge ℚ)) :
    ListsReached edges (buildAdjacency edges) := by
  have grows : ∀ (edges : List (State.TopologyEdge ℚ)) (d : Dict String (List String)) (s : String),
      ((edges.foldl (fun (d : Dict String (List String)) e =>
        if e.reachable then d.insert e.fromNode ((d.get? e.fromNode).getD [] ++ [e.toNode]) else d) d).get? s).getD [] =
        (d.get? s).getD [] ++ reached edges s := by
    intro edges
    induction edges with
    | nil => simp [reached]
    | cons e edges ih =>
      intro d s
      rw [List.foldl_cons, ih]
      by_cases open_ : e.reachable = true
      · by_cases here : e.fromNode = s
        · simp [reached, open_, here]
        · simp [reached, open_, here, Dict.get?_insert, Ne.symm here]
      · simp [reached, open_]
  refine ⟨fun s targets found => ?_, fun s => ?_⟩
  · rw [buildAdjacency, Dict.get?_mapValues] at found
    obtain ⟨targets, -, rfl⟩ := Option.map_eq_some_iff.mp found
    have ordered := @List.pairwise_mergeSort _ (fun a b : String => decide (a ≤ b))
      (fun a b c first second => decide_eq_true (le_trans (of_decide_eq_true first) (of_decide_eq_true second)))
      (fun a b => by simpa using le_total a b) targets
    exact ordered.imp of_decide_eq_true
  · have kept := grows edges Dict.empty s
    rw [Dict.get?_empty, Option.getD_none, List.nil_append] at kept
    rw [← kept, buildAdjacency, Dict.get?_mapValues]
    cases (edges.foldl (fun (d : Dict String (List String)) e =>
      if e.reachable then d.insert e.fromNode ((d.get? e.fromNode).getD [] ++ [e.toNode]) else d) Dict.empty).get? s with
    | none => exact List.Perm.nil
    | some targets => exact List.mergeSort_perm targets _

/-! ## The paths -/

/-- An edge as `find_path` reads it. -/
def pathEdge (e : State.TopologyEdge ℚ) : TopologyEdge where
  fromNode := e.fromNode
  toNode := e.toNode
  reachable := e.reachable
  via := e.via
  addresses := e.addresses.map fun p => ⟨p.addr, p.latencyMs⟩
  sourceState := e.sourceState

def pathTopology (result : State.TopologyResult ℚ) : TopologyResult := ⟨result.edges.map pathEdge⟩

section

variable (w : ScanOutcome) (nodes : List State.TopologyNode)

/-- The edge was scanned from a source that was connected to and that forwards. -/
def FromOpenSource (e : TopologyEdge) : Prop :=
  ∃ edge dialer portOf row, pathEdge edge = e ∧ (edge.fromNode, some dialer) ∈ sources w nodes ∧
    scanRow edge.fromNode (some dialer) nodes portOf = some row ∧ edge ∈ row ∧
    ∀ f ∈ row, ∀ p ∈ f.addresses, p.state ≠ .forwardingDisabled

variable {w nodes}

/-- A usable edge comes from an open source. -/
theorem fromOpenSource_of_usable {cells : List Cell} (scanned : scanCells w nodes = some cells) {e : TopologyEdge}
    (member : e ∈ (cells.map Cell.edge).map pathEdge) (usable : Usable e) : FromOpenSource w nodes e := by
  obtain ⟨_, isEdge, rfl⟩ := List.mem_map.mp member
  obtain ⟨c, inCells, rfl⟩ := List.mem_map.mp isEdge
  obtain ⟨source, dialer, row, portOf, listed, rowScanned, inRow, -⟩ := mem_scanCells scanned inCells
  obtain ⟨rfl, -, -⟩ := fromNode_of_mem rowScanned inRow
  have verdicts := scanRow_verdicts rowScanned
  have reached : c.edge.reachable = true := usable.1
  cases dialer with
  | none =>
    rw [(verdicts.unreachable rfl _ inRow).1] at reached
    cases reached
  | some dialer =>
    refine ⟨c.edge, dialer, portOf, row, rfl, listed, rowScanned, inRow, fun f there p probe off => ?_⟩
    rw [(verdicts.disabled ⟨f, there, p, probe, off⟩ _ inRow).1] at reached
    cases reached

theorem usable_of_walk {topology : TopologyResult} {u v : String} {walk : List TopologyEdge}
    (isWalk : IsWalk topology u walk v) : ∀ e ∈ walk, e ∈ topology.edges ∧ Usable e := by
  induction walk generalizing u with
  | nil => exact nofun
  | cons f walk ih =>
    obtain ⟨inEdges, usable, -, -, rest⟩ := isWalk
    intro e member
    obtain rfl | later := List.mem_cons.mp member
    · exact ⟨inEdges, usable⟩
    · exact ih rest e later

end

/-- **The verdicts of a scan are coherent**: within every row, in the adjacency of any
rows, and on every path that is found. -/
theorem scan_coherent :
    (∀ (source : String) (dialer : Option Dialer) (targets : List State.TopologyNode) (portOf : Dict String Int)
      (row : List (State.TopologyEdge ℚ)), scanRow source dialer targets portOf = some row → RowVerdicts dialer row) ∧
    (∀ edges : List (State.TopologyEdge ℚ), ListsReached edges (buildAdjacency edges)) ∧
    ∀ (w : ScanOutcome) (registry : Registry) (include_ exclude : Option (List String))
      (result : State.TopologyResult ℚ), scanTopology w registry include_ exclude = some result →
        ListsReached result.edges result.adjacency ∧
        ∀ target path, findPath (pathTopology result) target = some (some path) →
          ∃ walk, IsWalk (pathTopology result) localNode walk target ∧ path = walkHops walk ∧
            ∀ e ∈ walk, FromOpenSource w result.nodes e := by
  refine ⟨fun _ _ _ _ _ scanned => scanRow_verdicts scanned, buildAdjacency_listsReached, ?_⟩
  intro w registry include_ exclude result scanned
  obtain ⟨cells, cellsScanned, ⟨⟩⟩ := Option.bind_eq_some_iff.mp scanned
  refine ⟨buildAdjacency_listsReached _, fun target path found => ?_⟩
  obtain ⟨answer, result, answers⟩ := findPath_answers (pathTopology _) target
  rw [found] at result
  obtain rfl := Option.some.inj result
  obtain ⟨walk, isWalk, path, -⟩ := answers
  refine ⟨walk, isWalk, path, fun e member => ?_⟩
  obtain ⟨inEdges, usable⟩ := usable_of_walk isWalk e member
  exact fromOpenSource_of_usable cellsScanned inEdges usable

end McpSsh
