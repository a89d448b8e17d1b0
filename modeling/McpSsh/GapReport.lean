import McpSsh.ScanVerdicts
import Mathlib.Data.List.Dedup

/-!
# What is said when there is no path

`path_gap_report` of `topology.py`, beside `find_path`. The report reads the adjacency and
the reachable flags, the search reads the winning addresses and the states of the sources;
on what a scan returns the two agree, so the report tells where the paths stop.
-/

set_option autoImplicit false

namespace McpSsh

open Base

/-- The answer of `path_gap_report`. -/
structure GapReport where
  reachableFromLocal : List String
  reachableAnywhere : List String
  targetReachableAnywhere : Bool
deriving DecidableEq

/-- `path_gap_report`. -/
def pathGapReport (topology : State.TopologyResult ℚ) (target : String) : GapReport :=
  let reachable := topology.edges.filter fun e => e.reachable
  let all := (reachable.map State.TopologyEdge.toNode).dedup.mergeSort fun a b => a ≤ b
  { reachableFromLocal := ((topology.adjacency.get? localNode).getD []).mergeSort fun a b => a ≤ b
    reachableAnywhere := all
    targetReachableAnywhere := all.contains target }

/-- What a report says about the paths of its topology. The neighbours are the nodes that
are one hop away, every path starts at one of them and stays on the nodes that are
reachable at all, and a target without a path is reachable only from nodes that have no
path either. -/
structure Explains (topology : State.TopologyResult ℚ) (target : String) (report : GapReport) : Prop where
  neighbours : ∀ name, name ≠ localNode → (name ∈ report.reachableFromLocal ↔
    ∃ via, findPath (pathTopology topology) name = some (some [(name, via)]))
  starts : ∀ name hop path, findPath (pathTopology topology) name = some (some (hop :: path)) →
    hop.1 ∈ report.reachableFromLocal
  inside : ∀ name path, findPath (pathTopology topology) name = some (some path) →
    ∀ hop ∈ path, hop.1 ∈ report.reachableAnywhere
  away : target ∉ report.reachableFromLocal
  beyond : report.targetReachableAnywhere = true ↔ ∃ e ∈ topology.edges, e.reachable = true ∧ e.toNode = target
  cut : ∀ e ∈ topology.edges, e.reachable = true → e.toNode = target →
    findPath (pathTopology topology) e.fromNode = some none

/-! ## What a search answers -/

section

variable {topology : TopologyResult} {u v : String}

theorem optimal_of_found {path : List (String × String)} (found : findPath topology v = some (some path)) :
    Optimal topology v path := by
  obtain ⟨answer, result, answers⟩ := findPath_answers topology v
  rw [found] at result
  cases result
  exact answers

theorem findPath_none_iff : findPath topology v = some none ↔ ∀ walk, ¬ IsWalk topology localNode walk v := by
  obtain ⟨answer, result, answers⟩ := findPath_answers topology v
  constructor
  · intro none_
    rw [none_] at result
    cases result
    exact answers
  · intro no
    cases answer with
    | none => exact result
    | some path =>
      obtain ⟨walk, isWalk, -⟩ := answers
      exact absurd isWalk (no walk)

/-- A node at the end of an edge out of `local` is found in one hop. -/
theorem found_of_edge {e : TopologyEdge} (member : e ∈ topology.edges) (usable : Usable e)
    (source : e.fromNode = localNode) (onward : e.toNode ≠ localNode) :
    ∃ via, findPath topology e.toNode = some (some [(e.toNode, via)]) := by
  have short : IsWalk topology localNode [e] e.toNode := ⟨member, usable, source, onward, rfl⟩
  obtain ⟨answer, result, answers⟩ := findPath_answers topology e.toNode
  cases answer with
  | none => exact absurd short (answers [e])
  | some path =>
    obtain ⟨walk, isWalk, rfl, cheapest⟩ := answers
    have least := cheapest [e] short
    match walk, isWalk, least, result with
    | [], here, _, _ => exact absurd here.symm onward
    | [f], isWalk, _, result =>
      obtain ⟨-, -, -, -, ends⟩ := isWalk
      have ends : f.toNode = e.toNode := ends
      exact ⟨f.via.getD "", by rw [result, walkHops, List.map_singleton, ends]⟩
    | f :: g :: rest, _, least, _ =>
      rw [walkCost, walkCost, Prod.Lex.le_iff] at least
      simp at least

theorem edge_of_hop {path : List (String × String)} {hop : String × String}
    (found : findPath topology v = some (some (hop :: path))) :
    ∃ e ∈ topology.edges, Usable e ∧ e.fromNode = localNode ∧ e.toNode ≠ localNode ∧ e.toNode = hop.1 := by
  obtain ⟨walk, isWalk, hops, -⟩ := optimal_of_found found
  cases walk with
  | nil => cases hops
  | cons e walk =>
    cases hops
    obtain ⟨member, usable, source, onward, -⟩ := isWalk
    exact ⟨e, member, usable, source, onward, rfl⟩

end

/-! ## What a scan marks as reachable -/

section

variable {w : ScanOutcome} {registry : Registry} {include_ exclude : Option (List String)}
  {result : State.TopologyResult ℚ}

/-- What the report counts as reachable, a path may use. -/
theorem usable_of_reachable (scanned : scanTopology w registry include_ exclude = some result)
    {e : State.TopologyEdge ℚ} (member : e ∈ result.edges) : Usable (pathEdge e) ↔ e.reachable = true := by
  obtain ⟨cells, cellsScanned, ⟨⟩⟩ := Option.bind_eq_some_iff.mp scanned
  obtain ⟨c, inCells, rfl⟩ := List.mem_map.mp member
  obtain ⟨source, dialer, row, portOf, -, rowScanned, inRow, -⟩ := mem_scanCells cellsScanned inCells
  have verdicts := scanRow_verdicts rowScanned
  refine ⟨fun usable => usable.1, fun reached => ?_⟩
  exact ⟨reached, (verdicts.reachable _ inRow).mp reached, (verdicts.winner _ inRow reached).1⟩

theorem mem_reachableFromLocal (scanned : scanTopology w registry include_ exclude = some result) {target name : String} :
    name ∈ (pathGapReport result target).reachableFromLocal ↔
      ∃ e ∈ (pathTopology result).edges, Usable e ∧ e.fromNode = localNode ∧ e.toNode = name := by
  have adjacency : result.adjacency = buildAdjacency result.edges := by
    obtain ⟨cells, -, ⟨⟩⟩ := Option.bind_eq_some_iff.mp scanned
    rfl
  have lists : (((buildAdjacency result.edges).get? localNode).getD []).Perm (reached result.edges localNode) :=
    (buildAdjacency_listsReached result.edges).exact_ localNode
  rw [pathGapReport, List.mem_mergeSort, adjacency, lists.mem_iff, reached]
  constructor
  · intro listed
    obtain ⟨e, kept, rfl⟩ := List.mem_map.mp listed
    obtain ⟨member, holds⟩ := List.mem_filter.mp kept
    obtain ⟨open_, source⟩ := of_decide_eq_true holds
    exact ⟨pathEdge e, List.mem_map_of_mem member, (usable_of_reachable scanned member).mpr open_, source, rfl⟩
  · rintro ⟨_, inEdges, usable, source, rfl⟩
    obtain ⟨e, member, rfl⟩ := List.mem_map.mp inEdges
    have open_ := (usable_of_reachable scanned member).mp usable
    exact List.mem_map_of_mem (List.mem_filter.mpr ⟨member, decide_eq_true ⟨open_, source⟩⟩)

theorem mem_reachableAnywhere {target name : String} : name ∈ (pathGapReport result target).reachableAnywhere ↔
    ∃ e ∈ result.edges, e.reachable = true ∧ e.toNode = name := by
  rw [pathGapReport, List.mem_mergeSort, List.mem_dedup, List.mem_map]
  simp only [List.mem_filter, and_assoc]

theorem targetReachableAnywhere_iff {target : String} : (pathGapReport result target).targetReachableAnywhere = true ↔
    target ∈ (pathGapReport result target).reachableAnywhere :=
  List.contains_iff_mem

end

/-- **A report explains why there is no path**: for every scan and every target that
`find_path` finds no path to. -/
theorem gap_explained (w : ScanOutcome) (registry : Registry) (include_ exclude : Option (List String))
    (result : State.TopologyResult ℚ) (scanned : scanTopology w registry include_ exclude = some result) (target : String)
    (gap : findPath (pathTopology result) target = some none) :
    Explains result target (pathGapReport result target) := by
  have away : target ≠ localNode := by
    rintro rfl
    exact findPath_none_iff.mp gap [] rfl
  have neighbours : ∀ name, name ≠ localNode → (name ∈ (pathGapReport result target).reachableFromLocal ↔
      ∃ via, findPath (pathTopology result) name = some (some [(name, via)])) := by
    intro name other
    rw [mem_reachableFromLocal scanned]
    constructor
    · rintro ⟨e, member, usable, source, rfl⟩
      exact found_of_edge member usable source other
    · rintro ⟨via, found⟩
      obtain ⟨e, member, usable, source, -, same⟩ := edge_of_hop found
      exact ⟨e, member, usable, source, same⟩
  have cut : ∀ e ∈ result.edges, e.reachable = true → e.toNode = target →
      findPath (pathTopology result) e.fromNode = some none := by
    intro e member open_ into
    rw [findPath_none_iff]
    intro walk isWalk
    subst into
    have usable := (usable_of_reachable scanned member).mpr open_
    have longer : IsWalk (pathTopology result) localNode (walk ++ [pathEdge e]) e.toNode :=
      isWalk_append isWalk (List.mem_map_of_mem member) usable rfl away
    exact findPath_none_iff.mp gap _ longer
  refine ⟨neighbours, fun name hop path found => ?_, fun name path found hop onPath => ?_, fun listed => ?_,
    targetReachableAnywhere_iff.trans mem_reachableAnywhere, cut⟩
  · obtain ⟨e, member, usable, source, -, same⟩ := edge_of_hop found
    exact (mem_reachableFromLocal scanned).mpr ⟨e, member, usable, source, same⟩
  · obtain ⟨walk, isWalk, rfl, -⟩ := optimal_of_found found
    obtain ⟨f, inWalk, rfl⟩ := List.mem_map.mp onPath
    obtain ⟨inEdges, usable⟩ := usable_of_walk isWalk f inWalk
    obtain ⟨e, member, rfl⟩ := List.mem_map.mp inEdges
    exact mem_reachableAnywhere.mpr ⟨e, member, usable.1, rfl⟩
  · obtain ⟨via, found⟩ := (neighbours target away).mp listed
    rw [gap] at found
    cases found

/-- Two servers: the host gets through to neither, and `web` to `db`. -/
def walledServer (name : String) : ServerConfig := { name, host := "10.0.0.1", user := "op", authType := .agent }

def walledRegistry : Registry :=
  ⟨{}, (Dict.empty.insert "db" (walledServer "db")).insert "web" (walledServer "web")⟩

def walledScan : ScanOutcome where
  scannedAt := ⟨0, some 0⟩
  connects _ := .ok ()
  harvest _ := .ok []
  host _ _ _ _ := .raised .timeout
  source i := if i = 1 then .ok fun _ _ _ _ => .opened 3 none else .error "unreachable"

theorem gap_explained_walled : ∃ result, scanTopology walledScan walledRegistry none none = some result ∧
    Explains result "db" (pathGapReport result "db") ∧
      (pathGapReport result "db").targetReachableAnywhere = true :=
  ⟨_, rfl, gap_explained walledScan walledRegistry none none _ rfl "db" (by decide +kernel), by decide +kernel⟩

end McpSsh
