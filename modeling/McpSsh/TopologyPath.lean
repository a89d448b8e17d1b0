import McpSsh.Topology
import Mathlib.Tactic.Linarith

/-!
# `find_path` finds a cheapest path

The loop is an instance of best-first search over the usable edges that do not
lead back to `local`.
-/

set_option autoImplicit false

namespace McpSsh

open Base

theorem hopOf_eq_some_iff {edge : TopologyEdge} {hop : Hop} :
    hopOf edge = some hop ↔ Usable edge ∧ hop = ⟨edge.toNode, edge.via.getD "", edgeLatency edge⟩ := by
  unfold hopOf Usable
  cases edge.reachable <;> cases edge.sourceState <;> cases edge.via <;> simp [eq_comm]

instance (edge : TopologyEdge) : Decidable (Usable edge) := by
  unfold Usable
  infer_instance

/-- The edges the search follows. -/
def followed (topology : TopologyResult) : List TopologyEdge :=
  topology.edges.filter fun e => Usable e ∧ e.toNode ≠ localNode

/-- The search problem of `find_path`. -/
def pathGraph (topology : TopologyResult) : CostGraph String TopologyEdge PathCost where
  edges := followed topology
  source := TopologyEdge.fromNode
  target := TopologyEdge.toNode
  extend cost e := addHop cost (edgeLatency e)

theorem mem_followed {topology : TopologyResult} {e : TopologyEdge} :
    e ∈ followed topology ↔ e ∈ topology.edges ∧ Usable e ∧ e.toNode ≠ localNode := by
  simp [followed]

theorem pathGraph_monotone (topology : TopologyResult) : (pathGraph topology).Monotone := by
  refine ⟨fun c e => ?_, fun c d e cheaper => ?_⟩
  · rw [Prod.Lex.lt_iff]
    exact .inl (Nat.lt_succ_self _)
  · rw [Prod.Lex.le_iff] at cheaper ⊢
    rcases cheaper with fewer | ⟨same, faster⟩
    · exact .inl (Nat.succ_lt_succ fewer)
    · refine .inr ⟨congrArg (· + 1) same, ?_⟩
      simp only [pathGraph, addHop, ofLex_toLex]
      linarith

/-- The hops out of a node are its usable edges, in order. -/
theorem get?_hopGraph (edges : List TopologyEdge) (u : String) :
    ((hopGraph edges).get? u).getD [] = (edges.filter fun e => e.fromNode = u).filterMap hopOf := by
  have grows : ∀ (edges : List TopologyEdge) (graph : Dict String (List Hop)),
      ((edges.foldl addEdge graph).get? u).getD [] =
      (graph.get? u).getD [] ++ (edges.filter fun e => e.fromNode = u).filterMap hopOf := by
    intro edges
    induction edges with
    | nil => simp
    | cons edge edges ih =>
      intro graph
      rw [List.foldl_cons, ih]
      cases hop : hopOf edge with
      | none => by_cases here : edge.fromNode = u <;> simp [addEdge, here, hop]
      | some hop' =>
        by_cases here : edge.fromNode = u
        · simp [addEdge, here, hop]
        · simp [addEdge, here, hop, Dict.get?_insert, Ne.symm here]
  simpa [hopGraph] using grows edges Dict.empty

/-- The inner loop as a loop over the edges that the search follows. -/
theorem foldl_relaxHop (topology : TopologyResult) (x : HeapEntry) (s : PathState) :
    (((hopGraph topology.edges).get? x.node).getD []).foldl (relaxHop x) s =
      ((followed topology).filter fun e => e.fromNode = x.node).foldl
        (fun s e => relaxHop x s ⟨e.toNode, e.via.getD "", edgeLatency e⟩) s := by
  have skips : ∀ (edges : List TopologyEdge) (s : PathState),
      ((edges.filter fun e => e.fromNode = x.node).filterMap hopOf).foldl (relaxHop x) s =
        ((edges.filter fun e => Usable e ∧ e.toNode ≠ localNode).filter fun e => e.fromNode = x.node).foldl
          (fun s e => relaxHop x s ⟨e.toNode, e.via.getD "", edgeLatency e⟩) s := by
    intro edges
    induction edges with
    | nil => simp
    | cons e edges ih =>
      intro s
      by_cases here : e.fromNode = x.node
      · by_cases usable : Usable e
        · have hop := hopOf_eq_some_iff.mpr ⟨usable, rfl⟩
          by_cases back : e.toNode = localNode
          · simpa [here, usable, hop, back, relaxHop] using ih s
          · simpa [here, usable, hop, back] using ih _
        · have none_ : hopOf e = none := by
            rw [Option.eq_none_iff_forall_ne_some]
            intro hop some_
            exact usable (hopOf_eq_some_iff.mp some_).1
          simpa [here, usable, none_] using ih s
      · by_cases kept : Usable e ∧ e.toNode ≠ localNode
        · simpa [here, kept.1, kept.2] using ih s
        · simpa [here, kept] using ih s
  rw [get?_hopGraph]
  exact skips topology.edges s

/-! ## Walks and entries -/

theorem isWalk_append {topology : TopologyResult} {u v : String} {walk : List TopologyEdge} {e : TopologyEdge}
    (before : IsWalk topology u walk v) (member : e ∈ topology.edges) (usable : Usable e) (source : e.fromNode = v)
    (onward : e.toNode ≠ localNode) : IsWalk topology u (walk ++ [e]) e.toNode := by
  induction walk generalizing u with
  | nil =>
    obtain rfl : u = v := before
    exact ⟨member, usable, source, onward, rfl⟩
  | cons f walk ih =>
    obtain ⟨inEdges, ok, from_, away, rest⟩ := before
    exact ⟨inEdges, ok, from_, away, ih rest⟩

theorem walkCost_append (walk : List TopologyEdge) (e : TopologyEdge) :
    walkCost (walk ++ [e]) = addHop (walkCost walk) (edgeLatency e) := by
  simp [walkCost, addHop]

/-- Every walk of `IsWalk` is a walk of the search, at the same cost. -/
theorem walk_of_isWalk {topology : TopologyResult} {walk : List TopologyEdge} {v : String}
    (isWalk : IsWalk topology localNode walk v) :
    (pathGraph topology).Walk localNode (toLex (0, 0)) v (walkCost walk) := by
  have onward : ∀ (rest : List TopologyEdge) (before : List TopologyEdge) (u : String),
      (pathGraph topology).Walk localNode (toLex (0, 0)) u (walkCost before) → IsWalk topology u rest v →
        (pathGraph topology).Walk localNode (toLex (0, 0)) v (walkCost (before ++ rest)) := by
    intro rest
    induction rest with
    | nil =>
      rintro before u reached rfl
      simpa using reached
    | cons e rest ih =>
      rintro before u reached ⟨member, usable, source, away, more⟩
      have step := reached.step (e := e) (mem_followed.mpr ⟨member, usable, away⟩) source
      have cost : (pathGraph topology).extend (walkCost before) e = walkCost (before ++ [e]) :=
        (walkCost_append before e).symm
      rw [cost] at step
      simpa using ih (before ++ [e]) e.toNode step more
  simpa using onward walk [] localNode .start isWalk

/-- An entry records a walk to its node. -/
def Records (topology : TopologyResult) (x : HeapEntry) : Prop :=
  ∃ walk, IsWalk topology localNode walk x.node ∧ x.path = walkHops walk ∧ x.cost = walkCost walk

theorem Records.extend {topology : TopologyResult} {x : HeapEntry} (records : Records topology x) {e : TopologyEdge}
    (member : e ∈ followed topology) (source : e.fromNode = x.node) :
    Records topology ⟨addHop x.cost (edgeLatency e), e.toNode, x.path ++ [(e.toNode, e.via.getD "")]⟩ := by
  obtain ⟨walk, isWalk, path, cost⟩ := records
  obtain ⟨inEdges, usable, away⟩ := mem_followed.mp member
  exact ⟨walk ++ [e], isWalk_append isWalk inEdges usable source away, by simp [path, walkHops],
    by rw [cost, walkCost_append]⟩

/-! ## The heap -/

theorem heapMin_mem (x : HeapEntry) (xs : List HeapEntry) : heapMin x xs ∈ x :: xs := by
  induction xs generalizing x with
  | nil => simp [heapMin]
  | cons y ys ih =>
    rw [heapMin]
    split
    · exact List.mem_cons_of_mem x (ih y)
    · rcases List.mem_cons.mp (ih x) with same | later
      · simp [same]
      · simp [later]

theorem heapMin_le (x : HeapEntry) (xs : List HeapEntry) : ∀ y ∈ x :: xs, heapKey (heapMin x xs) ≤ heapKey y := by
  induction xs generalizing x with
  | nil => simp [heapMin]
  | cons z zs ih =>
    intro y member
    rw [heapMin]
    split
    · rename_i smaller
      rcases List.mem_cons.mp member with rfl | later
      · exact (ih z z (by simp)).trans (le_of_lt smaller)
      · exact ih z y later
    · rename_i larger
      rcases List.mem_cons.mp member with rfl | later
      · exact ih _ _ (by simp)
      · rcases List.mem_cons.mp later with rfl | later
        · exact (ih x x (by simp)).trans (le_of_not_gt larger)
        · exact ih x y (by simp [later])

/-- What `heappop` does: it removes one entry than which none is cheaper. -/
theorem heapPop_spec {heap : List HeapEntry} {x : HeapEntry} {rest : List HeapEntry}
    (popped : heapPop heap = some (x, rest)) :
    x ∈ heap ∧ CostGraph.Cheapest x heap ∧ (∀ y, y ∈ heap → y = x ∨ y ∈ rest) ∧ (∀ y ∈ rest, y ∈ heap) ∧
      rest.length + 1 = heap.length := by
  cases heap with
  | nil => cases popped
  | cons z zs =>
    simp only [heapPop, Option.some.injEq, Prod.mk.injEq] at popped
    obtain ⟨rfl, rfl⟩ := popped
    have member := heapMin_mem z zs
    refine ⟨member, fun y inHeap => ?_, fun y inHeap => ?_, fun y inRest => List.mem_of_mem_erase inRest, ?_⟩
    · have least := heapMin_le z zs y inHeap
      rw [heapKey, heapKey, Prod.Lex.le_iff] at least
      rcases least with fewer | ⟨same, -⟩
      · exact le_of_lt fewer
      · exact le_of_eq same
    · by_cases same : y = heapMin z zs
      · exact .inl same
      · exact .inr ((List.mem_erase_of_ne same).mpr inHeap)
    · rw [List.length_erase_of_mem member]
      simp

/-! ## The loop -/

/-- The search invariant of the state, with `closed` nodes and edges still to relax. -/
abbrev Searching (topology : TopologyResult) (pending : TopologyEdge → Prop) (closed : List String) (s : PathState) :
    Prop :=
  (pathGraph topology).Search localNode (toLex (0, 0)) (Records topology) pending closed s.heap s.best.get?

theorem searching_initial (topology : TopologyResult) : Searching topology (fun _ => False) [] PathState.initial := by
  have records : Records topology ⟨toLex (0, 0), localNode, []⟩ := ⟨[], rfl, rfl, rfl⟩
  have start := CostGraph.Search.init (pathGraph topology) rfl rfl records
  have best : PathState.initial.best.get? = fun u => if u = localNode then some (toLex (0, 0)) else none := by
    funext u
    simp [PathState.initial, Dict.get?_insert]
  rw [Searching, best]
  exact start

/-- Relaxing one edge out of the node of a closed entry. -/
theorem searching_relaxHop {topology : TopologyResult} (pending : TopologyEdge → Prop) {closed : List String}
    {s : PathState} {x : HeapEntry} {e : TopologyEdge}
    (searching : Searching topology (fun f => f = e ∨ pending f) closed s) (records : Records topology x)
    (known : s.best.get? x.node = some x.cost)
    (top : ∀ v ∈ closed, ∃ b, s.best.get? v = some b ∧ b ≤ x.cost) (member : e ∈ followed topology)
    (source : e.fromNode = x.node) :
    let s' := relaxHop x s ⟨e.toNode, e.via.getD "", edgeLatency e⟩
    Searching topology pending closed s' ∧ s'.heap.length ≤ s.heap.length + 1 ∧
      ∀ v ∈ closed, s'.best.get? v = s.best.get? v := by
  have monotone := pathGraph_monotone topology
  have away := (mem_followed.mp member).2.2
  have atSource : s.best.get? ((pathGraph topology).source e) = some x.cost := by rw [← known, ← source]; rfl
  have improves : (∀ d, s.best.get? e.toNode = some d → addHop x.cost (edgeLatency e) < d) →
      Searching topology pending closed ⟨⟨addHop x.cost (edgeLatency e), e.toNode, x.path ++ [(e.toNode, e.via.getD "")]⟩ ::
        s.heap, s.best.insert e.toNode (addHop x.cost (edgeLatency e))⟩ ∧
      ∀ v ∈ closed, (s.best.insert e.toNode (addHop x.cost (edgeLatency e))).get? v = s.best.get? v := by
    intro better
    have opened := CostGraph.target_open (g := pathGraph topology) monotone top better
    refine ⟨?_, fun v closed_ => ?_⟩
    · have improved := searching.improve monotone atSource top better (y := ⟨addHop x.cost (edgeLatency e), e.toNode,
        x.path ++ [(e.toNode, e.via.getD "")]⟩) rfl rfl (records.extend member source)
      have best : (s.best.insert e.toNode (addHop x.cost (edgeLatency e))).get? =
          fun v => if v = e.toNode then some (addHop x.cost (edgeLatency e)) else s.best.get? v := by
        funext v
        exact Dict.get?_insert
      rw [Searching, best]
      exact improved
    · rw [Dict.get?_insert, if_neg]
      rintro rfl
      exact opened closed_
  simp only [relaxHop, away, if_false]
  cases target : s.best.get? e.toNode with
  | none =>
    obtain ⟨improved, same⟩ := improves (by simp [target])
    exact ⟨improved, le_refl _, same⟩
  | some d =>
    by_cases better : addHop x.cost (edgeLatency e) < d
    · obtain ⟨improved, same⟩ := improves (by simpa [target] using better)
      simp only [better, if_true]
      exact ⟨improved, by simp, same⟩
    · simp only [better, if_false]
      exact ⟨searching.skip atSource target (le_of_not_gt better), Nat.le_succ _, by simp⟩

/-- Relaxing every edge in `todo`. -/
theorem searching_foldl {topology : TopologyResult} {closed : List String} {x : HeapEntry} (todo : List TopologyEdge)
    (sources : ∀ e ∈ todo, e ∈ followed topology ∧ e.fromNode = x.node) (records : Records topology x)
    (inside : x.node ∈ closed) {s : PathState} (searching : Searching topology (fun f => f ∈ todo) closed s)
    (known : s.best.get? x.node = some x.cost) (top : ∀ v ∈ closed, ∃ b, s.best.get? v = some b ∧ b ≤ x.cost) :
    let s' := todo.foldl (fun s e => relaxHop x s ⟨e.toNode, e.via.getD "", edgeLatency e⟩) s
    Searching topology (fun _ => False) closed s' ∧ s'.heap.length ≤ s.heap.length + todo.length := by
  induction todo generalizing s with
  | nil => exact ⟨searching.pending_mono (by simp), by simp⟩
  | cons e todo ih =>
    obtain ⟨member, source⟩ := sources e (by simp)
    obtain ⟨relaxed, longer, same⟩ := searching_relaxHop (fun f => f ∈ todo)
      (searching.pending_mono (by simp)) records known top member source
    obtain ⟨rest, length⟩ := ih (fun f inTodo => sources f (by simp [inTodo])) relaxed
      ((same _ inside).trans known) (fun v closed_ => by rw [same v closed_]; exact top v closed_)
    refine ⟨rest, length.trans ?_⟩
    simp only [List.length_cons]
    omega

/-- An outdated entry improves nothing. -/
theorem foldl_relaxHop_of_settled {x : HeapEntry} {todo : List TopologyEdge} {s : PathState}
    (settled : ∀ e ∈ todo, ∃ c, s.best.get? e.toNode = some c ∧ c ≤ addHop x.cost (edgeLatency e)) :
    todo.foldl (fun s e => relaxHop x s ⟨e.toNode, e.via.getD "", edgeLatency e⟩) s = s := by
  induction todo with
  | nil => rfl
  | cons e todo ih =>
    obtain ⟨c, known, cheap⟩ := settled e (by simp)
    have idle : relaxHop x s ⟨e.toNode, e.via.getD "", edgeLatency e⟩ = s := by
      simp [relaxHop, known, not_lt_of_ge cheap]
    rw [List.foldl_cons, idle]
    exact ih fun f member => settled f (by simp [member])

/-- What the search answers. -/
def Answers (topology : TopologyResult) (target : String) : Option (List (String × String)) → Prop
  | some path => Optimal topology target path
  | none => ∀ walk, ¬ IsWalk topology localNode walk target

section

variable {topology : TopologyResult} {target : String} {closed : List String} {s : PathState} {x : HeapEntry}
  {rest : List HeapEntry}

/-- Nothing is left to expand: the target cannot be reached. -/
theorem answers_exhausted (searching : Searching topology (fun _ => False) closed s) (open_ : target ∉ closed)
    (popped : heapPop s.heap = none) : Answers topology target none := by
  intro walk isWalk
  have empty : s.heap = [] := by
    cases heap : s.heap with
    | nil => rfl
    | cons y ys =>
      rw [heap] at popped
      cases popped
  rw [Searching, empty] at searching
  exact open_ (searching.exhausted (pathGraph_monotone topology) (walk_of_isWalk isWalk))

/-- A cheapest entry of an open node is a cheapest walk to it. -/
theorem answers_cheapest (searching : Searching topology (fun _ => False) closed s) (open_ : x.node ∉ closed)
    (member : x ∈ s.heap) (cheapest : CostGraph.Cheapest x s.heap) : Answers topology x.node (some x.path) := by
  obtain ⟨⟨walk, isWalk, path, cost⟩, -⟩ := searching.entries x member
  refine ⟨walk, isWalk, path, fun other isOther => ?_⟩
  rw [← cost]
  exact searching.optimal (pathGraph_monotone topology) cheapest open_ (walk_of_isWalk isOther)

/-- An outdated entry leaves the heap, and nothing else happens. -/
theorem searching_outdated (searching : Searching topology (fun _ => False) closed s)
    (popped : heapPop s.heap = some (x, rest)) (inside : x.node ∈ closed) :
    let s' := (((hopGraph topology.edges).get? x.node).getD []).foldl (relaxHop x) { s with heap := rest }
    Searching topology (fun _ => False) closed s' ∧
      (pathGraph topology).potential closed s'.heap.length < (pathGraph topology).potential closed s.heap.length := by
  intro s'
  obtain ⟨member, -, split, fewer, length⟩ := heapPop_spec popped
  obtain ⟨dropped, settled⟩ := searching.drop (pathGraph_monotone topology) member split fewer inside
  have same : s' = { s with heap := rest } := by
    simp only [s']
    rw [foldl_relaxHop, foldl_relaxHop_of_settled]
    intro e inTodo
    simp only [List.mem_filter, decide_eq_true_eq] at inTodo
    exact settled e inTodo.1 inTodo.2
  rw [same]
  refine ⟨dropped, ?_⟩
  simp only [CostGraph.potential]
  omega

/-- The first entry of a node closes it, and its edges are relaxed. -/
theorem searching_closes (searching : Searching topology (fun _ => False) closed s)
    (popped : heapPop s.heap = some (x, rest)) (outside : x.node ∉ closed) :
    let s' := (((hopGraph topology.edges).get? x.node).getD []).foldl (relaxHop x) { s with heap := rest }
    Searching topology (fun _ => False) (x.node :: closed) s' ∧
      (pathGraph topology).potential (x.node :: closed) s'.heap.length <
        (pathGraph topology).potential closed s.heap.length := by
  intro s'
  obtain ⟨member, cheapest, split, fewer, length⟩ := heapPop_spec popped
  obtain ⟨records, -⟩ := searching.entries x member
  obtain ⟨known, closes⟩ := searching.close cheapest member split fewer outside
  have top : ∀ v ∈ x.node :: closed, ∃ b, s.best.get? v = some b ∧ b ≤ x.cost := by
    intro v inClosed
    rcases List.mem_cons.mp inClosed with rfl | earlier
    · exact ⟨x.cost, known, le_refl _⟩
    · obtain ⟨b, bestV, cheap⟩ := searching.ordered v earlier
      exact ⟨b, bestV, cheap x member⟩
  obtain ⟨relaxed, longer⟩ := searching_foldl (s := { s with heap := rest })
    ((followed topology).filter fun e => e.fromNode = x.node)
    (fun e inTodo => by simpa using inTodo) records (by simp)
    (closes.pending_mono fun e edge source => by simpa using ⟨edge, source⟩) known top
  rw [← foldl_relaxHop] at relaxed longer
  refine ⟨relaxed, ?_⟩
  have less : (pathGraph topology).potential (x.node :: closed) rest.length +
      ((followed topology).filter fun e => e.fromNode = x.node).length =
        (pathGraph topology).potential closed rest.length :=
    (pathGraph topology).potential_close outside rest.length
  change s'.heap.length ≤ rest.length + _ at longer
  simp only [CostGraph.potential] at less ⊢
  omega

end

/-- **The loop ends within its measure, with the right answer.** -/
theorem pathLoop_answers {topology : TopologyResult} (target : String) {closed : List String} {s : PathState}
    (searching : Searching topology (fun _ => False) closed s) (open_ : target ∉ closed) {n : Nat}
    (enough : (pathGraph topology).potential closed s.heap.length < n) :
    ∃ answer, pathLoop (hopGraph topology.edges) target n s = some answer ∧ Answers topology target answer := by
  induction n generalizing closed s with
  | zero => omega
  | succ n ih =>
    rw [pathLoop]
    cases popped : heapPop s.heap with
    | none => exact ⟨none, rfl, answers_exhausted searching open_ popped⟩
    | some popped_ =>
      obtain ⟨x, rest⟩ := popped_
      by_cases found : x.node = target
      · subst found
        obtain ⟨member, cheapest, -⟩ := heapPop_spec popped
        exact ⟨some x.path, by simp, answers_cheapest searching open_ member cheapest⟩
      · simp only [found, if_false]
        by_cases inside : x.node ∈ closed
        · obtain ⟨kept, less⟩ := searching_outdated searching popped inside
          exact ih kept open_ (by omega)
        · obtain ⟨kept, less⟩ := searching_closes searching popped inside
          exact ih kept (by simpa using ⟨Ne.symm found, open_⟩) (by omega)

theorem findPath_answers (topology : TopologyResult) (target : String) :
    ∃ answer, findPath topology target = some answer ∧ Answers topology target answer := by
  have enough : (pathGraph topology).potential [] PathState.initial.heap.length < topology.edges.length + 2 := by
    have fewer : (followed topology).length ≤ topology.edges.length := List.length_filter_le _ _
    rw [CostGraph.potential_nil]
    simp only [pathGraph, PathState.initial, List.length_singleton]
    omega
  exact pathLoop_answers target (searching_initial topology) (by simp) enough

/-- **`find_path` ends, and its answer is a cheapest walk or none exists.** -/
theorem findPath_optimal (topology : TopologyResult) (target : String) :
    ∃ answer, findPath topology target = some answer ∧
      (∀ path, answer = some path → Optimal topology target path) ∧
      (answer = none ↔ ∀ walk, ¬ IsWalk topology localNode walk target) := by
  obtain ⟨answer, result, answers⟩ := findPath_answers topology target
  refine ⟨answer, result, ?_, ?_⟩
  · rintro path rfl
    exact answers
  · cases answer with
    | none => exact ⟨fun _ => answers, fun _ => rfl⟩
    | some path =>
      obtain ⟨walk, isWalk, -⟩ := answers
      simp only [reduceCtorEq, false_iff, not_forall, not_not]
      exact ⟨walk, isWalk⟩

end McpSsh
