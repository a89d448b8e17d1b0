import Mathlib.Order.Lattice
import Mathlib.Data.List.Basic

/-!
# Best-first search with lazy deletion

The search keeps a list of open entries and the best cost known for each node. It
removes a cheapest entry, relaxes the edges out of its node, and never looks for
outdated entries. Costs are any linear order in which an edge makes every cost
larger and keeps their order. The invariant says that the closed nodes carry the
cost of a cheapest walk; a measure on the open entries and the edges out of open
nodes drops with every turn.
-/

set_option autoImplicit false

namespace McpSsh.Base

/-- Edges between nodes, and what an edge does to the cost of a walk. -/
structure CostGraph (α ε κ : Type) where
  edges : List ε
  source : ε → α
  target : ε → α
  extend : κ → ε → κ

/-- An edge makes a walk dearer, and keeps the order of costs. -/
structure CostGraph.Monotone {α ε κ : Type} [LinearOrder κ] (g : CostGraph α ε κ) : Prop where
  dearer : ∀ c e, c < g.extend c e
  ordered : ∀ c d e, c ≤ d → g.extend c e ≤ g.extend d e

/-- An open entry: what it costs to come to a node, and how. -/
structure OpenEntry (α κ π : Type) where
  cost : κ
  node : α
  path : π
deriving DecidableEq

namespace CostGraph

variable {α ε κ π : Type} [LinearOrder κ]

section

variable (g : CostGraph α ε κ) (start : α) (zero : κ)

/-- There is a walk from `start` to the node with this cost. -/
inductive Walk : α → κ → Prop where
  | start : Walk start zero
  | step {u : α} {c : κ} {e : ε} : Walk u c → e ∈ g.edges → g.source e = u → Walk (g.target e) (g.extend c e)

/-- What holds while the edges in `pending` out of closed nodes are still to be
relaxed. `good` is any property of entries that relaxing an edge preserves. -/
structure Search (good : OpenEntry α κ π → Prop) (pending : ε → Prop) (closed : List α)
    (heap : List (OpenEntry α κ π)) (best : α → Option κ) : Prop where
  /-- Every entry is good and no better than the best known. -/
  entries : ∀ x ∈ heap, good x ∧ ∃ b, best x.node = some b ∧ b ≤ x.cost
  /-- A known cost is final or has its entry. -/
  covered : ∀ u b, best u = some b → u ∈ closed ∨ ∃ x ∈ heap, x.node = u ∧ x.cost = b
  started : ∃ b, best start = some b ∧ b ≤ zero
  /-- Closed nodes are no dearer than any entry. -/
  ordered : ∀ u ∈ closed, ∃ b, best u = some b ∧ ∀ x ∈ heap, b ≤ x.cost
  relaxed : ∀ e ∈ g.edges, g.source e ∈ closed → ¬ pending e → ∀ b, best (g.source e) = some b →
    ∃ c, best (g.target e) = some c ∧ c ≤ g.extend b e

end

variable {g : CostGraph α ε κ} {start : α} {zero : κ} {good : OpenEntry α κ π → Prop} {closed : List α}
  {heap : List (OpenEntry α κ π)} {best : α → Option κ}

/-- No entry is cheaper. -/
def Cheapest (x : OpenEntry α κ π) (heap : List (OpenEntry α κ π)) : Prop := ∀ y ∈ heap, x.cost ≤ y.cost

theorem Search.init [DecidableEq α] (g : CostGraph α ε κ) {x : OpenEntry α κ π} (isStart : x.node = start) (free : x.cost = zero)
    (isGood : good x) :
    g.Search start zero good (fun _ => False) [] [x] fun u => if u = start then some zero else none := by
  refine ⟨?_, ?_, ⟨zero, by simp, le_refl zero⟩, by simp, by simp⟩
  · intro y member
    rw [List.mem_singleton] at member
    subst member
    exact ⟨isGood, zero, by simp [isStart], le_of_eq free.symm⟩
  · intro u b known
    by_cases here : u = start
    · simp only [here, if_true, Option.some.injEq] at known
      exact .inr ⟨x, by simp, isStart.trans here.symm, free.trans known⟩
    · simp [here] at known

/-- A walk stays in the closed nodes, or some entry costs no more. -/
theorem Search.frontier (monotone : g.Monotone)
    (search : g.Search start zero good (fun _ => False) closed heap best) {u : α} {c : κ}
    (walk : g.Walk start zero u c) :
    (u ∈ closed ∧ ∃ b, best u = some b ∧ b ≤ c) ∨ ∃ x ∈ heap, x.cost ≤ c := by
  have settle : ∀ {u : α} {b c : κ}, best u = some b → b ≤ c →
      (u ∈ closed ∧ ∃ b, best u = some b ∧ b ≤ c) ∨ ∃ x ∈ heap, x.cost ≤ c := by
    intro u b c known cheap
    rcases search.covered u b known with inside | ⟨x, member, -, cost⟩
    · exact .inl ⟨inside, b, known, cheap⟩
    · exact .inr ⟨x, member, cost ▸ cheap⟩
  induction walk with
  | start =>
    obtain ⟨b, known, cheap⟩ := search.started
    exact settle known cheap
  | @step u c e _ edge source ih =>
    rcases ih with ⟨inside, b, known, cheap⟩ | ⟨x, member, cheap⟩
    · obtain ⟨d, reached, bound⟩ := search.relaxed e edge (source ▸ inside) (fun h => h) b (source ▸ known)
      exact settle reached (bound.trans (monotone.ordered b c e cheap))
    · exact .inr ⟨x, member, cheap.trans (le_of_lt (monotone.dearer c e))⟩

/-- **A cheapest entry for an open node is a cheapest walk to it.** -/
theorem Search.optimal (monotone : g.Monotone)
    (search : g.Search start zero good (fun _ => False) closed heap best) {x : OpenEntry α κ π}
    (cheapest : Cheapest x heap) {target : α} (open_ : target ∉ closed) {c : κ}
    (walk : g.Walk start zero target c) : x.cost ≤ c := by
  rcases search.frontier monotone walk with ⟨inside, -⟩ | ⟨y, member, cheap⟩
  · exact absurd inside open_
  · exact (cheapest y member).trans cheap

/-- **Without entries every node that can be reached is closed.** -/
theorem Search.exhausted (monotone : g.Monotone)
    (search : g.Search start zero good (fun _ => False) closed [] best) {u : α} {c : κ}
    (walk : g.Walk start zero u c) : u ∈ closed := by
  rcases search.frontier monotone walk with ⟨inside, -⟩ | ⟨y, member, -⟩
  · exact inside
  · cases member

variable {x : OpenEntry α κ π} {rest : List (OpenEntry α κ π)}

/-- Removing a cheapest entry of an open node closes the node. -/
theorem Search.close (search : g.Search start zero good (fun _ => False) closed heap best)
    (cheapest : Cheapest x heap) (member : x ∈ heap) (split : ∀ y, y ∈ heap → y = x ∨ y ∈ rest)
    (fewer : ∀ y ∈ rest, y ∈ heap) (open_ : x.node ∉ closed) :
    best x.node = some x.cost ∧
      g.Search start zero good (fun e => g.source e = x.node) (x.node :: closed) rest best := by
  have settled : best x.node = some x.cost := by
    obtain ⟨-, b, known, cheap⟩ := search.entries x member
    rcases search.covered x.node b known with inside | ⟨y, inHeap, -, cost⟩
    · exact absurd inside open_
    · rw [known, le_antisymm cheap (cost ▸ cheapest y inHeap)]
  refine ⟨settled, fun y inRest => search.entries y (fewer y inRest), ?_, search.started, ?_, ?_⟩
  · intro u b known
    by_cases here : u = x.node
    · exact .inl (by simp [here])
    · rcases search.covered u b known with inside | ⟨y, inHeap, node, cost⟩
      · exact .inl (by simp [inside])
      · rcases split y inHeap with rfl | inRest
        · exact absurd node.symm here
        · exact .inr ⟨y, inRest, node, cost⟩
  · intro u inside
    rcases List.mem_cons.mp inside with rfl | earlier
    · exact ⟨x.cost, settled, fun y inRest => cheapest y (fewer y inRest)⟩
    · obtain ⟨b, known, cheap⟩ := search.ordered u earlier
      exact ⟨b, known, fun y inRest => cheap y (fewer y inRest)⟩
  · intro e edge inside other b known
    rcases List.mem_cons.mp inside with here | earlier
    · exact absurd here other
    · exact search.relaxed e edge earlier (fun h => h) b known

/-- An outdated entry can be dropped: its edges bring nothing. -/
theorem Search.drop (monotone : g.Monotone)
    (search : g.Search start zero good (fun _ => False) closed heap best) (member : x ∈ heap)
    (split : ∀ y, y ∈ heap → y = x ∨ y ∈ rest) (fewer : ∀ y ∈ rest, y ∈ heap) (inside : x.node ∈ closed) :
    g.Search start zero good (fun _ => False) closed rest best ∧
      ∀ e ∈ g.edges, g.source e = x.node → ∃ c, best (g.target e) = some c ∧ c ≤ g.extend x.cost e := by
  refine ⟨⟨fun y inRest => search.entries y (fewer y inRest), ?_, search.started, ?_, search.relaxed⟩, ?_⟩
  · intro u b known
    rcases search.covered u b known with closed_ | ⟨y, inHeap, node, cost⟩
    · exact .inl closed_
    · rcases split y inHeap with rfl | inRest
      · exact .inl (node ▸ inside)
      · exact .inr ⟨y, inRest, node, cost⟩
  · intro u closed_
    obtain ⟨b, known, cheap⟩ := search.ordered u closed_
    exact ⟨b, known, fun y inRest => cheap y (fewer y inRest)⟩
  · intro e edge source
    obtain ⟨-, b, known, cheap⟩ := search.entries x member
    obtain ⟨c, reached, bound⟩ := search.relaxed e edge (source ▸ inside) (fun h => h) b (source ▸ known)
    exact ⟨c, reached, bound.trans (monotone.ordered b x.cost e cheap)⟩

section

variable {pending : ε → Prop} {e : ε} {c : κ}

theorem Search.pending_mono (search : g.Search start zero good pending closed heap best) {pending' : ε → Prop}
    (more : ∀ e ∈ g.edges, pending e → pending' e) : g.Search start zero good pending' closed heap best :=
  { search with
    relaxed := fun f edge inside other b known =>
      search.relaxed f edge inside (fun waiting => other (more f edge waiting)) b known }

/-- An edge that improves nothing is relaxed. -/
theorem Search.skip (search : g.Search start zero good (fun f => f = e ∨ pending f) closed heap best)
    (known : best (g.source e) = some c) {d : κ} (reached : best (g.target e) = some d)
    (enough : d ≤ g.extend c e) : g.Search start zero good pending closed heap best := by
  refine ⟨search.entries, search.covered, search.started, search.ordered, fun f edge inside other b bestSource => ?_⟩
  by_cases same : f = e
  · subst same
    rw [known, Option.some.injEq] at bestSource
    exact ⟨d, reached, bestSource ▸ enough⟩
  · exact search.relaxed f edge inside (fun h => h.elim same other) b bestSource

/-- No closed node is improved by an edge out of the dearest of them. -/
theorem target_open (monotone : g.Monotone) (top : ∀ v ∈ closed, ∃ b, best v = some b ∧ b ≤ c)
    (better : ∀ d, best (g.target e) = some d → g.extend c e < d) : g.target e ∉ closed := by
  intro inside
  obtain ⟨b, bestTarget, cheap⟩ := top _ inside
  exact absurd ((better b bestTarget).trans_le cheap) (not_lt_of_ge (le_of_lt (monotone.dearer c e)))

/-- Relaxing an edge out of the dearest closed node to a node where it improves
the best known cost opens an entry. -/
theorem Search.improve [DecidableEq α] (monotone : g.Monotone)
    (search : g.Search start zero good (fun f => f = e ∨ pending f) closed heap best)
    (known : best (g.source e) = some c) (top : ∀ v ∈ closed, ∃ b, best v = some b ∧ b ≤ c)
    (better : ∀ d, best (g.target e) = some d → g.extend c e < d) {y : OpenEntry α κ π}
    (node : y.node = g.target e) (cost : y.cost = g.extend c e) (isGood : good y) :
    g.Search start zero good pending closed (y :: heap)
      (fun v => if v = g.target e then some (g.extend c e) else best v) := by
  have dearer := monotone.dearer c e
  have fresh : ∀ v ∈ closed, v ≠ g.target e := by
    rintro v inside rfl
    exact target_open monotone top better inside
  refine ⟨?_, ?_, ?_, ?_, ?_⟩
  · intro x member
    rcases List.mem_cons.mp member with rfl | earlier
    · exact ⟨isGood, _, by simp [node], le_of_eq cost.symm⟩
    · obtain ⟨isGood', b, bestNode, cheap⟩ := search.entries x earlier
      by_cases here : x.node = g.target e
      · exact ⟨isGood', g.extend c e, by simp [here], le_of_lt ((better b (here ▸ bestNode)).trans_le cheap)⟩
      · exact ⟨isGood', b, by simp [here, bestNode], cheap⟩
  · intro v b bestV
    by_cases here : v = g.target e
    · simp only [here, if_true, Option.some.injEq] at bestV
      exact .inr ⟨y, by simp, node.trans here.symm, cost.trans bestV⟩
    · simp only [here, if_false] at bestV
      rcases search.covered v b bestV with inside | ⟨x, member, atV, costs⟩
      · exact .inl inside
      · exact .inr ⟨x, by simp [member], atV, costs⟩
  · obtain ⟨b, bestStart, cheap⟩ := search.started
    by_cases here : start = g.target e
    · exact ⟨g.extend c e, by simp [here], (le_of_lt (better b (here ▸ bestStart))).trans cheap⟩
    · exact ⟨b, by simp [here, bestStart], cheap⟩
  · intro v inside
    obtain ⟨b, bestV, cheap⟩ := search.ordered v inside
    refine ⟨b, by simp [fresh v inside, bestV], fun x member => ?_⟩
    rcases List.mem_cons.mp member with rfl | earlier
    · obtain ⟨b', bestV', low⟩ := top v inside
      rw [bestV, Option.some.injEq] at bestV'
      rw [cost, bestV']
      exact low.trans (le_of_lt dearer)
    · exact cheap x earlier
  · intro f edge inside other b bestSource
    simp only [fresh _ inside, if_false] at bestSource
    by_cases same : f = e
    · subst same
      rw [known, Option.some.injEq] at bestSource
      exact ⟨g.extend c f, by simp, by rw [bestSource]⟩
    · obtain ⟨d, reached, bound⟩ := search.relaxed f edge inside (fun h => h.elim same other) b bestSource
      by_cases here : g.target f = g.target e
      · exact ⟨g.extend c e, by simp [here], (le_of_lt (better d (here ▸ reached))).trans bound⟩
      · exact ⟨d, by simp [here, reached], bound⟩

end

/-! ## The measure -/

/-- Open entries, and edges out of nodes that are not closed. -/
def potential [DecidableEq α] (g : CostGraph α ε κ) (closed : List α) (entries : Nat) : Nat :=
  entries + (g.edges.filter fun e => g.source e ∉ closed).length

omit [LinearOrder κ] in
theorem potential_nil [DecidableEq α] (entries : Nat) : g.potential [] entries = entries + g.edges.length := by
  simp [potential]

omit [LinearOrder κ] in
/-- Closing a node takes its edges out of the measure. -/
theorem potential_close [DecidableEq α] {u : α} (open_ : u ∉ closed) (entries : Nat) :
    g.potential (u :: closed) entries + (g.edges.filter fun e => g.source e = u).length =
      g.potential closed entries := by
  have split : ∀ edges : List ε, (edges.filter fun e => g.source e ∉ u :: closed).length +
      (edges.filter fun e => g.source e = u).length = (edges.filter fun e => g.source e ∉ closed).length := by
    intro edges
    induction edges with
    | nil => rfl
    | cons e edges ih =>
      by_cases here : g.source e = u
      · simp only [here, open_, List.filter_cons, List.mem_cons, true_or, not_true_eq_false, decide_false,
          Bool.false_eq_true, if_false, decide_true, if_true, List.length_cons, not_false_eq_true]
        simp only [List.mem_cons] at ih
        omega
      · by_cases inside : g.source e ∈ closed <;>
          simp only [here, inside, List.filter_cons, List.mem_cons, or_true, or_false, not_true_eq_false,
            not_false_eq_true, decide_false, decide_true, Bool.false_eq_true, if_false, if_true, List.length_cons] at ih ⊢
        · exact ih
        · omega
  have edges := split g.edges
  simp only [potential]
  omega

end CostGraph

end McpSsh.Base
