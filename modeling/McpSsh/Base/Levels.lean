import Mathlib.Order.Bounds.Basic
import Mathlib.Data.List.Pairwise

/-!
# Levels of a breadth-first search

A queue of levels is in order and spans at most two of them; that is what taking its
head and appending the level below keeps. Levels that start at a source, grow by at most
one along an edge and are always reached from the level above are the distances from
the source.
-/

set_option autoImplicit false

namespace McpSsh.Base

/-! ## The queue -/

/-- In order, and no two levels more than one apart. -/
def Leveled (levels : List Nat) : Prop := levels.Pairwise fun a b => a ≤ b ∧ b ≤ a + 1

/-- The head is replaced by items of the next level, at the end. -/
theorem Leveled.requeue {level : Nat} {levels found : List Nat} (leveled : Leveled (level :: levels))
    (next : ∀ l ∈ found, l = level + 1) : Leveled (levels ++ found) := by
  obtain ⟨above, rest⟩ := List.pairwise_cons.mp leveled
  refine List.pairwise_append.mpr ⟨rest, List.pairwise_of_forall_mem_list fun a left b right => ?_,
    fun a left b right => ?_⟩
  · rw [next a left, next b right]
    exact ⟨Nat.le_refl _, Nat.le_succ _⟩
  · have bounds := above a left
    rw [next b right]
    omega

/-- The levels passed so far are in order, and none is more than `k` below one in the queue. -/
structure Ahead (k : Nat) (levels queue : List Nat) : Prop where
  ordered : levels.Pairwise (· ≤ ·)
  ahead : ∀ l ∈ levels, ∀ q ∈ queue, l ≤ q + k

theorem Ahead.fewer {k : Nat} {levels queue queue' : List Nat} (before : Ahead k levels queue)
    (fewer : ∀ q ∈ queue', q ∈ queue) : Ahead k levels queue' :=
  ⟨before.ordered, fun l passed q waits => before.ahead l passed q (fewer q waits)⟩

/-- Passing levels at the head of the queue. -/
theorem Ahead.append {k level : Nat} {levels queue more : List Nat} (before : Ahead k levels (level :: queue))
    (leveled : Leveled (level :: queue)) (here : ∀ l ∈ more, l = level + k) :
    Ahead k (levels ++ more) (level :: queue) := by
  constructor
  · refine List.pairwise_append.mpr ⟨before.ordered, List.pairwise_of_forall_mem_list fun a left b right => ?_,
      fun a left b right => ?_⟩
    · rw [here a left, here b right]
    · exact here b right ▸ before.ahead a left level List.mem_cons_self
  · intro l passed q waits
    rcases List.mem_append.mp passed with old | new
    · exact before.ahead l old q waits
    · rcases List.mem_cons.mp waits with rfl | later
      · exact Nat.le_of_eq (here l new)
      · have above := (List.pairwise_cons.mp leveled).1 q later
        rw [here l new]
        omega

theorem Ahead.requeue {k level : Nat} {levels queue found : List Nat} (before : Ahead k levels (level :: queue))
    (next : ∀ l ∈ found, l = level + 1) : Ahead k levels (queue ++ found) := by
  refine ⟨before.ordered, fun l passed q waits => ?_⟩
  rcases List.mem_append.mp waits with old | new
  · exact before.ahead l passed q (List.mem_cons_of_mem _ old)
  · have here := before.ahead l passed level List.mem_cons_self
    rw [next q new]
    omega

/-! ## Distances -/

section

variable {α : Type} {edge : α → α → Prop} {source : α}

/-- A walk of so many edges leads from the source to a vertex. -/
inductive Hops (edge : α → α → Prop) (source : α) : Nat → α → Prop where
  | source : Hops edge source 0 source
  | hop {n : Nat} {a b : α} : Hops edge source n a → edge a b → Hops edge source (n + 1) b

/-- Levels as a breadth-first search assigns them. -/
structure Levels (edge : α → α → Prop) (source : α) (level : α → Nat → Prop) : Prop where
  starts : ∀ n, level source n ↔ n = 0
  /-- An edge leaves a vertex that has a level. -/
  leaves : ∀ a b, edge a b → ∃ n, level a n
  /-- It leads down by at most one level. -/
  climbs : ∀ a b m n, edge a b → level a m → level b n → n ≤ m + 1
  /-- A vertex other than the source is reached from the level above. -/
  reached : ∀ b n, level b n → b = source ∨ ∃ a m, level a m ∧ edge a b ∧ n = m + 1

/-- No walk is shorter than the level. -/
theorem Levels.le_hops {level : α → Nat → Prop} (levels : Levels edge source level) {b : α} {k : Nat}
    (hops : Hops edge source k b) : ∀ n, level b n → n ≤ k := by
  induction hops with
  | source =>
    intro n at_
    exact Nat.le_of_eq ((levels.starts n).mp at_)
  | @hop k a b before crossed ih =>
    intro n at_
    obtain ⟨m, from_⟩ := levels.leaves a b crossed
    exact (levels.climbs a b m n crossed from_ at_).trans (Nat.succ_le_succ (ih m from_))

/-- Some walk is as long as the level. -/
theorem Levels.hops {level : α → Nat → Prop} (levels : Levels edge source level) {n : Nat} {b : α}
    (at_ : level b n) : Hops edge source n b := by
  induction n generalizing b with
  | zero =>
    obtain rfl | ⟨a, m, -, -, down⟩ := levels.reached b 0 at_
    · exact .source
    · exact absurd down (Nat.zero_ne_add_one m)
  | succ n ih =>
    obtain rfl | ⟨a, m, from_, crossed, down⟩ := levels.reached b (n + 1) at_
    · exact absurd ((levels.starts (n + 1)).mp at_) (Nat.succ_ne_zero n)
    · cases Nat.succ.inj down
      exact .hop (ih from_) crossed

/-- **The level of a vertex is its distance from the source.** -/
theorem Levels.isLeast {level : α → Nat → Prop} (levels : Levels edge source level) {n : Nat} {b : α}
    (at_ : level b n) : IsLeast {k | Hops edge source k b} n :=
  ⟨levels.hops at_, fun _ hops => levels.le_hops hops n at_⟩

end

end McpSsh.Base
