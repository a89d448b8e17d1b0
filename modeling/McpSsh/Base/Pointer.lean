import Mathlib.Logic.Relation
import Mathlib.Data.List.Nodup
import Mathlib.Data.List.Basic
import Mathlib.Data.List.Perm.Subperm

/-!
# Pointer graphs

A partial function `next : α → Option α` as a graph with at most one edge out of
each node. The results are those a chain of references needs: when redirecting,
adding or dropping an edge keeps the graph free of cycles, that following the
references of an acyclic graph with finitely many sources ends in boundedly many
steps, and that the loop which remembers the nodes it has seen decides whether a
chain ever comes back.
-/

set_option autoImplicit false

namespace McpSsh.Base

open Relation

section

variable {α : Type}

/-- `b` is what `a` points to. -/
def Points (next : α → Option α) (a b : α) : Prop := next a = some b

/-- Following the pointers from `a`, in any number of steps, comes to `b`. -/
abbrev LeadsTo (next : α → Option α) (a b : α) : Prop := ReflTransGen (Points next) a b

/-- No node is reached again by following the pointers from it. -/
def Acyclic (next : α → Option α) : Prop := ∀ a, ¬ TransGen (Points next) a a

/-- Following the pointers from `a` ends within `n` steps. -/
def EndsWithin (next : α → Option α) : Nat → α → Prop
  | 0, a => next a = none
  | n + 1, a => ∀ b, next a = some b → EndsWithin next n b

variable {next next' : α → Option α}

/-- Where no pointer starts, the path ends. -/
theorem LeadsTo.eq_of_none {a b : α} (path : LeadsTo next a b) (ends : next a = none) : a = b := by
  rcases ReflTransGen.cases_head path with same | ⟨c, edge, -⟩
  · exact same
  · cases ends.symm.trans edge

/-- Dropping pointers makes no cycle. -/
theorem Acyclic.mono (acyclic : Acyclic next) (fewer : ∀ a b, next' a = some b → next a = some b) :
    Acyclic next' :=
  fun a cycle => acyclic a (TransGen.mono fewer a a cycle)

/-- A path with the pointer of `k` added either does without it or visits `k`
and goes on behind it. -/
theorem path_add {k : α} (same : ∀ a, a ≠ k → next' a = next a) {a b : α}
    (path : TransGen (Points next') a b) :
    TransGen (Points next) a b ∨
      (LeadsTo next a k ∧ ∃ c, next' k = some c ∧ LeadsTo next c b) := by
  induction path with
  | @single b edge =>
    by_cases here : a = k
    · subst here
      exact Or.inr ⟨.refl, b, edge, .refl⟩
    · exact Or.inl (.single ((same a here).symm.trans edge))
  | @tail b c _ edge ih =>
    by_cases here : b = k
    · subst here
      have before : LeadsTo next a b := by
        rcases ih with old | ⟨toward, -⟩
        · exact old.to_reflTransGen
        · exact toward
      exact Or.inr ⟨before, c, edge, .refl⟩
    · have old : Points next b c := (same b here).symm.trans edge
      rcases ih with path | ⟨toward, d, added, rest⟩
      · exact Or.inl (path.tail old)
      · exact Or.inr ⟨toward, d, added, rest.tail old⟩

/-- Giving `k` a new pointer, to a node from which the old pointers do not lead
to `k`, makes no cycle. -/
theorem Acyclic.redirect [DecidableEq α] (acyclic : Acyclic next) {k : α} (same : ∀ a, a ≠ k → next' a = next a)
    (apart : ∀ c, next' k = some c → ¬ LeadsTo next c k) : Acyclic next' := by
  -- the graph without the old pointer of `k`
  let base : α → Option α := fun a => if a = k then none else next a
  have fewer : ∀ a b, base a = some b → next a = some b := by
    intro a b edge
    by_cases here : a = k <;> simp [base, here] at edge
    exact edge
  have agree : ∀ a, a ≠ k → next' a = base a := by
    intro a off
    simp [base, off, same a off]
  intro a cycle
  rcases path_add agree cycle with old | ⟨toward, c, added, rest⟩
  · exact acyclic.mono fewer a old
  · exact apart c added (ReflTransGen.mono fewer c k (rest.trans toward))

/-- A graph laid over an acyclic one has a cycle only through a node it redefines. -/
theorem Acyclic.overlay (acyclic : Acyclic next) (redefined : α → Prop)
    (same : ∀ a, ¬ redefined a → next' a = next a)
    (apart : ∀ a, redefined a → ¬ TransGen (Points next') a a) : Acyclic next' := by
  have split : ∀ a b, TransGen (Points next') a b →
      TransGen (Points next) a b ∨ ∃ c, redefined c ∧ LeadsTo next' a c ∧ TransGen (Points next') c b := by
    intro a b path
    induction path with
    | @single b edge =>
      by_cases here : redefined a
      · exact .inr ⟨a, here, .refl, .single edge⟩
      · exact .inl (.single ((same a here).symm.trans edge))
    | @tail b c before edge ih =>
      by_cases here : redefined b
      · exact .inr ⟨b, here, before.to_reflTransGen, .single edge⟩
      · rcases ih with old | ⟨d, inside, toward, onward⟩
        · exact .inl (old.tail ((same b here).symm.trans edge))
        · exact .inr ⟨d, inside, toward, onward.tail edge⟩
  intro a cycle
  rcases split a a cycle with old | ⟨c, inside, toward, onward⟩
  · exact acyclic a old
  · exact apart c inside (onward.trans_left toward)

/-- In an acyclic graph a chain of pointers is no longer than a list holding
every node that points somewhere. -/
theorem Acyclic.endsWithin (acyclic : Acyclic next) {sources : List α}
    (covered : ∀ a b, next a = some b → a ∈ sources) (a : α) : EndsWithin next sources.length a := by
  -- induct on the steps left, keeping the distinct nodes already passed
  have go : ∀ (n : Nat) (passed : List α) (a : α), passed.Nodup → (∀ b ∈ passed, b ∈ sources) →
      (∀ b ∈ passed, TransGen (Points next) b a) → n + passed.length = sources.length →
      EndsWithin next n a := by
    intro n
    induction n with
    | zero =>
      intro passed a distinct known before count
      cases edge : next a with
      | none => exact edge
      | some b =>
        have fresh : a ∉ passed := fun again => acyclic a (before a again)
        have bound : (a :: passed).length ≤ sources.length := by
          apply List.Subperm.length_le
          apply List.Nodup.subperm (List.nodup_cons.mpr ⟨fresh, distinct⟩)
          intro c member
          rcases List.mem_cons.mp member with rfl | member
          · exact covered c b edge
          · exact known c member
        simp only [List.length_cons] at bound
        omega
    | succ n ih =>
      intro passed a distinct known before count b edge
      have fresh : a ∉ passed := fun again => acyclic a (before a again)
      apply ih (a :: passed) b (List.nodup_cons.mpr ⟨fresh, distinct⟩)
      · intro c member
        rcases List.mem_cons.mp member with rfl | member
        · exact covered c b edge
        · exact known c member
      · intro c member
        rcases List.mem_cons.mp member with rfl | member
        · exact .single edge
        · exact (before c member).tail edge
      · simp only [List.length_cons]
        omega
  exact go sources.length [] a List.nodup_nil (by simp) (by simp) (by simp)

/-- A chain that ends meets no cycle. -/
theorem EndsWithin.no_cycle {n : Nat} {a c : α} (ends : EndsWithin next n a) (path : LeadsTo next a c) :
    ¬ TransGen (Points next) c c := by
  induction n generalizing a with
  | zero =>
    intro cycle
    obtain rfl := path.eq_of_none ends
    obtain ⟨b, edge, -⟩ := TransGen.head'_iff.mp cycle
    cases ends.symm.trans edge
  | succ n ih =>
    intro cycle
    rcases ReflTransGen.cases_head path with rfl | ⟨b, edge, rest⟩
    · obtain ⟨b, edge, back⟩ := TransGen.head'_iff.mp cycle
      exact ih (ends b edge) back cycle
    · exact ih (ends b edge) rest cycle

/-! ## What is visited -/

/-- The nodes that following the pointers from `a` visits, if it ends after at most `n`
of them. -/
def trail (next : α → Option α) : Nat → α → Option (List α)
  | 0, _ => none
  | n + 1, a =>
    match next a with
    | none => some [a]
    | some b => (trail next n b).map (a :: ·)

/-- Nodes that each point to the one before are visited from the last to the first. -/
theorem trail_sequence {node : Nat → α} {k : Nat} (first : next (node 0) = none)
    (links : ∀ i < k, next (node (i + 1)) = some (node i)) :
    trail next (k + 1) (node k) = some ((List.range (k + 1)).map node).reverse := by
  induction k with
  | zero => simp [trail, first]
  | succ k ih =>
    have rest := ih fun i below => links i (Nat.lt_succ_of_lt below)
    rw [trail, links k (Nat.lt_succ_self k)]
    dsimp only
    rw [rest, List.range_succ (n := k + 1), List.map_append, List.reverse_append]
    simp

/-- Following the pointers from `a` visits these nodes and ends. -/
def Visits (next : α → Option α) (a : α) (nodes : List α) : Prop := ∃ n, trail next n a = some nodes

theorem Visits.last {a : α} (stops : next a = none) : Visits next a [a] := ⟨1, by simp [trail, stops]⟩

theorem Visits.cons {a b : α} {nodes : List α} (edge : next a = some b) (visits : Visits next b nodes) :
    Visits next a (a :: nodes) := by
  obtain ⟨n, followed⟩ := visits
  exact ⟨n + 1, by simp [trail, edge, followed]⟩

theorem Visits.eq_last {a : α} {nodes : List α} (visits : Visits next a nodes) (stops : next a = none) : nodes = [a] := by
  obtain ⟨n, followed⟩ := visits
  cases n with
  | zero => cases followed
  | succ n =>
    simp only [trail, stops, Option.some.injEq] at followed
    exact followed.symm

theorem Visits.eq_cons {a b : α} {nodes : List α} (visits : Visits next a nodes) (edge : next a = some b) :
    ∃ rest, nodes = a :: rest ∧ Visits next b rest := by
  obtain ⟨n, followed⟩ := visits
  cases n with
  | zero => cases followed
  | succ n =>
    simp only [trail, edge, Option.map_eq_some_iff] at followed
    obtain ⟨rest, followed, rfl⟩ := followed
    exact ⟨rest, rfl, n, followed⟩

/-- A chain that ends visits some nodes. -/
theorem EndsWithin.visits {n : Nat} {a : α} (ends : EndsWithin next n a) : ∃ nodes, Visits next a nodes := by
  induction n generalizing a with
  | zero => exact ⟨[a], .last ends⟩
  | succ n ih =>
    cases edge : next a with
    | none => exact ⟨[a], .last edge⟩
    | some b =>
      obtain ⟨nodes, rest⟩ := ih (ends b edge)
      exact ⟨a :: nodes, rest.cons edge⟩

/-- The nodes visited depend only on the pointers of nodes that are never left. -/
theorem Visits.congr (inside : α → Prop) (same : ∀ a, inside a → next' a = next a)
    (closed : ∀ a b, inside a → next a = some b → inside b) {a : α} {nodes : List α} (here : inside a)
    (visits : Visits next a nodes) : Visits next' a nodes := by
  obtain ⟨n, followed⟩ := visits
  induction n generalizing a nodes with
  | zero => cases followed
  | succ n ih =>
    cases edge : next a with
    | none =>
      simp only [trail, edge, Option.some.injEq] at followed
      exact followed ▸ .last ((same a here).trans edge)
    | some b =>
      simp only [trail, edge, Option.map_eq_some_iff] at followed
      obtain ⟨rest, followed, rfl⟩ := followed
      exact .cons ((same a here).trans edge) (ih (closed a b here edge) followed)

/-- A chain that visits some nodes meets no cycle. -/
theorem Visits.no_cycle {a : α} {nodes : List α} (visits : Visits next a nodes) : ¬ TransGen (Points next) a a := by
  obtain ⟨n, followed⟩ := visits
  have ends : EndsWithin next n a := by
    induction n generalizing a nodes with
    | zero => cases followed
    | succ n ih =>
      intro b edge
      simp only [trail, edge, Option.map_eq_some_iff] at followed
      obtain ⟨rest, followed, -⟩ := followed
      exact ih followed
  exact ends.no_cycle .refl

/-! ## The loop with a memory -/

/-- Follow the pointers from `current`, remembering the visited nodes: `true`
when one is met again, `false` at the end of the chain. -/
def revisits [DecidableEq α] (next : α → Option α) : Nat → List α → Option α → Option Bool
  | _, _, none => some false
  | 0, _, some _ => none
  | n + 1, visited, some a => if a ∈ visited then some true else revisits next n (a :: visited) (next a)

variable [DecidableEq α]

/-- The loop ends: one turn more than there are nodes with a pointer is enough. -/
theorem revisits_isSome {sources : List α} (covered : ∀ a b, next a = some b → a ∈ sources)
    {n : Nat} {visited : List α} {current : Option α} (distinct : visited.Nodup)
    (known : current ≠ none → ∀ b ∈ visited, b ∈ sources) (enough : sources.length < n + visited.length) :
    (revisits next n visited current).isSome := by
  induction n generalizing visited current with
  | zero =>
    cases current with
    | none => simp [revisits]
    | some a =>
      have bound : visited.length ≤ sources.length :=
        (distinct.subperm (fun b member => known (by simp) b member)).length_le
      omega
  | succ n ih =>
    cases current with
    | none => simp [revisits]
    | some a =>
      by_cases again : a ∈ visited
      · simp [revisits, again]
      · simp only [revisits, again, if_false]
        apply ih (List.nodup_cons.mpr ⟨again, distinct⟩)
        · intro more b member
          rcases List.mem_cons.mp member with rfl | member
          · obtain ⟨c, edge⟩ := Option.ne_none_iff_exists'.mp more
            exact covered b c edge
          · exact known (by simp) b member
        · simp only [List.length_cons]
          omega

/-- A repeated node lies on a cycle. -/
theorem cycle_of_revisits {n : Nat} {visited : List α} {a : α}
    (before : ∀ b ∈ visited, TransGen (Points next) b a) (found : revisits next n visited (some a) = some true) :
    ∃ c, LeadsTo next a c ∧ TransGen (Points next) c c := by
  induction n generalizing visited a with
  | zero => simp [revisits] at found
  | succ n ih =>
    by_cases again : a ∈ visited
    · exact ⟨a, .refl, before a again⟩
    · simp only [revisits, again, if_false] at found
      cases edge : next a with
      | none =>
        rw [edge] at found
        simp [revisits] at found
      | some b =>
        rw [edge] at found
        have onward : ∀ c ∈ a :: visited, TransGen (Points next) c b := by
          intro c member
          rcases List.mem_cons.mp member with rfl | member
          · exact .single edge
          · exact (before c member).tail edge
        obtain ⟨c, path, cycle⟩ := ih onward found
        exact ⟨c, path.head edge, cycle⟩

/-- A chain the loop follows to its end does end. -/
theorem ends_of_revisits {n : Nat} {visited : List α} {a : α}
    (stopped : revisits next n visited (some a) = some false) : EndsWithin next n a := by
  induction n generalizing visited a with
  | zero => simp [revisits] at stopped
  | succ n ih =>
    intro b edge
    by_cases again : a ∈ visited
    · simp [revisits, again] at stopped
    · simp only [revisits, again, if_false, edge] at stopped
      exact ih stopped

end

end McpSsh.Base
