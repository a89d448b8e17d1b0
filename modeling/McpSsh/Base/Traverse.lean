import Mathlib.Data.List.Basic
import Mathlib.Data.Option.Basic

/-!
# Mapping a function that may fail

What `mapM` of a function into options comes to: all results, or none. The lemmas say
which results there are, when there are any, and what they have in common with the
elements they come from.
-/

set_option autoImplicit false

namespace McpSsh.Base

variable {α β γ : Type} {f : α → Option β} {xs : List α} {ys : List β}

theorem mapM_eq_some_iff : xs.mapM f = some ys ↔ xs.map f = ys.map some := by
  induction xs generalizing ys with
  | nil => cases ys <;> simp
  | cons x xs ih =>
    simp only [List.mapM_cons, Option.pure_def, Option.bind_eq_bind, Option.bind_eq_some_iff, List.map_cons]
    constructor
    · rintro ⟨y, first, rest, others, ⟨⟩⟩
      rw [List.map_cons, first, ih.mp others]
    · intro same
      cases ys with
      | nil => cases same
      | cons y ys =>
        obtain ⟨first, others⟩ := List.cons.inj same
        exact ⟨y, first, ys, ih.mpr others, rfl⟩

/-- Each element has a result. -/
theorem exists_of_mapM (done : xs.mapM f = some ys) {x : α} (member : x ∈ xs) : ∃ y, f x = some y := by
  have result : f x ∈ ys.map some := mapM_eq_some_iff.mp done ▸ List.mem_map_of_mem member
  obtain ⟨y, -, result⟩ := List.mem_map.mp result
  exact ⟨y, result.symm⟩

/-- What each result is known by, the results are known by. -/
theorem map_of_mapM {g : β → γ} {h : α → γ} (done : xs.mapM f = some ys)
    (each : ∀ x ∈ xs, ∀ y, f x = some y → g y = h x) : ys.map g = xs.map h := by
  have same := mapM_eq_some_iff.mp done
  have known : xs.map (fun x => (f x).map g) = xs.map fun x => some (h x) := by
    apply List.map_congr_left
    intro x member
    obtain ⟨y, result⟩ := exists_of_mapM done member
    rw [result, Option.map_some, each x member y result]
  apply List.map_injective_iff.mpr (Option.some_injective γ)
  calc (ys.map g).map some = (ys.map some).map (Option.map g) := by rw [List.map_map, List.map_map]; rfl
    _ = xs.map (fun x => (f x).map g) := by rw [← same, List.map_map]; rfl
    _ = (xs.map h).map some := by rw [known, List.map_map]; rfl

theorem mapM_total (each : ∀ x ∈ xs, ∃ y, f x = some y) : ∃ ys, xs.mapM f = some ys := by
  induction xs with
  | nil => exact ⟨[], rfl⟩
  | cons x xs ih =>
    obtain ⟨y, first⟩ := each x List.mem_cons_self
    obtain ⟨ys, rest⟩ := ih fun x member => each x (List.mem_cons_of_mem _ member)
    exact ⟨y :: ys, by rw [List.mapM_cons, first, rest]; rfl⟩

theorem length_of_mapM (done : xs.mapM f = some ys) : ys.length = xs.length := by
  have lengths := congrArg List.length (mapM_eq_some_iff.mp done)
  simpa using lengths.symm

theorem mem_of_mapM (done : xs.mapM f = some ys) {y : β} (member : y ∈ ys) : ∃ x ∈ xs, f x = some y := by
  have result : some y ∈ xs.map f := mapM_eq_some_iff.mp done ▸ List.mem_map_of_mem member
  exact List.mem_map.mp result

end McpSsh.Base
