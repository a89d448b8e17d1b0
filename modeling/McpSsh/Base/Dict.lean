import Mathlib.Data.List.Nodup
import Mathlib.Data.List.Basic

/-!
# Insertion-ordered dictionaries

A finite map that remembers the order in which its keys were first inserted:
assigning to a present key keeps its place, a new key goes to the end, deletion
keeps the order of the rest. No key occurs twice, by construction. Nothing here
depends on what the keys and values are.
-/

set_option autoImplicit false

namespace McpSsh.Base

/-- A finite map as the list of its items, in insertion order. -/
structure Dict (α β : Type) where
  items : List (α × β)
  nodup : (items.map Prod.fst).Nodup
deriving DecidableEq

namespace Dict

variable {α β γ : Type} [DecidableEq α]

omit [DecidableEq α] in
theorem ext_items {d e : Dict α β} (same : d.items = e.items) : d = e := by
  cases d; cases e; cases same; rfl

/-- The dictionary without items. -/
def empty : Dict α β := ⟨[], List.nodup_nil⟩

/-- The keys, in insertion order. -/
def keys (d : Dict α β) : List α := d.items.map Prod.fst

/-- The values, in insertion order. -/
def values (d : Dict α β) : List β := d.items.map Prod.snd

/-- The value stored under `k`. -/
def get? (d : Dict α β) (k : α) : Option β := (d.items.find? (fun e => e.1 = k)).map Prod.snd

/-- Replace the value of `k` where it stands. -/
def assign (items : List (α × β)) (k : α) (v : β) : List (α × β) :=
  items.map fun e => if e.1 = k then (k, v) else e

theorem keys_assign (items : List (α × β)) (k : α) (v : β) :
    (assign items k v).map Prod.fst = items.map Prod.fst := by
  simp only [assign, List.map_map]
  apply List.map_congr_left
  intro e _
  by_cases same : e.1 = k <;> simp [same]

/-- Store `v` under `k`. -/
def insert (d : Dict α β) (k : α) (v : β) : Dict α β :=
  if present : k ∈ d.items.map Prod.fst then
    ⟨assign d.items k v, by rw [keys_assign]; exact d.nodup⟩
  else
    ⟨d.items ++ [(k, v)], by
      rw [List.map_append]
      exact d.nodup.append (List.nodup_singleton k) (by simpa using present)⟩

/-- Delete `k`. -/
def erase (d : Dict α β) (k : α) : Dict α β :=
  ⟨d.items.filter (fun e => e.1 ≠ k), by
    exact List.Nodup.sublist (List.filter_sublist.map Prod.fst) d.nodup⟩

omit [DecidableEq α] in
/-- Apply `f` to every value. -/
def mapValues (d : Dict α β) (f : β → γ) : Dict α γ :=
  ⟨d.items.map fun e => (e.1, f e.2), by
    simpa only [List.map_map, Function.comp_def] using d.nodup⟩

omit [DecidableEq α] in
@[simp] theorem keys_empty : (empty : Dict α β).keys = [] := rfl

@[simp] theorem get?_empty (k : α) : (empty : Dict α β).get? k = none := rfl

theorem get?_eq_some_iff {d : Dict α β} {k : α} {v : β} : d.get? k = some v ↔ (k, v) ∈ d.items := by
  obtain ⟨items, nodup⟩ := d
  simp only [get?]
  induction items with
  | nil => simp
  | cons e rest ih =>
    obtain ⟨fresh, tail⟩ := List.nodup_cons.mp nodup
    by_cases same : e.1 = k
    · subst same
      simp only [List.find?_cons, decide_true, Option.map_some, Option.some.injEq, List.mem_cons]
      constructor
      · rintro rfl; exact Or.inl rfl
      · rintro (equal | later)
        · rw [← equal]
        · exact absurd (List.mem_map_of_mem later) fresh
    · have skip : (k, v) ≠ e := fun equal => same (by rw [← equal])
      simp [same, skip, ih tail]

theorem mem_keys_iff {d : Dict α β} {k : α} : k ∈ d.keys ↔ ∃ v, d.get? k = some v := by
  simp [get?_eq_some_iff, keys]

theorem get?_eq_none_iff {d : Dict α β} {k : α} : d.get? k = none ↔ k ∉ d.keys := by
  simp [mem_keys_iff, Option.eq_none_iff_forall_ne_some]

theorem mem_keys_of_get? {d : Dict α β} {k : α} {v : β} (found : d.get? k = some v) : k ∈ d.keys :=
  mem_keys_iff.mpr ⟨v, found⟩

theorem get?_of_mem {d : Dict α β} {e : α × β} (member : e ∈ d.items) : d.get? e.1 = some e.2 :=
  get?_eq_some_iff.mpr member

theorem items_insert_fresh {d : Dict α β} {k : α} (fresh : k ∉ d.keys) (v : β) :
    (d.insert k v).items = d.items ++ [(k, v)] := by
  have absent : k ∉ d.items.map Prod.fst := fresh
  simp only [insert, absent, dite_false]

theorem items_insert_present {d : Dict α β} {k : α} (present : k ∈ d.keys) (v : β) :
    (d.insert k v).items = assign d.items k v := by
  have there : k ∈ d.items.map Prod.fst := present
  simp only [insert, there, dite_true]

theorem keys_insert_fresh {d : Dict α β} {k : α} (fresh : k ∉ d.keys) (v : β) :
    (d.insert k v).keys = d.keys ++ [k] := by
  simp [keys, items_insert_fresh fresh]

theorem mem_items_insert {d : Dict α β} {k : α} {v : β} {e : α × β} :
    e ∈ (d.insert k v).items ↔ e = (k, v) ∨ (e.1 ≠ k ∧ e ∈ d.items) := by
  by_cases present : k ∈ d.keys
  · rw [items_insert_present present]
    simp only [assign, List.mem_map]
    constructor
    · rintro ⟨old, member, rfl⟩
      by_cases same : old.1 = k
      · simp [same]
      · simp [same, member]
    · rintro (rfl | ⟨different, member⟩)
      · obtain ⟨old, member, same⟩ := List.mem_map.mp present
        exact ⟨old, member, by simp [same]⟩
      · exact ⟨e, member, by simp [different]⟩
  · rw [items_insert_fresh present]
    simp only [List.mem_append, List.mem_singleton]
    constructor
    · rintro (member | rfl)
      · exact Or.inr ⟨fun same => present (same ▸ List.mem_map_of_mem member), member⟩
      · exact Or.inl rfl
    · rintro (rfl | ⟨-, member⟩)
      · exact Or.inr rfl
      · exact Or.inl member

theorem get?_insert {d : Dict α β} {k j : α} {v : β} :
    (d.insert k v).get? j = if j = k then some v else d.get? j := by
  apply Option.ext
  intro w
  rw [get?_eq_some_iff, mem_items_insert]
  by_cases same : j = k
  · simp [same, eq_comm]
  · simp [same, get?_eq_some_iff]

@[simp] theorem get?_insert_self {d : Dict α β} {k : α} {v : β} : (d.insert k v).get? k = some v := by
  simp [get?_insert]

theorem mem_keys_insert {d : Dict α β} {k j : α} {v : β} :
    j ∈ (d.insert k v).keys ↔ j = k ∨ j ∈ d.keys := by
  rw [mem_keys_iff, mem_keys_iff]
  by_cases same : j = k
  · simp [same]
  · simp [get?_insert, same]

/-- Adding the items of another dictionary adds its keys. -/
theorem mem_keys_foldl_insert {items : List (α × β)} {d : Dict α β} {j : α} :
    j ∈ (items.foldl (fun d e => d.insert e.1 e.2) d).keys ↔ j ∈ d.keys ∨ j ∈ items.map Prod.fst := by
  induction items generalizing d with
  | nil => simp
  | cons e items ih =>
    rw [List.foldl_cons, ih, mem_keys_insert, List.map_cons, List.mem_cons]
    constructor
    · rintro ((first | old) | later)
      · exact .inr (.inl first)
      · exact .inl old
      · exact .inr (.inr later)
    · rintro (old | first | later)
      · exact .inl (.inr old)
      · exact .inl (.inl first)
      · exact .inr later

theorem get?_foldl_insert {items : List (α × β)} {d : Dict α β} {k : α} {v : β}
    (found : (items.foldl (fun d e => d.insert e.1 e.2) d).get? k = some v) : d.get? k = some v ∨ (k, v) ∈ items := by
  induction items generalizing d with
  | nil => exact .inl found
  | cons e items ih =>
    rcases ih found with here | later
    · rw [get?_insert] at here
      split at here
      · rename_i same
        cases here
        exact .inr (by simp [same])
      · exact .inl here
    · exact .inr (List.mem_cons_of_mem _ later)

/-- Dictionaries added one after the other. -/
theorem mem_keys_foldl_update {ι : Type} (tree : ι → Dict α β) (found : List ι) (d : Dict α β) (j : α) :
    j ∈ (found.foldl (fun d m => (tree m).items.foldl (fun d e => d.insert e.1 e.2) d) d).keys ↔
      j ∈ d.keys ∨ ∃ m ∈ found, j ∈ (tree m).keys := by
  induction found generalizing d with
  | nil => simp
  | cons first found ih =>
    rw [List.foldl_cons, ih, mem_keys_foldl_insert]
    simp [or_assoc, keys]

theorem get?_foldl_update {ι : Type} (tree : ι → Dict α β) (found : List ι) (d : Dict α β) {k : α} {v : β}
    (there : (found.foldl (fun d m => (tree m).items.foldl (fun d e => d.insert e.1 e.2) d) d).get? k = some v) :
    d.get? k = some v ∨ ∃ m ∈ found, (tree m).get? k = some v := by
  induction found generalizing d with
  | nil => exact .inl there
  | cons first found ih =>
    rcases ih _ there with here | ⟨m, member, listed⟩
    · rcases get?_foldl_insert here with old | new
      · exact .inl old
      · exact .inr ⟨first, by simp, get?_eq_some_iff.mpr new⟩
    · exact .inr ⟨m, by simp [member], listed⟩

theorem mem_items_erase {d : Dict α β} {k : α} {e : α × β} :
    e ∈ (d.erase k).items ↔ e ∈ d.items ∧ e.1 ≠ k := by
  simp [erase]

/-- Erasing takes one item out of its place. -/
theorem items_erase_append {d : Dict α β} {before after : List (α × β)} {e : α × β}
    (items : d.items = before ++ e :: after) : (d.erase e.1).items = before ++ after := by
  have distinct := d.nodup
  rw [items, List.map_append, List.map_cons] at distinct
  obtain ⟨-, right, apart⟩ := List.nodup_append.mp distinct
  have keeps : ∀ l : List (α × β), e.1 ∉ l.map Prod.fst → l.filter (fun f => f.1 ≠ e.1) = l := by
    intro l absent
    refine List.filter_eq_self.mpr fun f member => ?_
    have other : f.1 ≠ e.1 := fun same => absent (same ▸ List.mem_map_of_mem member)
    simpa using other
  show d.items.filter (fun f => f.1 ≠ e.1) = before ++ after
  rw [items, List.filter_append, List.filter_cons_of_neg (by simp),
    keeps before fun member => apart e.1 member e.1 List.mem_cons_self rfl, keeps after (List.nodup_cons.mp right).1]

theorem get?_erase {d : Dict α β} {k j : α} :
    (d.erase k).get? j = if j = k then none else d.get? j := by
  apply Option.ext
  intro w
  rw [get?_eq_some_iff, mem_items_erase]
  by_cases same : j = k
  · simp [same]
  · simp [same, get?_eq_some_iff]

theorem get?_mapValues {d : Dict α β} {f : β → γ} {k : α} :
    (d.mapValues f).get? k = (d.get? k).map f := by
  simp only [get?, mapValues, List.find?_map, Function.comp_def, Option.map_map]

omit [DecidableEq α] in
@[simp] theorem keys_mapValues {d : Dict α β} {f : β → γ} : (d.mapValues f).keys = d.keys := by
  simp [keys, mapValues]

/-! ## Counting -/

omit [DecidableEq α] in
/-- The number of values with a property. -/
def count (d : Dict α β) (p : β → Bool) : Nat := d.items.countP fun e => p e.2

theorem erase_insert {d : Dict α β} {k : α} {v : β} : (d.insert k v).erase k = d.erase k := by
  apply ext_items
  show (d.insert k v).items.filter _ = d.items.filter _
  by_cases present : k ∈ d.keys
  · rw [items_insert_present present, assign, List.filter_map]
    have others : (fun e : α × β => decide (e.1 ≠ k)) ∘ (fun e => if e.1 = k then (k, v) else e) =
        fun e => decide (e.1 ≠ k) := by
      funext e
      by_cases same : e.1 = k <;> simp [same]
    rw [others]
    have kept : ∀ e ∈ d.items.filter fun e => e.1 ≠ k, (if e.1 = k then (k, v) else e) = e := by
      intro e member
      exact if_neg (of_decide_eq_true (List.mem_filter.mp member).2)
    rw [List.map_congr_left kept, List.map_id']
  · rw [items_insert_fresh present]
    simp

/-- The value of a key, if it has the property, and the others. -/
theorem countP_filter_key {items : List (α × β)} (nodup : (items.map Prod.fst).Nodup) (p : β → Bool)
    (k : α) : (items.filter fun e => e.1 ≠ k).countP (fun e => p e.2) +
      (if ((items.find? fun e => e.1 = k).map Prod.snd).any p then 1 else 0) = items.countP fun e => p e.2 := by
  induction items with
  | nil => rfl
  | cons e items ih =>
    rw [List.map_cons, List.nodup_cons] at nodup
    have rest := ih nodup.2
    by_cases same : e.1 = k
    · have gone : items.find? (fun e => e.1 = k) = none := by
        rw [List.find?_eq_none]
        intro f member equal
        exact nodup.1 (List.mem_map.mpr ⟨f, member, (of_decide_eq_true equal).trans same.symm⟩)
      simp only [gone, Option.map_none, Option.any_none, Bool.false_eq_true, if_false, Nat.add_zero] at rest
      simpa [same, List.countP_cons] using rest
    · simp only [List.find?_cons, same, List.countP_cons, ne_eq, decide_false, not_false_eq_true, decide_true,
        List.filter_cons_of_pos] at rest ⊢
      omega

/-- The count of one key's value, and that of the others. -/
theorem count_erase (d : Dict α β) (p : β → Bool) (k : α) :
    (d.erase k).count p + (if (d.get? k).any p then 1 else 0) = d.count p := countP_filter_key d.nodup p k

theorem count_insert (d : Dict α β) (p : β → Bool) (k : α) (v : β) :
    (d.insert k v).count p + (if (d.get? k).any p then 1 else 0) = d.count p + (if p v then 1 else 0) := by
  have before := d.count_erase p k
  have after := (d.insert k v).count_erase p k
  rw [erase_insert, get?_insert_self, Option.any_some] at after
  omega

omit [DecidableEq α] in
theorem count_eq_zero {d : Dict α β} {p : β → Bool} (none_ : ∀ e ∈ d.items, p e.2 = false) : d.count p = 0 := by
  rw [count, List.countP_eq_zero]
  intro e member
  simp [none_ e member]

/-- Entries with fresh keys, computed and inserted one by one, are appended. -/
theorem foldlM_insert {m : Type → Type} [Monad m] [LawfulMonad m] {δ : Type} (compute : δ → m β) (key : δ → α)
    (value : δ → β) {todo : List δ} (computes : ∀ e ∈ todo, compute e = pure (value e)) (d : Dict α β)
    (distinct : (d.keys ++ todo.map key).Nodup) :
    ∃ r : Dict α β, todo.foldlM (fun d e => d.insert (key e) <$> compute e) d = pure r ∧
      r.items = d.items ++ todo.map fun e => (key e, value e) := by
  induction todo generalizing d with
  | nil => exact ⟨d, rfl, by simp⟩
  | cons e todo ih =>
    have fresh : key e ∉ d.keys := by
      intro member
      rw [List.nodup_append] at distinct
      exact distinct.2.2 _ member _ (by simp) rfl
    obtain ⟨r, result, items⟩ := ih (fun f member => computes f (by simp [member]))
      (d.insert (key e) (value e)) (by
        rw [keys_insert_fresh fresh]
        simpa using distinct)
    refine ⟨r, ?_, ?_⟩
    · rw [List.foldlM_cons, computes e (by simp)]
      simpa using result
    · rw [items, items_insert_fresh fresh]
      simp

end Dict

/-- A mapped computation succeeds where the computation does. -/
theorem map_eq_ok_iff {ε α β : Type} {f : α → β} {x : Except ε α} {b : β} :
    x.map f = .ok b ↔ ∃ a, x = .ok a ∧ b = f a := by
  cases x <;> simp [Except.map, eq_comm]

theorem bind_eq_ok {ε α β : Type} {x : Except ε α} {f : α → Except ε β} {b : β} :
    x.bind f = .ok b ↔ ∃ a, x = .ok a ∧ f a = .ok b := by
  cases x <;> simp [Except.bind]

end McpSsh.Base
