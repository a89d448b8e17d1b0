import Mathlib.Data.List.Basic

/-!
# Bounded double-ended queues

A queue with a bound. What is added at one end of a full queue pushes an element out at
the other.
-/

set_option autoImplicit false

namespace McpSsh.Base

/-- `collections.deque(maxlen=limit)`. -/
structure Deque (α : Type) (limit : Nat) where
  items : List α
  bounded : items.length ≤ limit

namespace Deque

variable {α : Type} {limit : Nat}

def empty : Deque α limit := ⟨[], Nat.zero_le limit⟩

/-- At the right end; what is too much goes at the left. -/
def append (d : Deque α limit) (a : α) : Deque α limit where
  items := (d.items ++ [a]).drop (d.items.length + 1 - limit)
  bounded := by
    rw [List.length_drop, List.length_append, List.length_singleton]
    omega

/-- At the left end; what is too much goes at the right. -/
def appendleft (d : Deque α limit) (a : α) : Deque α limit where
  items := (a :: d.items).take limit
  bounded := List.length_take_le limit _

/-- The element at the left end, and the others. -/
def popleft (d : Deque α limit) : Option (α × Deque α limit) :=
  match d with
  | ⟨[], _⟩ => none
  | ⟨a :: items, bounded⟩ => some (a, ⟨items, Nat.le_of_succ_le bounded⟩)

theorem ext_items {d e : Deque α limit} (same : d.items = e.items) : d = e := by
  cases d
  cases e
  cases same
  rfl

theorem popleft_eq_none_iff {d : Deque α limit} : d.popleft = none ↔ d.items = [] := by
  obtain ⟨items, bounded⟩ := d
  cases items <;> simp [popleft]

theorem popleft_eq_some_iff {d rest : Deque α limit} {a : α} :
    d.popleft = some (a, rest) ↔ d.items = a :: rest.items := by
  obtain ⟨items, bounded⟩ := d
  cases items with
  | nil => simp [popleft]
  | cons b items =>
    simp only [popleft, Option.some.injEq, Prod.mk.injEq, List.cons.injEq]
    apply and_congr_right
    intro _
    exact ⟨fun same => by rw [← same], fun same => ext_items same⟩

/-- An element that was taken out can be put back. -/
theorem items_appendleft_of_popleft {d rest : Deque α limit} {a : α} (taken : d.popleft = some (a, rest)) (b : α) :
    (rest.appendleft b).items = b :: rest.items := by
  have bounded := d.bounded
  rw [popleft_eq_some_iff.mp taken, List.length_cons] at bounded
  exact List.take_of_length_le bounded

theorem items_append (d : Deque α limit) (a : α) :
    (d.append a).items = (d.items ++ [a]).drop (d.items.length + 1 - limit) := rfl

/-- With room, nothing goes. -/
theorem items_append_of_room {d : Deque α limit} (room : d.items.length < limit) (a : α) :
    (d.append a).items = d.items ++ [a] := by
  have none_ : d.items.length + 1 - limit = 0 := by omega
  rw [items_append, none_, List.drop_zero]

/-- Without room, the oldest element goes. -/
theorem items_append_of_full {d : Deque α limit} (full : d.items.length = limit) (a : α) :
    (d.append a).items = (d.items ++ [a]).tail := by
  have one : d.items.length + 1 - limit = 1 := by omega
  rw [items_append, one, List.drop_one]

end Deque

end McpSsh.Base
