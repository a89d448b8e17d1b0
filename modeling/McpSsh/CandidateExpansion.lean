import McpSsh.DiscoveryCaps

/-!
# The expansion of candidates

`expand_candidates` has two branches for one list: the hosts of a network go into it as
they are, and any other item only if `_valid_candidate` accepts it. The list has no
repetitions and stops at the cap; an address that is refused by itself gets in with a
network.
-/

set_option autoImplicit false

namespace McpSsh

open Base Base.Ip

/-- What the expansion of items is to be. -/
structure Expands (cap : Nat) (items : List String) : Prop where
  distinct : (expandCandidates cap items).Nodup
  capped : (expandCandidates cap items).length ≤ cap
  /-- The first different addresses of the items. -/
  first : expandCandidates cap items = (dedup [] (items.flatMap itemAddrs)).take cap
  valid : ∀ a ∈ expandCandidates cap items, validCandidate a = true

/-- The list is full before the first address that `_valid_candidate` refuses. -/
def FullBeforeRefused (cap : Nat) (items : List String) : Prop :=
  ∀ before a after, items.flatMap itemAddrs = before ++ a :: after → validCandidate a = false →
    cap ≤ (dedup [] before).length

theorem nodup_dedup (seen xs : List String) : (dedup seen xs).Nodup := by
  induction xs generalizing seen with
  | nil => exact List.nodup_nil
  | cons x xs ih =>
    rw [dedup]
    split
    · exact ih seen
    · refine List.nodup_cons.mpr ⟨fun again => ?_, ih _⟩
      exact (mem_dedup.mp again).2 List.mem_cons_self

/-- An address is kept if the list is not full when it first comes. -/
theorem mem_take_dedup {cap : Nat} {xs : List String} {a : String} : a ∈ (dedup [] xs).take cap ↔
    ∃ before after, xs = before ++ a :: after ∧ (dedup [] before).length < cap := by
  constructor
  · intro kept
    obtain ⟨listed, -⟩ := mem_dedup.mp (List.mem_of_mem_take kept)
    obtain ⟨before, after, rfl, fresh⟩ := List.eq_append_cons_of_mem listed
    refine ⟨before, after, rfl, ?_⟩
    by_contra full
    rw [dedup_append, List.take_append_of_le_length (Nat.not_lt.mp full)] at kept
    exact fresh (mem_dedup.mp (List.mem_of_mem_take kept)).1
  · rintro ⟨before, after, rfl, room⟩
    rw [dedup_append, List.nil_append]
    by_cases old : a ∈ before
    · have early : a ∈ dedup [] before := mem_dedup.mpr ⟨old, List.not_mem_nil⟩
      rw [List.take_append]
      apply List.mem_append_left
      rwa [List.take_of_length_le (Nat.le_of_lt room)]
    · have fresh : a ∉ dedup [] before := fun again => old (mem_dedup.mp again).1
      rw [dedup, if_neg fresh, List.take_append]
      apply List.mem_append_right
      have places : cap - (dedup [] before).length = cap - (dedup [] before).length - 1 + 1 := by omega
      rw [places, List.take_succ_cons]
      exact List.mem_cons_self

/-- Only a network brings an address that is refused by itself. -/
theorem network_of_refused {raw a : String} (addr : a ∈ itemAddrs raw) (refused : validCandidate a = false) :
    '/' ∈ strip raw.toList ∧ ∃ net, parseNetwork (strip raw.toList) = some net ∧ a ∈ net.hosts.map String.ofList := by
  simp only [itemAddrs] at addr
  split at addr
  · cases addr
  split at addr
  · rename_i slash
    split at addr
    · cases addr
    · exact ⟨slash, _, ‹_›, addr⟩
  split at addr
  · rename_i accepted
    rw [List.mem_singleton.mp addr, accepted] at refused
    cases refused
  · cases addr

/-- **The expansion is as it is to be exactly if** the list is full before it comes to an
address that is refused by itself. -/
theorem expands_iff (cap : Nat) (items : List String) (positive : 1 ≤ cap) :
    Expands cap items ↔ FullBeforeRefused cap items := by
  have first := expandCandidates_eq positive items
  constructor
  · intro expands before a after split refused
    by_contra room
    have kept : a ∈ expandCandidates cap items := by
      rw [first]
      exact mem_take_dedup.mpr ⟨before, after, split, Nat.not_le.mp room⟩
    rw [expands.valid a kept] at refused
    cases refused
  · intro full
    constructor
    · rw [first]
      exact (nodup_dedup [] _).sublist (List.take_sublist _ _)
    · rw [first]
      exact List.length_take_le _ _
    · exact first
    · intro a kept
      rw [first] at kept
      obtain ⟨before, after, split, room⟩ := mem_take_dedup.mp kept
      by_contra refused
      exact absurd (full before a after split (by simpa using refused)) (Nat.not_le.mpr room)

/-- It is enough that the networks have no host that is refused. -/
theorem fullBeforeRefused_of_networks {cap : Nat} {items : List String}
    (clean : ∀ raw ∈ items, '/' ∈ strip raw.toList → ∀ a ∈ itemAddrs raw, validCandidate a = true) :
    FullBeforeRefused cap items := by
  intro before a after split refused
  have member : a ∈ items.flatMap itemAddrs := by
    rw [split]
    exact List.mem_append_right before List.mem_cons_self
  obtain ⟨raw, listed, addr⟩ := List.mem_flatMap.mp member
  rw [clean raw listed (network_of_refused addr refused).1 a addr] at refused
  cases refused

/-- A block of private addresses, a host of it again, a name and a loopback address. -/
theorem expands_private : Expands 1024 ["10.0.0.0/30", "10.0.0.2", "web-1", "127.0.0.1"] := by
  refine (expands_iff 1024 _ (by decide)).mpr (fullBeforeRefused_of_networks ?_)
  decide +kernel

/-- A block of loopback addresses is expanded. -/
theorem loopback_block_expanded : ¬ ∀ (cap : Nat) (items : List String), 1 ≤ cap → Expands cap items := by
  intro expands
  have kept : "127.0.0.1" ∈ expandCandidates 1024 ["127.0.0.0/30"] := by decide +kernel
  have refused : validCandidate "127.0.0.1" = false := by decide +kernel
  have valid := (expands 1024 ["127.0.0.0/30"] (by decide)).valid _ kept
  rw [refused] at valid
  cases valid

end McpSsh
