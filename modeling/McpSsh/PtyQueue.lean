import McpSsh.Base.Deque
import McpSsh.PtyText

/-!
# The buffer of a PTY session as a queue of bytes

`_drain_pty` appends chunks on the right of a bounded deque, and `pty_read` takes chunks
from its left, cuts the last one and puts its remainder back. The bytes leave in the order
in which they came, by a read or, when the deque is full, with the oldest chunk.
-/

set_option autoImplicit false

namespace McpSsh

open Base

/-! ## The loop of a read -/

/-- `collections.deque(maxlen=65536)`. -/
abbrev PtyDeque := Deque (List UInt8) bufferLimit

theorem length_of_popleft {buf rest : PtyDeque} {chunk : List UInt8} (taken : buf.popleft = some (chunk, rest)) :
    rest.items.length < buf.items.length := by
  rw [Deque.popleft_eq_some_iff.mp taken, List.length_cons]
  exact Nat.lt_succ_self _

/-- The loop of `pty_read` on the deque: what it has collected, and the buffer after it. -/
def readDeque (maxBytes : Nat) (collected : List UInt8) (buf : PtyDeque) : List UInt8 × PtyDeque :=
  match _taken : buf.popleft with
  | none => (collected, buf)
  | some (chunk, rest) =>
    if collected.length < maxBytes then
      let remaining := maxBytes - collected.length
      if chunk.length ≤ remaining then readDeque maxBytes (collected ++ chunk) rest
      -- the remainder is put back
      else (collected ++ chunk.take remaining, rest.appendleft (chunk.drop remaining))
    else (collected, buf)
termination_by buf.items.length
decreasing_by exact length_of_popleft _taken

/-- **The deque never drops what is put back**: a read of the deque is one of its chunks. -/
theorem readDeque_eq_collect (maxBytes : Nat) (collected : List UInt8) (buf : PtyDeque) :
    (readDeque maxBytes collected buf).1 = (collect maxBytes collected buf.items).1 ∧
      (readDeque maxBytes collected buf).2.items = (collect maxBytes collected buf.items).2 := by
  fun_induction readDeque maxBytes collected buf with
  | case1 collected buf none_ =>
    rw [Deque.popleft_eq_none_iff.mp none_]
    exact ⟨rfl, rfl⟩
  | case2 collected buf chunk rest taken room remaining fits ih =>
    rw [Deque.popleft_eq_some_iff.mp taken, collect, if_pos room, if_pos fits]
    exact ih
  | case3 collected buf chunk rest taken room remaining long =>
    rw [Deque.popleft_eq_some_iff.mp taken, collect, if_pos room, if_neg long]
    exact ⟨rfl, Deque.items_appendleft_of_popleft taken _⟩
  | case4 collected buf chunk rest taken full =>
    rw [Deque.popleft_eq_some_iff.mp taken, collect, if_neg full]
    exact ⟨rfl, rfl⟩

/-! ## Appends and reads -/

/-- A buffer, what was appended to it so far, and what the reads collected. -/
structure PtyQueue where
  appended : List UInt8
  buffer : PtyDeque
  reads : List (List UInt8)

def PtyQueue.fresh : PtyQueue := ⟨[], .empty, []⟩

/-- The bytes that are not read yet. -/
def PtyQueue.pending (s : PtyQueue) : List UInt8 := s.buffer.items.flatten

/-- A chunk of `_drain_pty`, or a call of `pty_read`. -/
inductive QueueEvent where
  | drain (chunk : List UInt8)
  | read (maxBytes : Nat)

/-- Any nonempty chunk is appended, and any number of bytes is read. -/
inductive QueueStep : System PtyQueue QueueEvent where
  | drain {s : PtyQueue} (chunk : List UInt8) (some : chunk ≠ []) :
      QueueStep s (.drain chunk) { s with appended := s.appended ++ chunk, buffer := s.buffer.append chunk }
  | read {s : PtyQueue} (maxBytes : Nat) : QueueStep s (.read maxBytes) { s with
      buffer := (readDeque maxBytes [] s.buffer).2
      reads := s.reads ++ [(readDeque maxBytes [] s.buffer).1] }

/-- A chunk that is appended finds room. -/
def QueueEvent.Fits (s : PtyQueue) (e : QueueEvent) : Prop :=
  ∀ chunk, e = .drain chunk → s.buffer.items.length < bufferLimit

/-- What leaves the buffer: the bytes of a read, or a chunk that a full buffer drops. -/
inductive Departure where
  | read (bytes : List UInt8)
  | lost (chunk : List UInt8)

namespace Departure

def bytes : Departure → List UInt8
  | .read bytes => bytes
  | .lost chunk => chunk

def read? : Departure → Option (List UInt8)
  | .read bytes => some bytes
  | .lost _ => none

end Departure

/-- What has left the buffer, in order, followed by what is pending is what was appended. -/
def PtyQueue.Accounts (s : PtyQueue) (gone : List Departure) : Prop :=
  s.reads = gone.filterMap Departure.read? ∧ s.appended = gone.flatMap Departure.bytes ++ s.pending

/-! ## One step -/

theorem readDeque_fst (maxBytes : Nat) (buf : PtyDeque) :
    (readDeque maxBytes [] buf).1 = buf.items.flatten.take maxBytes := by
  rw [(readDeque_eq_collect maxBytes [] buf).1, collect_fst]

theorem flatten_readDeque_snd (maxBytes : Nat) (buf : PtyDeque) :
    (readDeque maxBytes [] buf).2.items.flatten = buf.items.flatten.drop maxBytes := by
  rw [(readDeque_eq_collect maxBytes [] buf).2, flatten_collect_snd]

/-- A full buffer drops its oldest chunk, and keeps the others. -/
theorem exists_oldest_of_full {buf : PtyDeque} (full : buf.items.length = bufferLimit) :
    ∃ oldest rest, buf.items = oldest :: rest ∧ ∀ chunk, (buf.append chunk).items = rest ++ [chunk] := by
  cases items : buf.items with
  | nil =>
    rw [items] at full
    cases full
  | cons oldest rest =>
    refine ⟨oldest, rest, rfl, fun chunk => ?_⟩
    rw [Deque.items_append_of_full full, items]
    rfl

theorem PtyQueue.Accounts.step {s t : PtyQueue} {e : QueueEvent} {gone : List Departure} (accounts : s.Accounts gone)
    (step : QueueStep s e t) : ∃ more, t.Accounts (gone ++ more) ∧ (e.Fits s → ∀ d ∈ more, d.read?.isSome = true) := by
  obtain ⟨reads, appended⟩ := accounts
  cases step with
  | drain chunk some_ =>
    by_cases room : s.buffer.items.length < bufferLimit
    · refine ⟨[], ⟨by simpa using reads, ?_⟩, fun _ d member => absurd member List.not_mem_nil⟩
      rw [PtyQueue.pending, Deque.items_append_of_room room, List.flatten_append, List.flatten_singleton,
        List.append_nil, ← List.append_assoc]
      exact congrArg (· ++ chunk) appended
    · have full : s.buffer.items.length = bufferLimit := Nat.le_antisymm s.buffer.bounded (Nat.not_lt.mp room)
      obtain ⟨oldest, rest, items, after⟩ := exists_oldest_of_full full
      refine ⟨[.lost oldest], ⟨?_, ?_⟩, fun fits => absurd (fits chunk rfl) room⟩
      · refine reads.trans ?_
        rw [List.filterMap_append]
        exact (List.append_nil _).symm
      · have before : s.pending = oldest ++ rest.flatten := by rw [PtyQueue.pending, items, List.flatten_cons]
        rw [PtyQueue.pending, after, List.flatten_append, List.flatten_singleton, List.flatMap_append]
        simp [appended, before, Departure.bytes]
  | read maxBytes =>
    refine ⟨[.read (readDeque maxBytes [] s.buffer).1], ⟨?_, ?_⟩, fun _ d member => ?_⟩
    · simp [reads, Departure.read?]
    · have parts := List.take_append_drop maxBytes s.pending
      rw [PtyQueue.pending, flatten_readDeque_snd, readDeque_fst, List.flatMap_append]
      simp only [List.flatMap_cons, List.flatMap_nil, Departure.bytes, List.append_nil, List.append_assoc]
      rw [appended, ← parts]
      simp [PtyQueue.pending]
    · rw [List.mem_singleton.mp member]
      rfl

/-! ## Runs -/

theorem PtyQueue.accounts_run {s t : PtyQueue} {es : List QueueEvent} {gone : List Departure}
    (accounts : s.Accounts gone) (run : Run QueueStep s es t) : ∃ more, t.Accounts (gone ++ more) := by
  induction run generalizing gone with
  | refl => exact ⟨[], by rwa [List.append_nil]⟩
  | step first _ ih =>
    obtain ⟨here, accounts, -⟩ := accounts.step first
    obtain ⟨later, accounts⟩ := ih accounts
    exact ⟨here ++ later, by rwa [← List.append_assoc]⟩

/-- Nothing is lost while every chunk finds room. -/
theorem PtyQueue.accounts_guarded {s t : PtyQueue} {es : List QueueEvent} {gone : List Departure}
    (accounts : s.Accounts gone) (kept : ∀ d ∈ gone, d.read?.isSome = true)
    (run : Run (guard QueueStep QueueEvent.Fits) s es t) :
    ∃ all, t.Accounts all ∧ ∀ d ∈ all, d.read?.isSome = true := by
  induction run generalizing gone with
  | refl => exact ⟨gone, accounts, kept⟩
  | step first _ ih =>
    obtain ⟨here, accounts, fits⟩ := accounts.step first.1
    exact ih accounts (List.forall_mem_append.mpr ⟨kept, fits first.2⟩)

theorem flatten_filterMap_read {gone : List Departure} (kept : ∀ d ∈ gone, d.read?.isSome = true) :
    (gone.filterMap Departure.read?).flatten = gone.flatMap Departure.bytes := by
  induction gone with
  | nil => rfl
  | cons d gone ih =>
    obtain ⟨first, later⟩ := List.forall_mem_cons.mp kept
    cases d with
    | lost chunk => cases first
    | read bytes =>
      have front : (Departure.read bytes :: gone).filterMap Departure.read? = bytes :: gone.filterMap Departure.read? := rfl
      rw [front, List.flatten_cons, List.flatMap_cons, ih later]
      rfl

/-- What holds of a buffer at every moment. -/
structure PtyQueue.Lossless (s : PtyQueue) (es : List QueueEvent) : Prop where
  /-- A read collects as many of the pending bytes as it may, and leaves the others. -/
  reads : ∀ maxBytes, (readDeque maxBytes [] s.buffer).1 = s.pending.take maxBytes ∧
    (readDeque maxBytes [] s.buffer).1.length = min maxBytes s.pending.length ∧
    (readDeque maxBytes [] s.buffer).2.items.flatten = s.pending.drop maxBytes
  /-- When every chunk found room, nothing is lost, repeated or reordered. -/
  whole : Run (guard QueueStep QueueEvent.Fits) .fresh es s → s.reads.flatten ++ s.pending = s.appended
  /-- Otherwise the bytes still left in the order in which they came. -/
  ordered : ∃ gone, s.Accounts gone
  suffix : s.pending <:+ s.appended
  /-- A full buffer loses its oldest chunk and nothing else. -/
  oldest : s.buffer.items.length = bufferLimit → ∃ chunk rest, s.buffer.items = chunk :: rest ∧
    ∀ new, (s.buffer.append new).items = rest ++ [new]

theorem PtyQueue.accounts_fresh : PtyQueue.fresh.Accounts [] := ⟨rfl, rfl⟩

/-- **The buffer is a queue of bytes**, in every run of appends and reads. -/
theorem PtyQueue.lossless (es : List QueueEvent) (s : PtyQueue) (run : Run QueueStep .fresh es s) : s.Lossless es where
  reads maxBytes := by
    refine ⟨readDeque_fst maxBytes s.buffer, ?_, flatten_readDeque_snd maxBytes s.buffer⟩
    rw [readDeque_fst, List.length_take]
    rfl
  whole fits := by
    obtain ⟨gone, ⟨reads, appended⟩, kept⟩ :=
      PtyQueue.accounts_guarded PtyQueue.accounts_fresh (fun d member => absurd member List.not_mem_nil) fits
    rw [reads, appended, flatten_filterMap_read kept]
  ordered := PtyQueue.accounts_run PtyQueue.accounts_fresh run
  suffix := by
    obtain ⟨gone, -, appended⟩ := PtyQueue.accounts_run PtyQueue.accounts_fresh run
    exact ⟨_, appended.symm⟩
  oldest := exists_oldest_of_full

/-- Two chunks and two reads that each cut one. -/
theorem PtyQueue.lossless_split : ∃ s, Run QueueStep .fresh [.drain [1, 2, 3], .read 2, .drain [4, 5], .read 2] s ∧
    s.reads = [[1, 2], [3, 4]] ∧ s.Lossless [.drain [1, 2, 3], .read 2, .drain [4, 5], .read 2] := by
  have run : Run QueueStep .fresh [.drain [1, 2, 3], .read 2, .drain [4, 5], .read 2] _ :=
    .step (.drain [1, 2, 3] (by decide)) (.step (.read 2) (.step (.drain [4, 5] (by decide)) (.step (.read 2) (.refl _))))
  refine ⟨_, run, ?_, PtyQueue.lossless _ _ run⟩
  have left : (readDeque 2 [] ((Deque.empty : PtyDeque).append [1, 2, 3])).2.items = [[3]] := by
    rw [(readDeque_eq_collect 2 [] _).2]
    decide +kernel
  simp only [PtyQueue.fresh, readDeque_fst, Deque.items_append, left]
  decide +kernel

end McpSsh
