import McpSsh.PoolStatus

/-!
# Connections the pool loses track of

Two calls may dial the same server at once, and `close` may go on after a new
connection was stored. Every connection that is alive stays in its slot as long as
what a step writes to a slot takes no live connection's place.
-/

set_option autoImplicit false

namespace McpSsh

open Base

namespace Slots

def connection (slots : Slots) (name : String) : Option ConnId := (slots.slot name).connection

variable (slots : Slots) (name other : String)

@[simp] theorem connection_setStatus (new : ConnectionStatus) :
    (slots.setStatus name new).connection other = slots.connection other := by
  rw [connection, slot_setStatus]
  split <;> rfl

@[simp] theorem connection_store (c : ConnId) :
    (slots.store name c).connection other = if other = name then some c else slots.connection other := by
  rw [connection, store, slot_insert]
  split <;> rfl

theorem connection_clear (apart : other ≠ name) : (slots.clear name).connection other = slots.connection other := by
  rw [connection, slot_clear, if_neg apart]
  rfl

theorem connection_handleFailure (e : PoolError) :
    (slots.handleFailure name e).1.connection other = slots.connection other := by
  unfold handleFailure
  split <;> simp

theorem connection_unwind (e : PoolError) (names : List String) :
    (unwind names (slots, e)).1.connection other = slots.connection other := by
  induction names generalizing slots e with
  | nil => rfl
  | cons name names ih => exact (ih _ _).trans (connection_handleFailure slots name other e)

theorem connection_connecting (names : List String) :
    (slots.connecting names).connection other = slots.connection other := by
  induction names generalizing slots with
  | nil => rfl
  | cons name names ih => exact (ih _).trans (connection_setStatus slots name other _)

/-- The slot has the connection and is connected. -/
structure Stored (c : ConnId) : Prop where
  connection : slots.connection name = some c
  status : slots.status name = .connected

variable {slots name other}

theorem Stored.pooled {c : ConnId} (stored : slots.Stored name c) (closed : List ConnId) (alive : c ∉ closed) :
    slots.pooled closed name = some c := by
  have status : (slots.slot name).status = .connected := stored.status
  have connection : (slots.slot name).connection = some c := stored.connection
  simp [Slots.pooled, status, connection, alive]

theorem Stored.unique {c d : ConnId} (first : slots.Stored name c) (second : slots.Stored name d) : c = d :=
  Option.some.inj (first.connection.symm.trans second.connection)

theorem Stored.clear {c : ConnId} (stored : slots.Stored other c) (apart : other ≠ name) :
    (slots.clear name).Stored other c :=
  ⟨(connection_clear slots name other apart).trans stored.connection, by simp [apart, stored.status]⟩

theorem Stored.unwind {c : ConnId} (stored : slots.Stored name c) {e : PoolError} {names : List String}
    (passes : e.passes = true → name ∉ names) (translated : e.translated = true → names.head? ≠ some name) :
    (Slots.unwind names (slots, e)).1.Stored name c := by
  constructor
  · rw [connection_unwind, stored.connection]
  · rw [status_unwind, if_neg, stored.status]
    rintro (⟨yes, member⟩ | ⟨yes, head⟩)
    · exact passes yes member
    · exact translated yes head

end Slots

/-- The dial opened a connection. -/
def DialOutcome.opens : DialOutcome → Bool
  | .failed _ _ => false
  | .up _ _ _ => true

namespace World

/-- Every connection that is alive is the one in the slot of its name. -/
def Tidy (w : World) : Prop :=
  ∀ (c : ConnId) conn, w.conns[c]? = some conn → c ∉ w.closed → w.slots.Stored conn.name c

/-- No call of `get_connection` or `close` is in progress. -/
def Idle (w : World) : Prop := w.tasks = [] ∧ w.closing = []

/-- A new connection, an exception that resets a slot, and the end of `close` find no
live connection in the slot they write; and a connection whose host key cannot be
recorded is lost already. -/
def Spares (ctx : PoolContext) (w : World) : PoolEvent → Prop
  | .dialed task outcome => ∀ frame rest, w.tasks[task]? = some (frame :: rest) →
      match outcome.result ctx w.hosts frame.cfg with
      | .ok _ => w.slots.pooled w.closed frame.name = none
      | .error e => (outcome.opens = true → outcome.lost = true) ∧
          ∀ name ∈ (frame :: rest).map Frame.name,
            Failure.leaves ⟨e, outcome.lost, (frame :: rest).map Frame.name⟩ .connected name ≠ .connected →
              w.slots.pooled w.closed name = none
  | .closed call => ∀ name c, w.closing[call]? = some (name, c) → w.slots.pooled w.closed name = none
  | _ => True

variable {ctx : PoolContext} {rt : Runtime} {w w' : World}

/-- A step that opens nothing and keeps the slots of live connections. -/
theorem Tidy.quiet (tidy : w.Tidy) (conns : w'.conns = w.conns) (closed : w.closed ⊆ w'.closed)
    (slots : ∀ name c, c ∉ w'.closed → w.slots.Stored name c → w'.slots.Stored name c) : w'.Tidy := by
  intro c conn opened alive
  rw [conns] at opened
  exact slots conn.name c alive (tidy c conn opened fun gone => alive (closed gone))

/-- Clearing a slot without a live connection. -/
theorem Tidy.clear (tidy : w.Tidy) {name : String} (conns : w'.conns = w.conns) (closed : w.closed ⊆ w'.closed)
    (slots : w'.slots = w.slots.clear name) (free : ∀ c, c ∉ w'.closed → ¬ w.slots.Stored name c) : w'.Tidy := by
  refine tidy.quiet conns closed fun other c alive stored => ?_
  rw [slots]
  refine stored.clear fun same => ?_
  subst same
  exact free c alive stored

theorem Tidy.get (tidy : w.Tidy) (name : String) : (w.get ctx name).Tidy := by
  have follows := enter_follows ctx w.store.registry w.closed w.hosts ctx.recursionLimit name w.slots
  change Follows (w.descent ctx name) w.slots _ at follows
  refine tidy.quiet rfl (fun _ gone => gone) fun other c alive stored => ?_
  have apart : other ∉ (w.descent ctx name).names := fun member => by
    have off : w.slots.pooled w.closed other = none := pooled_of_mem_names member
    cases off.symm.trans (stored.pooled w.closed alive)
  have marked : (w.slots.connecting (w.descent ctx name).names).Stored other c :=
    ⟨(Slots.connection_connecting _ _ _).trans stored.connection, by
      rw [Slots.status_connecting, if_neg apart, stored.status]⟩
  simp only [World.get]
  cases stop : (w.descent ctx name).stop with
  | none =>
    rw [(follows.goesOn stop).1]
    exact marked
  | some e =>
    rw [(follows.stopped e stop).1]
    exact marked.unwind (fun _ member => apart (List.mem_reverse.mp member))
      fun _ head => apart (List.mem_reverse.mp (List.mem_of_mem_head? head))

/-- After a dial that leaves no connection behind, the live ones are those before. -/
theorem alive_afterDial {frame : Frame} {outcome : DialOutcome} (gone : outcome.opens = true → outcome.lost = true)
    {c : ConnId} {conn : Connection} (opened : (w.afterDial frame outcome).conns[c]? = some conn)
    (alive : c ∉ (w.afterDial frame outcome).closed) : w.conns[c]? = some conn ∧ c ∉ w.closed := by
  cases outcome with
  | failed e lost => exact ⟨opened, alive⟩
  | up key appends lost =>
    obtain rfl : lost = true := gone rfl
    simp only [afterDial, if_true, List.mem_cons, not_or] at opened alive
    rw [List.getElem?_append] at opened
    split at opened
    · exact ⟨opened, alive.2⟩
    · rename_i beyond
      have last := (List.getElem?_eq_some_iff.mp opened).1
      simp only [List.length_singleton, Nat.lt_one_iff, Nat.sub_eq_zero_iff_le] at last
      exact absurd (Nat.le_antisymm last (Nat.le_of_not_lt beyond)) alive.1

/-- A dial that fails, and resets no slot with a live connection. -/
theorem Tidy.fail (tidy : w.Tidy) {task : Nat} {frame : Frame} {rest : List Frame} {outcome : DialOutcome}
    {e : PoolError} (gone : outcome.opens = true → outcome.lost = true)
    (spares : ∀ name ∈ (frame :: rest).map Frame.name,
      Failure.leaves ⟨e, outcome.lost, (frame :: rest).map Frame.name⟩ .connected name ≠ .connected →
        w.slots.pooled w.closed name = none) : ((w.afterDial frame outcome).fail task (frame :: rest) e).Tidy := by
  intro c conn opened alive
  obtain ⟨opened, alive⟩ := alive_afterDial gone opened alive
  have stored := tidy c conn opened alive
  have on := stored.pooled w.closed alive
  have resets : ∀ member : conn.name ∈ (frame :: rest).map Frame.name,
      ¬ (e.passes = true ∨ conn.name = frame.name ∧ (e.translated = true ∨ outcome.lost = true)) := by
    intro member reset
    have gone : Failure.leaves ⟨e, outcome.lost, (frame :: rest).map Frame.name⟩ .connected conn.name =
        .disconnected := if_pos (reset.imp_right fun ⟨here, why⟩ => ⟨by rw [here]; rfl, why⟩)
    have off := spares conn.name member fun still => by cases still.symm.trans gone
    cases off.symm.trans on
  have same : conn.name = frame.name → conn.name ∈ (frame :: rest).map Frame.name := fun same =>
    same ▸ List.mem_cons_self
  simp only [World.fail, Slots.raiseThrough_fst, slots_afterDial]
  have cleared : (if outcome.lost then w.slots.clear frame.name else w.slots).Stored conn.name c := by
    split
    · rename_i lost
      exact stored.clear fun here => resets (same here) (.inr ⟨here, .inr lost⟩)
    · exact stored
  refine cleared.unwind (fun passes member => resets member (.inl passes)) fun translated head => ?_
  have here : conn.name = frame.name := (Option.some.inj head).symm
  exact resets (same here) (.inr ⟨here, .inl translated⟩)

/-- A dial that succeeds, for a slot without a live connection. -/
theorem Tidy.deliver (tidy : w.Tidy) {task : Nat} {frame : Frame} {rest : List Frame} {outcome : DialOutcome}
    {hosts : HostsFile} (up : outcome.opens = true) (free : w.slots.pooled w.closed frame.name = none) :
    (World.deliver { w.afterDial frame outcome with hosts } task frame rest w.conns.length).Tidy := by
  intro c conn opened alive
  cases outcome with
  | failed e lost => cases up
  | up key appends lost =>
    simp only [World.deliver, afterDial] at opened alive ⊢
    rw [List.getElem?_append] at opened
    split at opened
    · rename_i old
      have before : c ∉ w.closed := fun gone => alive (by split <;> simp [gone])
      have stored := tidy c conn opened before
      have apart : conn.name ≠ frame.name := fun same => by
        have on := stored.pooled w.closed before
        rw [same, free] at on
        cases on
      have cleared : (if lost then w.slots.clear frame.name else w.slots).Stored conn.name c := by
        split
        · exact stored.clear apart
        · exact stored
      exact ⟨by rw [Slots.connection_store, if_neg apart, cleared.connection],
        by rw [Slots.status_store, if_neg apart, cleared.status]⟩
    · rename_i beyond
      obtain ⟨last, rfl⟩ := List.getElem?_eq_some_iff.mp opened
      simp only [List.length_singleton, Nat.lt_one_iff, Nat.sub_eq_zero_iff_le] at last
      obtain rfl := Nat.le_antisymm last (Nat.le_of_not_lt beyond)
      constructor <;> simp

/-- Closing clears the slot only of a connection that is closed already. -/
theorem Tidy.close (tidy : w.Tidy) (name : String) : (w.close name).Tidy := by
  unfold World.close
  split
  · exact tidy
  split
  · rename_i c connection
    split
    · rename_i gone
      refine tidy.clear rfl (fun _ gone => gone) rfl fun d alive stored => ?_
      cases stored.connection.symm.trans connection
      exact alive gone
    · exact tidy
  · rename_i connection
    refine tidy.clear rfl (fun _ gone => gone) rfl fun d alive stored => ?_
    cases stored.connection.symm.trans connection

/-- **One step that takes no live connection's place keeps the pool tidy.** -/
theorem Tidy.step (tidy : w.Tidy) {event : PoolEvent} (spares : w.Spares ctx event)
    (stepped : w.step ctx rt event = some w') : w'.Tidy := by
  cases event with
  | registry op =>
    cases stepped
    exact tidy
  | get name =>
    cases stepped
    exact tidy.get name
  | dialed task outcome =>
    obtain ⟨frame, rest, found, rfl⟩ := step_dialed stepped
    have here := spares frame rest found
    split at here
    · rename_i hosts up
      rw [dialed_ok up]
      refine tidy.deliver ?_ here
      cases outcome with
      | failed e lost => cases up
      | up key appends lost => rfl
    · rename_i e failed
      rw [dialed_error failed]
      exact tidy.fail here.1 here.2
  | lost c =>
    obtain ⟨conn, opened, alive, rfl⟩ := step_lost stepped
    refine tidy.clear rfl (List.subset_cons_self _ _) rfl fun d live stored => ?_
    -- the connection that is lost was the one in the slot
    obtain rfl := stored.unique (tidy c conn opened alive)
    exact live (List.mem_cons_self)
  | close name =>
    cases stepped
    exact tidy.close name
  | closed call =>
    obtain ⟨name, c, found, -, rfl⟩ := step_closed stepped
    refine tidy.clear rfl (fun _ gone => gone) rfl fun d alive stored => ?_
    cases (spares name c found).symm.trans (stored.pooled w.closed alive)
  | pin name =>
    cases stepped
    exact tidy
  | unpin name =>
    cases stepped
    exact tidy
  | edit hosts =>
    cases stepped
    exact tidy

/-- **In every run whose steps take no live connection's place, every connection that
is alive is the one in the slot of its name**, connected. -/
theorem tidy_run (ctx : PoolContext) (rt : Runtime) (store : Store) (hosts : HostsFile) (events : List PoolEvent)
    (w : World) (run : Run (guard (system ctx rt) (Spares ctx)) (start store hosts) events w) : w.Tidy := by
  have keep : ∀ (w : World) (event : PoolEvent) (w' : World), w.Tidy →
      guard (system ctx rt) (Spares ctx) w event w' → w'.Tidy := fun _ _ _ tidy step => tidy.step step.2 step.1
  refine run.preserves keep fun c conn opened _ => ?_
  cases opened

/-! ## Two runs -/

/-- A server behind its jump host, whose own connection is lost and dialed again. -/
def redialBehind : List PoolEvent :=
  [.get "inner", .dialed 0 (.up none true false), .dialed 0 (.up none true false), .lost 1, .get "inner",
    .dialed 0 (.up none true false)]

theorem tidy_run_redial : ∃ w, Run (guard (system sampleContext .inert) (Spares sampleContext))
    (start sampleChain.store .missing) redialBehind w ∧ w.Tidy := by
  have run : ∃ w, Run (guard (system sampleContext .inert) (Spares sampleContext)) (start sampleChain.store .missing)
      redialBehind w := by
    refine ⟨_, .step ⟨rfl, trivial⟩ (.step ⟨rfl, ?_⟩ (.step ⟨rfl, ?_⟩ (.step ⟨rfl, trivial⟩ (.step ⟨rfl, trivial⟩
      (.step ⟨rfl, ?_⟩ (.refl _))))))⟩
    all_goals
      rintro frame rest ⟨⟩
      rfl
  obtain ⟨w, run⟩ := run
  exact ⟨w, run, tidy_run _ _ _ _ _ _ run⟩

/-- Two calls dial the same server at once: the first connection stays open outside
the pool. -/
theorem overlapping_dials_leak : ¬ ∀ (ctx : PoolContext) (rt : Runtime) (store : Store) (hosts : HostsFile)
    (events : List PoolEvent) (w : World), Run (system ctx rt) (start store hosts) events w → w.Idle → w.Tidy := by
  intro tidy
  have run : ∃ w, Run (system sampleContext .inert) (start sampleChain.store .missing)
      [.get "bastion", .get "bastion", .dialed 0 (.up none true false), .dialed 0 (.up none true false)] w ∧
      w.tasks = [] ∧ w.closing = [] ∧ w.conns[0]?.map Connection.name = some "bastion" ∧ w.closed = [] ∧
      w.slots.connection "bastion" = some 1 :=
    ⟨_, .step rfl (.step rfl (.step rfl (.step rfl (.refl _)))), rfl, rfl, rfl, rfl, rfl⟩
  obtain ⟨w, run, noTask, noClose, opened, alive, slot⟩ := run
  obtain ⟨conn, first, named⟩ := Option.map_eq_some_iff.mp opened
  have stored := tidy _ _ _ _ _ w run ⟨noTask, noClose⟩ 0 conn first (by simp [alive])
  rw [named] at stored
  cases slot.symm.trans stored.connection

end World

end McpSsh
