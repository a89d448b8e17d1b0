import McpSsh.PoolLeak
import McpSsh.ProxyPins

/-!
# The end of the server

The `finally` block of `_lifespan` closes the proxies and then the pool, the handler of
SIGTERM closes the pool only. Both close one thing after the other and wait for it;
connections may go down meanwhile, tunnelled ones with the connection they go through.
-/

set_option autoImplicit false

namespace McpSsh

open Base

/-- How far the end of the server has come. -/
inductive ShutdownPhase where
  | serving
  /-- `ProxyManager.close_all`. -/
  | closingProxies
  /-- `ConnectionPool.close_all`, with the names that it has yet to close. -/
  | closingPool (names : List String)
  | done
deriving DecidableEq

/-- `AppContext`: the proxies with the pool. -/
structure AppContext where
  proxyManager : ProxyManager
  phase : ShutdownPhase

inductive ShutdownEvent where
  /-- The `finally` block of `_lifespan` is entered. -/
  | exit
  /-- `_shutdown` is called, and its task started. -/
  | sigterm
  | lost (c : ConnId)
  /-- `wait_closed` of a listener ends. -/
  | listenerClosed
  /-- `ProxyManager.close_all` returns. -/
  | proxiesClosed
  /-- The next turn of `ConnectionPool.close_all`. -/
  | closeNext
  /-- `wait_closed` of a connection ends. -/
  | connectionClosed
  /-- `ConnectionPool.close_all` returns. -/
  | poolClosed

namespace AppContext

def pool (s : AppContext) : World := s.proxyManager.pool

section

variable (ctx : PoolContext) (rt : Runtime)

/-- A step of the proxies and the pool. -/
def run (s : AppContext) (phase : ShutdownPhase) (event : ProxyEvent) : Option AppContext :=
  (s.proxyManager.step ctx rt event).map fun proxyManager => ⟨proxyManager, phase⟩

/-- One step; `none` for an event that cannot happen. -/
def step (s : AppContext) : ShutdownEvent → Option AppContext
  | .exit => if s.phase = .serving then some ⟨s.proxyManager.closeAll, .closingProxies⟩ else none
  | .sigterm => if s.phase = .serving then some { s with phase := .closingPool s.pool.slots.keys } else none
  | .lost c => s.run ctx rt s.phase (.pool (.lost c))
  | .listenerClosed => if s.phase = .closingProxies then s.run ctx rt s.phase (.closedOne 0) else none
  | .proxiesClosed =>
    if s.phase = .closingProxies && s.proxyManager.closing.isEmpty then
      some { s with phase := .closingPool s.pool.slots.keys }
    else none
  | .closeNext =>
    match s.phase with
    | .closingPool (name :: names) =>
      if s.pool.closing = [] then s.run ctx rt (.closingPool names) (.pool (.close name)) else none
    | _ => none
  | .connectionClosed =>
    match s.phase with
    | .closingPool names => s.run ctx rt (.closingPool names) (.pool (.closed 0))
    | _ => none
  | .poolClosed => if s.phase = .closingPool [] ∧ s.pool.closing = [] then some { s with phase := .done } else none

def system : System AppContext ShutdownEvent := ofFunction (step ctx rt)

end

end AppContext

/-! ## Closing the pool -/

/-- `close_all` of the pool, with these names to come: what is alive has a pin, its turn
comes, or a call of `close` waits for it. -/
structure World.Closing (w : World) (names : List String) : Prop where
  tidy : w.Tidy
  waits : ∀ call ∈ w.closing, w.slots.connection call.1 = some call.2 ∨ w.slots.connection call.1 = none
  left : ∀ c conn, w.conns[c]? = some conn → c ∉ w.closed →
    conn.name ∈ w.pinned ∨ conn.name ∈ names ∨ (conn.name, c) ∈ w.closing

namespace World

variable {ctx : PoolContext} {rt : Runtime} {w w' : World} {name : String} {names : List String}

theorem mem_keys_of_stored {slots : Slots} {c : ConnId} (stored : slots.Stored name c) : name ∈ slots.keys := by
  by_contra absent
  have none_ : slots.connection name = none := by
    rw [Slots.connection, Slots.slot, Dict.get?_eq_none_iff.mpr absent]
    rfl
  cases none_.symm.trans stored.connection

theorem Tidy.closing (tidy : w.Tidy) (quiet : w.closing = []) : w.Closing w.slots.keys where
  tidy := tidy
  waits := by simp [quiet]
  left c conn opened alive := .inr (.inl (mem_keys_of_stored (tidy c conn opened alive)))

theorem connection_clear_cases (slots : Slots) (name other : String) :
    (slots.clear name).connection other = slots.connection other ∨ (slots.clear name).connection other = none := by
  by_cases same : other = name
  · refine .inr ?_
    rw [Slots.connection, Slots.slot_clear, if_pos same]
  · exact .inl (Slots.connection_clear slots name other same)

/-- A connection goes down. -/
theorem Closing.lost (closing : w.Closing names) {c : ConnId} (stepped : w.step ctx rt (.lost c) = some w') :
    w'.Closing names := by
  have tidy : w'.Tidy := @Tidy.step ctx rt w w' closing.tidy (.lost c) trivial stepped
  obtain ⟨conn, -, -, rfl⟩ := step_lost stepped
  refine ⟨tidy, fun call member => ?_, fun d other opened alive => ?_⟩
  · rcases connection_clear_cases w.slots conn.name call.1 with same | none_
    · rw [same]
      exact closing.waits call member
    · exact .inr none_
  · exact closing.left d other opened fun gone => alive (List.mem_cons_of_mem c gone)

/-- What `close` does up to its first wait. -/
theorem close_cases (w : World) (name : String) :
    (name ∈ w.pinned ∧ w.close name = { w with ended := [] }) ∨
      (∃ c, w.slots.connection name = some c ∧ c ∉ w.closed ∧
        w.close name = { w with closing := w.closing ++ [(name, c)], ended := [] }) ∨
      (∀ c, w.slots.connection name = some c → c ∈ w.closed) ∧
        w.close name = { w with slots := w.slots.clear name, ended := [] } := by
  by_cases pinned : name ∈ w.pinned
  · exact .inl ⟨pinned, if_pos pinned⟩
  refine .inr ?_
  cases slot : (w.slots.slot name).connection with
  | none =>
    refine .inr ⟨fun c found => ?_, by simp [World.close, pinned, slot]⟩
    rw [Slots.connection, slot] at found
    cases found
  | some c =>
    by_cases gone : c ∈ w.closed
    · refine .inr ⟨fun d found => ?_, by simp [World.close, pinned, slot, gone]⟩
      rw [Slots.connection, slot] at found
      cases found
      exact gone
    · exact .inl ⟨c, slot, gone, by simp [World.close, pinned, slot, gone]⟩

theorem close_keeps (w : World) (name : String) :
    (w.close name).pinned = w.pinned ∧ (w.close name).closed = w.closed := by
  rcases close_cases w name with ⟨-, result⟩ | ⟨c, -, -, result⟩ | ⟨-, result⟩ <;> rw [result] <;> exact ⟨rfl, rfl⟩

/-- The turn of a name: it is pinned, or `close` waits for its connection, or it has none. -/
theorem Closing.close (closing : w.Closing (name :: names)) : (w.close name).Closing names := by
  have tidy := closing.tidy.close name
  rcases close_cases w name with ⟨pinned, result⟩ | ⟨c, slot, -, result⟩ | ⟨free, result⟩
  · rw [result] at tidy ⊢
    refine ⟨tidy, closing.waits, fun d conn opened alive => ?_⟩
    rcases closing.left d conn opened alive with pin | listed | waits
    · exact .inl pin
    · rcases List.mem_cons.mp listed with same | later
      · exact .inl (same ▸ pinned)
      · exact .inr (.inl later)
    · exact .inr (.inr waits)
  · rw [result] at tidy ⊢
    refine ⟨tidy, fun call member => ?_, fun d conn opened alive => ?_⟩
    · rcases List.mem_append.mp member with old | new
      · exact closing.waits call old
      · obtain rfl := List.mem_singleton.mp new
        exact .inl slot
    · rcases closing.left d conn opened alive with pin | listed | waits
      · exact .inl pin
      · rcases List.mem_cons.mp listed with same | later
        · have stored := closing.tidy d conn opened alive
          rw [same] at stored
          obtain rfl := Option.some.inj (stored.connection.symm.trans slot)
          exact .inr (.inr (List.mem_append_right _ (by simp [same])))
        · exact .inr (.inl later)
      · exact .inr (.inr (List.mem_append_left _ waits))
  · rw [result] at tidy ⊢
    refine ⟨tidy, fun call member => ?_, fun d conn opened alive => ?_⟩
    · rcases connection_clear_cases w.slots name call.1 with same | none_
      · rw [same]
        exact closing.waits call member
      · exact .inr none_
    · rcases closing.left d conn opened alive with pin | listed | waits
      · exact .inl pin
      · rcases List.mem_cons.mp listed with same | later
        · have stored := closing.tidy d conn opened alive
          rw [same] at stored
          exact absurd (free d stored.connection) alive
        · exact .inr (.inl later)
      · exact .inr (.inr waits)

/-- A call of `close` ends: its connection is closed, so none of its name is alive. -/
theorem Closing.closed (closing : w.Closing names) {call : Nat} (stepped : w.step ctx rt (.closed call) = some w') :
    w'.Closing names := by
  obtain ⟨name, c, found, gone, rfl⟩ := step_closed stepped
  have member := List.mem_of_getElem? found
  have none_ : ∀ d, d ∉ w.closed → ¬ w.slots.Stored name d := by
    intro d alive stored
    rcases closing.waits _ member with same | empty
    · obtain rfl := Option.some.inj (stored.connection.symm.trans same)
      exact alive gone
    · cases stored.connection.symm.trans empty
  refine ⟨closing.tidy.clear rfl (fun _ gone => gone) rfl none_, fun other inside => ?_, fun d conn opened alive => ?_⟩
  · rcases connection_clear_cases w.slots name other.1 with same | empty
    · rw [same]
      exact closing.waits other (List.mem_of_mem_eraseIdx inside)
    · exact .inr empty
  · rcases closing.left d conn opened alive with pin | listed | waits
    · exact .inl pin
    · exact .inr (.inl listed)
    · refine .inr (.inr ?_)
      have kept := exists_eraseIdx (p := fun other => other = (conn.name, d)) found ⟨_, waits, rfl⟩
      rcases kept with same | ⟨_, kept, rfl⟩
      · cases same
        exact absurd gone alive
      · exact kept

end World

/-! ## Closing the proxies -/

/-- `close_all` of the proxies, with these to come: no other proxy is being started or
stopped, and every pin is that of a proxy to come. -/
structure ProxyManager.ClosingProxies (m : ProxyManager) : Prop where
  quiet : m.pool.closing = []
  tidy : m.pool.Tidy
  pins : (m.closing = [] ∧ m.proxies = Dict.empty ∧ m.pool.pinned = []) ∨
    ∃ waiting released, m.closing = [⟨waiting, released⟩] ∧ ∀ server ∈ m.pool.pinned, ∃ r ∈ waiting, r.server = server

namespace ProxyManager

variable {ctx : PoolContext} {rt : Runtime} {m m' : ProxyManager}

theorem inv_init (store : Store) (hosts : HostsFile) : (init store hosts).Inv := by
  refine ⟨?_, fun server member => by cases member⟩
  rintro server (⟨key, record, stored, -⟩ | ⟨args, member, -⟩)
  · cases stored
  · cases member

theorem step_lost {c : ConnId} (stepped : m.step ctx rt (.pool (.lost c)) = some m') :
    ∃ pool, m.pool.step ctx rt (.lost c) = some pool ∧ m' = { m with pool } := by
  obtain ⟨pool, ran, rfl⟩ := Option.map_eq_some_iff.mp stepped
  exact ⟨pool, ran, rfl⟩

theorem ClosingProxies.start (idle : m.Idle) (exactly : m.PinnedExactly) (quiet : m.pool.closing = [])
    (tidy : m.pool.Tidy) : m.closeAll.ClosingProxies := by
  obtain ⟨-, -, none_⟩ := idle
  unfold closeAll
  split
  · rename_i empty
    have items : m.proxies.items = [] := List.map_eq_nil_iff.mp empty
    refine ⟨quiet, tidy, .inl ⟨none_, Dict.ext_items items, List.eq_nil_iff_forall_not_mem.mpr fun server pinned => ?_⟩⟩
    obtain ⟨id, record, stored, -⟩ := (exactly.pinned server).mp pinned
    have member := Dict.get?_eq_some_iff.mp stored
    rw [items] at member
    cases member
  · refine ⟨quiet, tidy, .inr ⟨m.proxies.values, [], by rw [none_]; rfl, fun server pinned => ?_⟩⟩
    obtain ⟨id, record, stored, named⟩ := (exactly.pinned server).mp pinned
    exact ⟨record, List.mem_map.mpr ⟨_, Dict.get?_eq_some_iff.mp stored, rfl⟩, named⟩

/-- A listener is closed: its server is unpinned, and the last one leaves no pin. -/
theorem ClosingProxies.closedOne (closing : m.ClosingProxies) (stepped : m.step ctx rt (.closedOne 0) = some m') :
    m'.ClosingProxies := by
  rcases closing.pins with ⟨empty, -, -⟩ | ⟨waiting, released, calls, pins⟩
  · simp [step, empty] at stepped
  cases waiting with
  | nil => simp [step, calls] at stepped
  | cons record waiting =>
    obtain rfl : m.closedOne 0 record waiting released = m' := by simpa [step, calls] using stepped
    have fewer : ∀ server ∈ m.pool.pinned.filter (· ≠ record.server), ∃ r ∈ waiting, r.server = server := by
      intro server kept
      obtain ⟨pinned, other⟩ := List.mem_filter.mp kept
      obtain ⟨r, member, named⟩ := pins server pinned
      rcases List.mem_cons.mp member with rfl | later
      · simp [named] at other
      · exact ⟨r, later, named⟩
    unfold ProxyManager.closedOne
    dsimp only
    split
    · rename_i last
      subst last
      refine ⟨closing.quiet, closing.tidy, .inl ⟨by rw [ProxyManager.unpin, calls]; rfl, rfl, ?_⟩⟩
      refine List.eq_nil_iff_forall_not_mem.mpr fun server kept => ?_
      obtain ⟨r, member, -⟩ := fewer server kept
      cases member
    · exact ⟨closing.quiet, closing.tidy, .inr ⟨waiting, record :: released, by rw [ProxyManager.unpin, calls]; rfl, fewer⟩⟩

theorem ClosingProxies.lost (closing : m.ClosingProxies) {c : ConnId}
    (stepped : m.step ctx rt (.pool (.lost c)) = some m') : m'.ClosingProxies := by
  obtain ⟨pool, ran, rfl⟩ := step_lost stepped
  have tidy : pool.Tidy := @World.Tidy.step ctx rt _ pool closing.tidy (.lost c) trivial ran
  obtain ⟨conn, -, -, rfl⟩ := World.step_lost ran
  exact ⟨closing.quiet, tidy, closing.pins⟩

end ProxyManager

/-! ## Both ends -/

namespace AppContext

variable {ctx : PoolContext} {rt : Runtime} {s t : AppContext} {pinned : List String} {proxies : Dict String ProxyRecord}

/-- The pool is being closed, or closed, while these servers are pinned and these proxies
registered. -/
structure ClosingPool (pinned : List String) (proxies : Dict String ProxyRecord) (s : AppContext) : Prop where
  pinned : s.pool.pinned = pinned
  proxies : s.proxyManager.proxies = proxies
  pool : match s.phase with
    | .closingPool names => s.pool.Closing names
    | .done => s.pool.Closing [] ∧ s.pool.closing = []
    | _ => False

variable (ctx rt s) in
/-- What the steps come to, with what holds of the state before them. -/
inductive Moves : ShutdownEvent → AppContext → Prop where
  | exit (phase : s.phase = .serving) : Moves .exit ⟨s.proxyManager.closeAll, .closingProxies⟩
  | sigterm (phase : s.phase = .serving) : Moves .sigterm { s with phase := .closingPool s.pool.slots.keys }
  | lost {c : ConnId} {w : World} (ran : s.pool.step ctx rt (.lost c) = some w) :
    Moves (.lost c) ⟨{ s.proxyManager with pool := w }, s.phase⟩
  | listenerClosed {m : ProxyManager} (phase : s.phase = .closingProxies)
    (ran : s.proxyManager.step ctx rt (.closedOne 0) = some m) : Moves .listenerClosed ⟨m, .closingProxies⟩
  | proxiesClosed (phase : s.phase = .closingProxies) (last : s.proxyManager.closing = []) :
    Moves .proxiesClosed { s with phase := .closingPool s.pool.slots.keys }
  | closeNext {name : String} {names : List String} (phase : s.phase = .closingPool (name :: names)) :
    Moves .closeNext ⟨{ s.proxyManager with pool := s.pool.close name }, .closingPool names⟩
  | connectionClosed {names : List String} {w : World} (phase : s.phase = .closingPool names)
    (ran : s.pool.step ctx rt (.closed 0) = some w) :
    Moves .connectionClosed ⟨{ s.proxyManager with pool := w }, .closingPool names⟩
  | poolClosed (phase : s.phase = .closingPool []) (last : s.pool.closing = []) :
    Moves .poolClosed { s with phase := .done }

/-- A step of the pool that sets no pin and takes none away. -/
theorem run_pool {phase : ShutdownPhase} {event : PoolEvent} (noPin : ∀ name, event ≠ .pin name)
    (noUnpin : ∀ name, event ≠ .unpin name) (ran : s.run ctx rt phase (.pool event) = some t) :
    ∃ w, s.pool.step ctx rt event = some w ∧ t = ⟨{ s.proxyManager with pool := w }, phase⟩ := by
  obtain ⟨m, stepped, rfl⟩ := Option.map_eq_some_iff.mp ran
  rw [ProxyManager.step_pool noPin noUnpin] at stepped
  obtain ⟨w, moved, rfl⟩ := Option.map_eq_some_iff.mp stepped
  exact ⟨w, moved, rfl⟩

theorem moves_of_step {event : ShutdownEvent} (stepped : s.step ctx rt event = some t) : s.Moves ctx rt event t := by
  cases event with
  | exit =>
    simp only [AppContext.step] at stepped
    split at stepped
    · rename_i phase
      cases stepped
      exact .exit phase
    · cases stepped
  | sigterm =>
    simp only [AppContext.step] at stepped
    split at stepped
    · rename_i phase
      cases stepped
      exact .sigterm phase
    · cases stepped
  | lost c =>
    obtain ⟨w, ran, rfl⟩ := run_pool (by rintro _ ⟨⟩) (by rintro _ ⟨⟩) stepped
    exact .lost ran
  | listenerClosed =>
    simp only [AppContext.step] at stepped
    split at stepped
    · rename_i phase
      obtain ⟨m, ran, rfl⟩ := Option.map_eq_some_iff.mp stepped
      rw [phase]
      exact .listenerClosed phase ran
    · cases stepped
  | proxiesClosed =>
    simp only [AppContext.step] at stepped
    split at stepped
    · rename_i both
      obtain ⟨phase, last⟩ := Bool.and_eq_true_iff.mp both
      cases stepped
      exact .proxiesClosed (of_decide_eq_true phase) (List.isEmpty_iff.mp last)
    · cases stepped
  | closeNext =>
    simp only [AppContext.step] at stepped
    split at stepped
    · rename_i name names phase
      split at stepped
      · obtain ⟨w, ran, rfl⟩ := run_pool (by rintro _ ⟨⟩) (by rintro _ ⟨⟩) stepped
        cases ran
        exact .closeNext phase
      · cases stepped
    · cases stepped
  | connectionClosed =>
    simp only [AppContext.step] at stepped
    split at stepped
    · rename_i names phase
      obtain ⟨w, ran, rfl⟩ := run_pool (by rintro _ ⟨⟩) (by rintro _ ⟨⟩) stepped
      exact .connectionClosed phase ran
    · cases stepped
  | poolClosed =>
    simp only [AppContext.step] at stepped
    split at stepped
    · rename_i both
      cases stepped
      exact .poolClosed both.1 both.2
    · cases stepped

theorem ClosingPool.step (closing : s.ClosingPool pinned proxies) {event : ShutdownEvent}
    (stepped : s.step ctx rt event = some t) : t.ClosingPool pinned proxies := by
  obtain ⟨pins, registered, pool⟩ := closing
  cases moves_of_step stepped with
  | exit phase | sigterm phase | listenerClosed phase | proxiesClosed phase =>
    rw [phase] at pool
    cases pool
  | @lost c w ran =>
    have kept := World.pinned_step (by rintro _ ⟨⟩) (by rintro _ ⟨⟩) ran
    refine ⟨kept.trans pins, registered, ?_⟩
    cases phase : s.phase with
    | closingPool names =>
      rw [phase] at pool
      exact World.Closing.lost pool ran
    | done =>
      rw [phase] at pool
      refine ⟨World.Closing.lost pool.1 ran, ?_⟩
      obtain ⟨conn, -, -, rfl⟩ := World.step_lost ran
      exact pool.2
    | serving | closingProxies =>
      rw [phase] at pool
      cases pool
  | @closeNext name names phase =>
    rw [phase] at pool
    exact ⟨(World.close_keeps s.pool name).1.trans pins, registered, World.Closing.close pool⟩
  | @connectionClosed names w phase ran =>
    rw [phase] at pool
    have kept := World.pinned_step (by rintro _ ⟨⟩) (by rintro _ ⟨⟩) ran
    exact ⟨kept.trans pins, registered, World.Closing.closed pool ran⟩
  | poolClosed phase last =>
    rw [phase] at pool
    exact ⟨pins, registered, pool, last⟩

/-- The orderly end: the proxies first, and then the pool without a pin. -/
def Exiting (s : AppContext) : Prop :=
  (s.phase = .closingProxies ∧ s.proxyManager.ClosingProxies) ∨ s.ClosingPool [] Dict.empty

theorem Exiting.step (exiting : s.Exiting) {event : ShutdownEvent} (stepped : s.step ctx rt event = some t) :
    t.Exiting := by
  rcases exiting with ⟨phase, closing⟩ | closing
  · cases moves_of_step stepped with
    | lost ran => exact .inl ⟨phase, closing.lost (congrArg (Option.map _) ran)⟩
    | listenerClosed _ ran => exact .inl ⟨rfl, closing.closedOne ran⟩
    | proxiesClosed _ last =>
      rcases closing.pins with ⟨-, proxies, pins⟩ | ⟨waiting, released, calls, -⟩
      · exact .inr ⟨pins, proxies, closing.tidy.closing closing.quiet⟩
      · cases last.symm.trans calls
    | exit other | sigterm other | closeNext other | connectionClosed other | poolClosed other =>
      cases phase.symm.trans other
  · exact .inr (closing.step stepped)

/-! ## What is left -/

/-- A step that leaves the pins in balance and every live connection in its slot. -/
def Careful (ctx : PoolContext) (m : ProxyManager) (event : ProxyEvent) : Prop :=
  m.Safe event ∧ ∀ inner, event = .pool inner → m.pool.Spares ctx inner

theorem tidy_of_careful {m m' : ProxyManager} (tidy : m.pool.Tidy) {event : ProxyEvent}
    (stepped : guard (ProxyManager.system ctx rt) (Careful ctx) m event m') : m'.pool.Tidy := by
  obtain ⟨stepped, -, spares⟩ := stepped
  change m.step ctx rt event = some m' at stepped
  cases event with
  | pool inner =>
    have noPin : ∀ name, inner ≠ .pin name := by
      rintro name rfl
      cases stepped
    have noUnpin : ∀ name, inner ≠ .unpin name := by
      rintro name rfl
      cases stepped
    rw [ProxyManager.step_pool noPin noUnpin] at stepped
    obtain ⟨w, moved, rfl⟩ := Option.map_eq_some_iff.mp stepped
    exact tidy.step (spares inner rfl) moved
  | start args =>
    simp only [ProxyManager.step] at stepped
    split at stepped
    · cases stepped
      unfold ProxyManager.start
      split <;> exact tidy
    · cases stepped
  | forwarded call outcome =>
    obtain ⟨args, -, rfl⟩ := Option.map_eq_some_iff.mp stepped
    cases outcome <;> exact tidy
  | stop id =>
    cases stepped
    unfold ProxyManager.stop
    split <;> exact tidy
  | stopped call raises =>
    obtain ⟨record, -, rfl⟩ := Option.map_eq_some_iff.mp stepped
    cases raises <;> exact tidy
  | closeAll =>
    cases stepped
    unfold ProxyManager.closeAll
    split <;> exact tidy
  | closedOne call =>
    simp only [ProxyManager.step] at stepped
    split at stepped
    · cases stepped
      unfold ProxyManager.closedOne
      dsimp only
      split <;> exact tidy
    · cases stepped

/-- A connection that is open stays so unless it is lost. -/
theorem open_step {event : ShutdownEvent} (stepped : s.step ctx rt event = some t) {c : ConnId}
    (alive : c ∉ s.pool.closed) (kept : event ≠ .lost c) : c ∉ t.pool.closed := by
  cases moves_of_step stepped with
  | sigterm | proxiesClosed | poolClosed => exact alive
  | exit =>
    unfold AppContext.pool ProxyManager.closeAll
    split <;> exact alive
  | @lost d w ran =>
    obtain ⟨conn, -, -, rfl⟩ := World.step_lost ran
    have apart : c ≠ d := fun same => kept (by rw [same])
    exact fun gone => (List.mem_cons.mp gone).elim apart alive
  | listenerClosed _ ran =>
    simp only [ProxyManager.step] at ran
    split at ran
    · cases ran
      unfold AppContext.pool ProxyManager.closedOne
      dsimp only
      split <;> exact alive
    · cases ran
  | @closeNext name names _ =>
    change c ∉ (s.pool.close name).closed
    rw [(World.close_keeps s.pool name).2]
    exact alive
  | connectionClosed _ ran =>
    obtain ⟨name, d, -, -, rfl⟩ := World.step_closed ran
    exact alive

theorem open_run {events : List ShutdownEvent} (run : Run (system ctx rt) s events t) {c : ConnId}
    (alive : c ∉ s.pool.closed) (kept : .lost c ∉ events) : c ∉ t.pool.closed := by
  induction run with
  | refl => exact alive
  | step first _ ih =>
    obtain ⟨apart, later⟩ := not_or.mp (mt List.mem_cons.mpr kept)
    exact ih (open_step first alive (Ne.symm apart)) later

/-- What is open when the pool is closed has a pin. -/
theorem ClosingPool.pinned_of_open {proxies : Dict String ProxyRecord} (closing : s.ClosingPool pinned proxies)
    (through : s.phase = .done) {c : ConnId} {conn : Connection} (opened : s.pool.conns[c]? = some conn)
    (alive : c ∉ s.pool.closed) : conn.name ∈ pinned := by
  have pool := closing.pool
  rw [through] at pool
  obtain ⟨left, none_⟩ := pool
  rcases left.left c conn opened alive with pin | listed | waits
  · rwa [closing.pinned] at pin
  · cases listed
  · rw [none_] at waits
    cases waits

/-- **How the server ends**, after a run that keeps the pins in balance and every live
connection in its slot, with no call in progress. When the `finally` block of `_lifespan`
is through, there is no proxy, no pin and no open connection. When the task that SIGTERM
starts is through, the proxies are as they were, every connection that is still open is
to a server with a proxy, and what was open is closed only if it was lost. -/
theorem shutdown_closes (ctx : PoolContext) (rt : Runtime) (store : Store) (hosts : HostsFile) (events : List ProxyEvent)
    (m : ProxyManager) (run : Run (guard (ProxyManager.system ctx rt) (Careful ctx)) (.init store hosts) events m)
    (idle : m.Idle) (quiet : m.pool.Idle) (first : ShutdownEvent) (later : List ShutdownEvent) (s : AppContext)
    (ending : Run (system ctx rt) ⟨m, .serving⟩ (first :: later) s) (through : s.phase = .done) :
    (first = .exit → s.proxyManager.proxies = Dict.empty ∧ s.pool.pinned = [] ∧
      ∀ c < s.pool.conns.length, c ∈ s.pool.closed) ∧
    (first = .sigterm → s.proxyManager.proxies = m.proxies ∧
      (∀ c conn, s.pool.conns[c]? = some conn → c ∉ s.pool.closed → m.HasProxy conn.name) ∧
        ∀ c, c ∉ m.pool.closed → .lost c ∉ later → c ∉ s.pool.closed) := by
  have tidy : m.pool.Tidy := by
    refine run.preserves (fun _ _ _ tidy stepped => tidy_of_careful tidy stepped) fun c conn opened _ => ?_
    cases opened
  have keep : ∀ (m : ProxyManager) (event : ProxyEvent) (m' : ProxyManager), m.Inv →
      guard (ProxyManager.system ctx rt) (Careful ctx) m event m' → m'.Inv :=
    fun _ _ _ inv stepped => inv.step stepped.2.1 stepped.1
  have exactly : m.PinnedExactly := (run.preserves keep (ProxyManager.inv_init store hosts)).pinnedExactly idle
  cases ending with
  | step begins rest =>
  constructor
  · rintro rfl
    cases begins
    have exiting : s.Exiting := rest.preserves (fun _ _ _ exiting stepped => exiting.step stepped)
      (.inl ⟨rfl, .start idle exactly quiet.2 tidy⟩)
    rcases exiting with ⟨phase, -⟩ | closing
    · rw [through] at phase
      cases phase
    · refine ⟨closing.proxies, closing.pinned, fun c inside => ?_⟩
      by_contra alive
      have pinned := closing.pinned_of_open through (List.getElem?_eq_getElem inside) alive
      cases pinned
  · rintro rfl
    cases begins
    have closing : s.ClosingPool m.pool.pinned m.proxies :=
      rest.preserves (fun _ _ _ closing stepped => closing.step stepped) ⟨rfl, rfl, tidy.closing quiet.2⟩
    refine ⟨closing.proxies, fun c conn opened alive => ?_, fun c alive kept => open_run rest alive kept⟩
    exact (exactly.pinned conn.name).mp (closing.pinned_of_open through opened alive)

/-- One proxy: the orderly end closes its connection, SIGTERM leaves it open. -/
theorem shutdown_closes_one : ∃ m s t,
    Run (guard (ProxyManager.system ProxyManager.agentContext .inert) (Careful ProxyManager.agentContext))
      (.init .blank .missing) ProxyManager.oneProxy m ∧
    Run (system ProxyManager.agentContext .inert) ⟨m, .serving⟩
      [.exit, .listenerClosed, .proxiesClosed, .closeNext, .lost 0, .connectionClosed, .poolClosed] s ∧
    Run (system ProxyManager.agentContext .inert) ⟨m, .serving⟩ [.sigterm, .closeNext, .poolClosed] t ∧
    (∀ c < s.pool.conns.length, c ∈ s.pool.closed) ∧ 0 ∉ t.pool.closed := by
  have runs : ∃ m, Run (guard (ProxyManager.system ProxyManager.agentContext .inert)
      (Careful ProxyManager.agentContext)) (.init .blank .missing) ProxyManager.oneProxy m ∧ m.Idle ∧ m.pool.Idle ∧
      0 ∉ m.pool.closed ∧
      (∃ s, Run (system ProxyManager.agentContext .inert) ⟨m, .serving⟩
        [.exit, .listenerClosed, .proxiesClosed, .closeNext, .lost 0, .connectionClosed, .poolClosed] s ∧
        s.phase = .done) ∧
      ∃ t, Run (system ProxyManager.agentContext .inert) ⟨m, .serving⟩ [.sigterm, .closeNext, .poolClosed] t ∧
        t.phase = .done := by
    refine ⟨_, .step ⟨rfl, trivial, ?_⟩ (.step ⟨rfl, trivial, ?_⟩ (.step ⟨rfl, trivial, ?_⟩ (.step ⟨rfl, ?_, ?_⟩
      (.step ⟨rfl, ?_, ?_⟩ (.refl _))))), ⟨rfl, rfl, rfl⟩, ⟨rfl, rfl⟩, by decide +kernel,
      ⟨_, .step rfl (.step rfl (.step rfl (.step rfl (.step rfl (.step rfl (.step rfl (.refl _))))))), rfl⟩,
      ⟨_, .step rfl (.step rfl (.step rfl (.refl _))), rfl⟩⟩
    · rintro _ ⟨⟩
      trivial
    · rintro _ ⟨⟩
      trivial
    · rintro _ ⟨⟩ frame rest ⟨⟩
      rfl
    · intro incomplete
      cases incomplete
    · rintro _ ⟨⟩
    · rintro args ⟨⟩
      refine ⟨by decide +kernel, ?_⟩
      rintro record ⟨call, member, -⟩
      cases member
    · rintro _ ⟨⟩
  obtain ⟨m, run, idle, quiet, alive, ⟨s, exits, exited⟩, t, stops, stopped⟩ := runs
  have orderly := (shutdown_closes _ _ _ _ _ m run idle quiet _ _ s exits exited).1 rfl
  have cut := (shutdown_closes _ _ _ _ _ m run idle quiet _ _ t stops stopped).2 rfl
  exact ⟨m, s, t, run, exits, stops, orderly.2.2, cut.2.2 0 alive (by simp)⟩

end AppContext

end McpSsh
