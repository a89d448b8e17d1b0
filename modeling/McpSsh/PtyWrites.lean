import McpSsh.PtyHandles

/-!
# What a successful write means

`pty_write` answers and logs `written` for every session in the store. The data has
reached the session's process or tmux window in exactly those runs in which every write
finds its handle and every `send-keys` its window.
-/

set_option autoImplicit false

namespace McpSsh

open Base

/-- The call hands input to a session. -/
def PtyCall.writes : PtyCall → Bool
  | stdinDrain _ _ _ => true
  | sendKeys _ _ _ _ _ => true
  | _ => false

namespace PtySystem

/-- The handle of a session that a write goes to. -/
def hasWay (s : PtySystem) (session : SessionRecord) (id : String) : Bool :=
  if session.useTmux then (s.tmuxConns.get? id).isSome else (s.procs.get? id).isSome

/-- A write to a session finds its handle, and where `send-keys` returns, it was accepted
for the window that the session's start created. -/
def Reaches (s : PtySystem) : PtyEvent → Prop
  | .write id _ _ => ∀ session, s.sessions.get? id = some session → s.hasWay session id = true
  | .resume k reply _ _ => ∀ server window session id data,
      s.calls.get? k = some (.sendKeys server window session id data) → reply.raises = false →
      reply.ran = true ∧ s.windows.get? (server, window) = some id
  | _ => True

/-- What was answered as written was handed to the session. -/
def WritesDelivered (s : PtySystem) : Prop :=
  ∀ k id data, (k, .written id data) ∈ s.answers → ∃ d ∈ s.delivered, d.call = k ∧ d.session = id ∧ d.data = data

/-- Calls and deliveries have numbers of their own. What is at `stdin.drain()` was
delivered, what is at `send-keys` was not yet. -/
structure Numbered (s : PtySystem) : Prop where
  procs : ∀ id p, s.procs.get? id = some p → p.session = id
  calls : ∀ k call, s.calls.get? k = some call → k < s.next
  delivered : ∀ d ∈ s.delivered, d.call < s.next
  drain : ∀ k session id data, s.calls.get? k = some (.stdinDrain session id data) →
    ⟨k, .stdin, id, data⟩ ∈ s.delivered
  keys : ∀ k server window session id data, s.calls.get? k = some (.sendKeys server window session id data) →
    ∀ d ∈ s.delivered, d.call ≠ k

/-- Some write was answered whose data never reaches the session. -/
def Lost (s : PtySystem) : Prop :=
  ∃ k id data, (k, .written id data) ∈ s.answers ∧ (∀ d ∈ s.delivered, d.call = k → d.session ≠ id) ∧ k < s.next ∧
    s.calls.get? k = none

/-- A lost write is one that was answered and not delivered. -/
theorem Lost.not_delivered {s : PtySystem} (lost : s.Lost) : ¬ s.WritesDelivered := by
  obtain ⟨k, id, data, answered, never, -⟩ := lost
  intro all
  obtain ⟨d, member, call, session, -⟩ := all k id data answered
  exact never d member call session

/-! ## Turns that neither answer a write nor deliver -/

/-- No write is answered or delivered, and new calls have new numbers. -/
structure Quiet (s t : PtySystem) : Prop where
  written : ∀ k id data, (k, .written id data) ∈ t.answers ↔ (k, .written id data) ∈ s.answers
  delivered : t.delivered = s.delivered
  next : s.next ≤ t.next
  calls : ∀ k call, t.calls.get? k = some call → s.calls.get? k = some call ∨
    call.writes = false ∧ (s.calls.get? k).isSome = true ∨
    s.next ≤ k ∧ k < t.next ∧ ∀ session id data, call ≠ .stdinDrain session id data
  procs : ∀ id p, t.procs.get? id = some p → p.session = id ∨ ∃ q, s.procs.get? id = some q ∧ p.session = q.session

variable {s t u : PtySystem}

/-- Quiet turns are made of quiet parts: the lemmas below go through the parts of each
operation, in the order of the code. -/
theorem Quiet.refl (s : PtySystem) : s.Quiet s :=
  ⟨fun _ _ _ => Iff.rfl, rfl, Nat.le_refl _, fun _ _ found => .inl found, fun _ p found => .inr ⟨p, found, rfl⟩⟩

theorem Quiet.trans (first : s.Quiet t) (second : t.Quiet u) : s.Quiet u where
  written k id data := (second.written k id data).trans (first.written k id data)
  delivered := second.delivered.trans first.delivered
  next := first.next.trans second.next
  calls k call found := by
    obtain same | ⟨quiet, there⟩ | ⟨late, young, other⟩ := second.calls k call found
    · obtain old | old | ⟨late, young, other⟩ := first.calls k call same
      · exact .inl old
      · exact .inr (.inl old)
      · exact .inr (.inr ⟨late, young.trans_le second.next, other⟩)
    · obtain ⟨before, here⟩ := Option.isSome_iff_exists.mp there
      have calm : ∀ session id data, call ≠ .stdinDrain session id data := by
        rintro session id data rfl
        cases quiet
      obtain old | ⟨-, old⟩ | ⟨late, young, -⟩ := first.calls k before here
      · exact .inr (.inl ⟨quiet, Option.isSome_of_eq_some old⟩)
      · exact .inr (.inl ⟨quiet, old⟩)
      · exact .inr (.inr ⟨late, young.trans_le second.next, calm⟩)
    · exact .inr (.inr ⟨first.next.trans late, young, other⟩)
  procs id p found := by
    obtain own | ⟨q, there, same⟩ := second.procs id p found
    · exact .inl own
    · obtain own | ⟨r, before, equal⟩ := first.procs id q there
      · exact .inl (same.trans own)
      · exact .inr ⟨r, before, same.trans equal⟩

theorem quiet_enter (s : PtySystem) : s.Quiet s.enter :=
  { Quiet.refl s with
    next := Nat.le_succ _
    calls := fun _ _ found => .inl found }

theorem quiet_log (s : PtySystem) (event : PtyAudit) : s.Quiet (s.log event) :=
  { Quiet.refl s with }

/-- A call may end in any answer but that of a write. -/
theorem quiet_finish (k : Nat) {answer : PtyAnswer} (other : ∀ id data, answer ≠ .written id data) :
    s.Quiet (s.finish k answer) :=
  { Quiet.refl s with
    written := by
      intro j id data
      simp only [finish, List.mem_append, List.mem_singleton, Prod.mk.injEq]
      exact ⟨fun member => member.resolve_right fun same => other id data same.2.symm, .inl⟩
    calls := by
      intro j call found
      rw [finish, Dict.get?_erase] at found
      split at found
      · cases found
      · exact .inl found }

/-- A call that goes on to another await. -/
theorem quiet_await {k : Nat} {call : PtyCall} (calling : (s.calls.get? k).isSome = true) (calm : call.writes = false) :
    s.Quiet (s.await k call) :=
  { Quiet.refl s with
    calls := by
      intro j other found
      rw [await, Dict.get?_insert] at found
      split at found
      · rename_i here
        cases found
        exact .inr (.inl ⟨calm, here ▸ calling⟩)
      · exact .inl found }

/-- A new call that comes to an await. -/
theorem quiet_call {call : PtyCall} (calm : ∀ session id data, call ≠ .stdinDrain session id data)
    (issued : List String) : s.Quiet (PtySystem.await { s.enter with issued := issued } s.next call) :=
  { Quiet.refl s with
    next := Nat.le_succ _
    calls := by
      intro j other found
      rw [await, Dict.get?_insert] at found
      split at found
      · rename_i here
        cases found
        exact .inr (.inr ⟨here.ge, Nat.lt_succ_of_le here.le, calm⟩)
      · exact .inl found }

theorem quiet_finishResize (s : PtySystem) (k : Nat) (session : SessionRecord) (id : String) (cols rows : Int) :
    s.Quiet (s.finishResize k session id cols rows) :=
  (quiet_log s _).trans (quiet_finish k (by rintro _ _ ⟨⟩))

/-- A new handle is filed under its own session. -/
theorem quiet_openHandles (s : PtySystem) (start : PtyStart) : s.Quiet (s.openHandles start) := by
  unfold openHandles
  split
  · exact { Quiet.refl s with }
  · exact { Quiet.refl s with
      procs := by
        intro id p found
        rw [Dict.get?_insert] at found
        split at found
        · rename_i here
          cases found
          exact .inl here.symm
        · exact .inr ⟨p, found, rfl⟩ }

theorem quiet_dropHandles (s : PtySystem) (session : SessionRecord) (id : String) :
    s.Quiet (s.dropHandles session id) := by
  unfold dropHandles
  split
  · exact { Quiet.refl s with }
  · exact { Quiet.refl s with
      procs := by
        intro j p found
        rw [Dict.get?_erase] at found
        split at found
        · cases found
        · exact .inr ⟨p, found, rfl⟩ }

/-- The end of a start, whether the record can be saved or not. -/
theorem quiet_register (s : PtySystem) (k : Nat) (start : PtyStart) (now : Timestamp) (works : Bool) :
    s.Quiet (s.register k start now works) := by
  have stored : s.Quiet ((s.openHandles start).upsertSession (start.record now) works) :=
    (quiet_openHandles s start).trans { Quiet.refl (s.openHandles start) with }
  unfold register
  dsimp only
  split
  · exact (stored.trans (quiet_log _ _)).trans (quiet_finish k (by rintro _ _ ⟨⟩))
  · exact stored.trans (quiet_finish k (by rintro _ _ ⟨⟩))

/-- `pty_close`, with and without a record. -/
theorem quiet_close (s : PtySystem) (id : String) (works : Bool) : s.Quiet (s.ptyClose id works) := by
  unfold ptyClose
  split
  · exact (quiet_enter s).trans (quiet_finish _ (by rintro _ _ ⟨⟩))
  rename_i session found
  have stored : s.Quiet ((s.enter.dropHandles session id).upsertSession { session with status := .exited } works) :=
    ((quiet_enter s).trans (quiet_dropHandles _ session id)).trans
      { Quiet.refl (s.enter.dropHandles session id) with }
  dsimp only
  split
  · exact (stored.trans (quiet_log _ _)).trans (quiet_finish _ (by rintro _ _ ⟨⟩))
  · exact stored.trans (quiet_finish _ (by rintro _ _ ⟨⟩))

theorem quiet_startPty (s : PtySystem) (limits : SessionLimits) (start : PtyStart) :
    s.Quiet (s.startPty limits start) := by
  unfold startPty
  split
  · exact (quiet_enter s).trans (quiet_finish _ (by rintro _ _ ⟨⟩))
  · exact quiet_call (by rintro _ _ _ ⟨⟩) _

/-- `pty_read`, from a buffer or up to its first command. -/
theorem quiet_read (s : PtySystem) (id : String) (maxBytes : Int) : s.Quiet (s.ptyRead id maxBytes) := by
  have refused : ∀ answer, (∀ id data, answer ≠ .written id data) → s.Quiet (s.enter.finish s.next answer) :=
    fun _ other => (quiet_enter s).trans (quiet_finish _ other)
  unfold ptyRead
  split
  · exact refused _ (by rintro _ _ ⟨⟩)
  split
  · split
    · exact refused _ (by rintro _ _ ⟨⟩)
    · exact quiet_call (by rintro _ _ _ ⟨⟩) s.issued
  · split
    · exact refused _ (by rintro _ _ ⟨⟩)
    · rename_i buf found
      have taken : s.Quiet { s.enter with buffers := s.buffers.insert id (collect maxBytes.toNat [] buf).2 } :=
        { quiet_enter s with }
      exact taken.trans (quiet_finish _ (by rintro _ _ ⟨⟩))

/-- `pty_resize`, of a process or up to its first command. -/
theorem quiet_resize (s : PtySystem) (id : String) (cols rows : Int) (works : Bool) :
    s.Quiet (s.ptyResize id cols rows works) := by
  have refused : ∀ answer, (∀ id data, answer ≠ .written id data) → s.Quiet (s.enter.finish s.next answer) :=
    fun _ other => (quiet_enter s).trans (quiet_finish _ other)
  unfold ptyResize
  split
  · exact refused _ (by rintro _ _ ⟨⟩)
  split
  · split
    · exact (quiet_enter s).trans (quiet_finishResize _ _ _ _ _ _)
    · exact quiet_call (by rintro _ _ _ ⟨⟩) s.issued
  · split
    · exact refused _ (by rintro _ _ ⟨⟩)
    · exact (quiet_enter s).trans (quiet_finishResize _ _ _ _ _ _)

/-- What `_drain_pty` reads goes into a buffer. -/
theorem quiet_drained {id : String} {chunk : List Char} (read : s.drained id chunk = some t) : s.Quiet t := by
  unfold drained at read
  split at read
  · split at read <;> obtain ⟨⟩ := read <;> exact { Quiet.refl s with }
  · cases read

/-- A new server has neither calls nor handles. -/
theorem quiet_restart (s : PtySystem) : s.Quiet s.restart :=
  { Quiet.refl s with
    calls := by
      intro k call found
      cases found
    procs := by
      intro id p found
      cases found }

/-- An await of a call that writes nothing. -/
theorem quiet_proceed {k : Nat} {call : PtyCall} (calling : (s.calls.get? k).isSome = true) (calm : call.writes = false)
    (stdout : List Char) (now : Timestamp) (works : Bool) : s.Quiet (s.proceed k stdout now works call) := by
  cases call with
  | connect start => exact quiet_await calling (by split <;> rfl)
  | create start => exact quiet_register _ _ _ _ _
  | whichTmux start =>
    rw [proceed]
    split
    · exact quiet_finish _ (by rintro _ _ ⟨⟩)
    · exact quiet_await calling rfl
  | newSession start => exact quiet_await calling rfl
  | pipePane start => exact quiet_register _ _ _ _ _
  | capturePane server window id maxBytes => exact quiet_await calling rfl
  | hasSession server window id maxBytes captured => exact quiet_finish _ (by rintro _ _ ⟨⟩)
  | resizeWindow server window session id cols rows => exact quiet_finishResize _ _ _ _ _ _
  | stdinDrain session id data => cases calm
  | sendKeys server window session id data => cases calm

/-! ## Every turn -/

/-- What a turn does about writes. -/
inductive WriteTurn (s : PtySystem) : PtyEvent → PtySystem → Prop where
  | quiet {e : PtyEvent} {t : PtySystem} (quiet : s.Quiet t) (reaches : s.Reaches e) : WriteTurn s e t
  /-- A write that has no handle is answered at once. -/
  | dropped {id data : String} {works : Bool} {session : SessionRecord} (found : s.sessions.get? id = some session)
      (noWay : s.hasWay session id = false) :
      WriteTurn s (.write id data works) (s.enter.finishWrite s.next session id data)
  | stdin {id data : String} {works : Bool} {session : SessionRecord} {proc : PtyProcess}
      (found : s.sessions.get? id = some session) (way : s.hasWay session id = true)
      (handle : s.procs.get? id = some proc) :
      WriteTurn s (.write id data works)
        ((s.enter.deliver ⟨s.next, .stdin, proc.session, data⟩).await s.next (.stdinDrain session id data))
  | drains {k : Nat} {reply : PtyReply} {now : Timestamp} {works : Bool} {session : SessionRecord} {id data : String}
      (calling : s.calls.get? k = some (.stdinDrain session id data)) :
      WriteTurn s (.resume k reply now works) (s.finishWrite k session id data)
  | keys {k : Nat} {reply : PtyReply} {now : Timestamp} {works : Bool} {server window : String}
      {session : SessionRecord} {id data : String}
      (calling : s.calls.get? k = some (.sendKeys server window session id data)) :
      WriteTurn s (.resume k reply now works)
        (if reply.raises then
          (s.effect k reply.ran (.sendKeys server window session id data)).finish k (.failed .raised)
        else (s.effect k reply.ran (.sendKeys server window session id data)).finishWrite k session id data)

/-- A write is refused, or goes one of the three ways. -/
theorem writeTurn_write (s : PtySystem) (id data : String) (works : Bool) :
    s.WriteTurn (.write id data works) (s.ptyWrite id data works) := by
  have refused : ∀ answer, (∀ id data, answer ≠ .written id data) → s.Quiet (s.enter.finish s.next answer) :=
    fun _ other => (quiet_enter s).trans (quiet_finish _ other)
  unfold ptyWrite
  split
  · rename_i unknown
    exact .quiet (refused _ (by rintro _ _ ⟨⟩)) fun session found => by simp [unknown] at found
  rename_i session found
  have one : ∀ way, s.hasWay session id = way → ∀ other, s.sessions.get? id = some other → s.hasWay other id = way := by
    intro way is other there
    cases found.symm.trans there
    exact is
  split
  · rename_i tmux
    split
    · rename_i noConn
      exact .dropped found (by simp [hasWay, tmux, noConn])
    · rename_i server conn
      exact .quiet (quiet_call (by rintro _ _ _ ⟨⟩) s.issued) (one _ (by simp [hasWay, tmux, conn]))
  · rename_i plain
    split
    · rename_i noProc
      exact .dropped found (by simp [hasWay, plain, noProc])
    · rename_i proc handle
      have way : s.hasWay session id = true := by simp [hasWay, plain, handle]
      split
      · exact .stdin found way handle
      · exact .quiet (refused _ (by rintro _ _ ⟨⟩)) (one _ way)

/-- Only the awaits of a write are turns of a write. -/
theorem writeTurn_resume {k : Nat} {reply : PtyReply} {now : Timestamp} {works : Bool}
    (resumed : s.resume k reply now works = some t) : s.WriteTurn (.resume k reply now works) t := by
  obtain ⟨call, found, rfl⟩ := Option.map_eq_some_iff.mp resumed
  have there := Option.isSome_of_eq_some found
  cases calm : call.writes with
  | false =>
    have same : s.Quiet (s.effect k reply.ran call) := by
      unfold effect
      split
      · split
        · exact Quiet.refl s
        · exact { Quiet.refl s with }
      · cases calm
      · exact Quiet.refl s
    have reaches : s.Reaches (.resume k reply now works) := by
      intro server window session id data calling
      cases found.symm.trans calling
      cases calm
    dsimp only
    split
    · exact .quiet (same.trans (quiet_finish k (by rintro _ _ ⟨⟩))) reaches
    · exact .quiet (same.trans (quiet_proceed (by rwa [(effect_spec k reply.ran call).1]) calm _ _ _)) reaches
  | true =>
    cases call with
    | stdinDrain session id data =>
      dsimp only
      split
      · refine .quiet (quiet_finish k (by rintro _ _ ⟨⟩)) fun server window session' id' data' calling => ?_
        cases found.symm.trans calling
      · exact .drains found
    | sendKeys server window session id data => exact .keys found
    | _ => cases calm

/-- **A turn is quiet, or it is one of the four that write.** -/
theorem step_writeTurn {limits : SessionLimits} {e : PtyEvent} (stepped : s.step limits e = some t) :
    s.WriteTurn e t := by
  cases e with
  | start start =>
    obtain ⟨-, ⟨⟩⟩ := Option.ite_none_left_eq_some.mp stepped
    exact .quiet (quiet_startPty s limits start) trivial
  | read id maxBytes =>
    obtain ⟨⟩ := stepped
    exact .quiet (quiet_read s id maxBytes) trivial
  | write id data works =>
    obtain ⟨⟩ := stepped
    exact writeTurn_write s id data works
  | resize id cols rows works =>
    obtain ⟨⟩ := stepped
    exact .quiet (quiet_resize s id cols rows works) trivial
  | close id works =>
    obtain ⟨⟩ := stepped
    exact .quiet (quiet_close s id works) trivial
  | resume k reply now works => exact writeTurn_resume stepped
  | drained id chunk =>
    exact .quiet (quiet_drained stepped) trivial
  | drainFails id =>
    obtain ⟨task, found, rfl⟩ := Option.map_eq_some_iff.mp stepped
    exact .quiet { Quiet.refl s with } trivial
  | exits id =>
    obtain ⟨proc, found, rfl⟩ := Option.map_eq_some_iff.mp stepped
    refine .quiet { Quiet.refl s with procs := ?_ } trivial
    intro j p there
    rw [Dict.get?_insert] at there
    split at there
    · rename_i here
      cases there
      exact .inr ⟨proc, here ▸ found, rfl⟩
    · exact .inr ⟨p, there, rfl⟩
  | windowGone server window =>
    obtain ⟨⟩ := stepped
    exact .quiet { Quiet.refl s with } trivial
  | restart =>
    obtain ⟨⟩ := stepped
    exact .quiet (quiet_restart s) trivial

/-! ## What a turn keeps -/

/-- A quiet turn adds calls with new numbers and no delivery. -/
theorem Quiet.numbered (quiet : s.Quiet t) (numbered : s.Numbered) : t.Numbered where
  procs id p found := by
    obtain own | ⟨q, there, same⟩ := quiet.procs id p found
    · exact own
    · exact same.trans (numbered.procs id q there)
  calls k call found := by
    obtain old | ⟨-, old⟩ | ⟨-, young, -⟩ := quiet.calls k call found
    · exact (numbered.calls k call old).trans_le quiet.next
    · obtain ⟨before, there⟩ := Option.isSome_iff_exists.mp old
      exact (numbered.calls k before there).trans_le quiet.next
    · exact young
  delivered d member := by
    rw [quiet.delivered] at member
    exact (numbered.delivered d member).trans_le quiet.next
  drain k session id data found := by
    rw [quiet.delivered]
    obtain old | ⟨calm, -⟩ | ⟨-, -, other⟩ := quiet.calls k _ found
    · exact numbered.drain k session id data old
    · cases calm
    · exact absurd rfl (other session id data)
  keys k server window session id data found d member := by
    rw [quiet.delivered] at member
    obtain old | ⟨calm, -⟩ | ⟨late, -⟩ := quiet.calls k _ found
    · exact numbered.keys k server window session id data old d member
    · cases calm
    · exact (Nat.lt_of_lt_of_le (numbered.delivered d member) late).ne

/-- Calls that end keep the numbers. -/
theorem Numbered.shrink (numbered : s.Numbered) (procs : t.procs = s.procs) (delivered : t.delivered = s.delivered)
    (next : s.next ≤ t.next) (calls : ∀ k call, t.calls.get? k = some call → s.calls.get? k = some call) :
    t.Numbered where
  procs := by
    rw [procs]
    exact numbered.procs
  calls k call found := (numbered.calls k call (calls k call found)).trans_le next
  delivered := by
    rw [delivered]
    exact fun d member => (numbered.delivered d member).trans_le next
  drain k session id data found := by
    rw [delivered]
    exact numbered.drain k session id data (calls k _ found)
  keys k server window session id data found := by
    rw [delivered]
    exact numbered.keys k server window session id data (calls k _ found)

/-- What is left of the calls when one of them is over. -/
theorem get?_erase_call {k j : Nat} {call : PtyCall} (found : (s.calls.erase k).get? j = some call) :
    j ≠ k ∧ s.calls.get? j = some call := by
  rw [Dict.get?_erase] at found
  split at found
  · cases found
  · exact ⟨‹_›, found⟩

/-- A delivery of a call that has ended. -/
theorem Numbered.deliver (numbered : s.Numbered) {delivery : Delivery} (young : delivery.call < s.next)
    (ended : s.calls.get? delivery.call = none) : (s.deliver delivery).Numbered where
  procs := numbered.procs
  calls := numbered.calls
  delivered d member := by
    obtain old | new := List.mem_append.mp member
    · exact numbered.delivered d old
    · exact List.mem_singleton.mp new ▸ young
  drain k session id data found := List.mem_append_left _ (numbered.drain k session id data found)
  keys k server window session id data found d member := by
    obtain old | new := List.mem_append.mp member
    · exact numbered.keys k server window session id data found d old
    · rintro rfl
      rw [List.mem_singleton.mp new] at found
      cases ended.symm.trans found

/-- `send-keys` delivers to the window's owner, or nothing. -/
theorem effect_sendKeys (k : Nat) (ran : Bool) (server window : String) (session : SessionRecord) (id data : String) :
    (s.effect k ran (.sendKeys server window session id data) = s ∧
      ¬ (ran = true ∧ s.windows.get? (server, window) = some id)) ∨
    ∃ owner, ran = true ∧ s.windows.get? (server, window) = some owner ∧
      s.effect k ran (.sendKeys server window session id data) = s.deliver ⟨k, .sendKeys, owner, data⟩ := by
  unfold effect
  dsimp only
  cases found : s.windows.get? (server, window) with
  | none => exact .inl ⟨rfl, by simp⟩
  | some owner =>
    cases ran with
    | false => exact .inl ⟨rfl, by simp⟩
    | true => exact .inr ⟨owner, rfl, rfl, rfl⟩

/-- **Every turn keeps the numbers apart.** -/
theorem Numbered.turn (numbered : s.Numbered) {e : PtyEvent} (turn : s.WriteTurn e t) : t.Numbered := by
  cases turn with
  | quiet quiet _ => exact quiet.numbered numbered
  | dropped found noWay =>
    exact numbered.shrink rfl rfl (Nat.le_succ _) fun _ _ found => (get?_erase_call found).2
  | drains calling =>
    exact numbered.shrink rfl rfl (Nat.le_refl _) fun _ _ found => (get?_erase_call found).2
  | @keys k reply now works server window session id data calling =>
    have ended : ∀ answer, (s.finish k answer).Numbered := fun _ =>
      numbered.shrink rfl rfl (Nat.le_refl _) fun _ _ found => (get?_erase_call found).2
    have delivered : ∀ answer owner, ((s.deliver ⟨k, .sendKeys, owner, data⟩).finish k answer).Numbered := by
      intro answer owner
      apply @Numbered.deliver _ (ended answer) ⟨k, .sendKeys, owner, data⟩ (numbered.calls k _ calling)
      exact Dict.get?_erase.trans (if_pos rfl)
    have logged : ∀ u : PtySystem, (∀ answer, (u.finish k answer).Numbered) →
        (u.finishWrite k session id data).Numbered := fun u all =>
      (all (.written id data)).shrink rfl rfl (Nat.le_refl _) fun _ _ found => found
    obtain ⟨same, -⟩ | ⟨owner, -, -, same⟩ := @effect_sendKeys s k reply.ran server window session id data
    · rw [same]
      split
      · exact ended _
      · exact logged s ended
    · rw [same]
      split
      · exact delivered _ owner
      · exact logged _ fun answer => delivered answer owner
  | @stdin id data works session proc found way handle =>
    have own := numbered.procs id proc handle
    constructor
    · exact numbered.procs
    · intro k call found
      rw [await, Dict.get?_insert] at found
      split at found
      · rename_i here
        exact Nat.lt_succ_of_le here.le
      · exact Nat.lt_succ_of_lt (numbered.calls k call found)
    · intro d member
      obtain old | new := List.mem_append.mp member
      · exact Nat.lt_succ_of_lt (numbered.delivered d old)
      · rw [List.mem_singleton.mp new]
        exact Nat.lt_succ_self _
    · intro k session' id' data' found
      rw [await, Dict.get?_insert] at found
      split at found
      · rename_i here
        cases found
        exact List.mem_append_right _ (by rw [own, here]; exact List.mem_singleton_self _)
      · exact List.mem_append_left _ (numbered.drain k session' id' data' found)
    · intro k server window session' id' data' found d member
      rw [await, Dict.get?_insert] at found
      split at found
      · cases found
      · rename_i other
        obtain old | new := List.mem_append.mp member
        · exact numbered.keys k server window session' id' data' found d old
        · rw [List.mem_singleton.mp new]
          exact fun same => other same.symm

/-! ## Delivered or lost -/

/-- More may be delivered. -/
theorem WritesDelivered.mono (all : s.WritesDelivered)
    (answers : ∀ k id data, (k, .written id data) ∈ t.answers → (k, .written id data) ∈ s.answers)
    (delivered : ∀ d ∈ s.delivered, d ∈ t.delivered) : t.WritesDelivered := by
  intro k id data answered
  obtain ⟨d, member, rest⟩ := all k id data (answers k id data answered)
  exact ⟨d, delivered d member, rest⟩

/-- A write is answered that was delivered. -/
theorem WritesDelivered.finishWrite (all : s.WritesDelivered) {k : Nat} (session : SessionRecord) {id data : String}
    {way : InputWay} (member : ⟨k, way, id, data⟩ ∈ s.delivered) : (s.finishWrite k session id data).WritesDelivered := by
  intro j id' data' answered
  obtain old | new := List.mem_append.mp answered
  · exact all j id' data' old
  · cases List.mem_singleton.mp new
    exact ⟨_, member, rfl, rfl, rfl⟩

/-- **A turn in which no write is dropped delivers what it answers.** -/
theorem WritesDelivered.turn (all : s.WritesDelivered) (numbered : s.Numbered) {e : PtyEvent} (turn : s.WriteTurn e t)
    (reaches : s.Reaches e) : t.WritesDelivered := by
  cases turn with
  | quiet quiet _ =>
    exact all.mono (fun k id data => (quiet.written k id data).mp) (by rw [quiet.delivered]; exact fun _ member => member)
  | dropped found noWay =>
    have way := reaches _ found
    rw [noWay] at way
    cases way
  | stdin found way handle => exact all.mono (fun _ _ _ answered => answered) fun _ => List.mem_append_left _
  | drains calling => exact all.finishWrite _ (numbered.drain _ _ _ _ calling)
  | @keys k reply now works server window session id data calling =>
    have more : (s.effect k reply.ran (.sendKeys server window session id data)).WritesDelivered := by
      obtain ⟨same, -⟩ | ⟨owner, -, -, same⟩ := @effect_sendKeys s k reply.ran server window session id data
      · rwa [same]
      · rw [same]
        exact all.mono (fun _ _ _ answered => answered) fun _ => List.mem_append_left _
    split
    · refine more.mono (fun j id' data' answered => ?_) fun _ member => member
      exact (List.mem_append.mp answered).resolve_right (by simp)
    · rename_i returns
      obtain ⟨ran, owned⟩ := reaches server window session id data calling (Bool.eq_false_iff.mpr returns)
      obtain ⟨-, not⟩ | ⟨owner, -, there, same⟩ := @effect_sendKeys s k reply.ran server window session id data
      · exact absurd ⟨ran, owned⟩ not
      · cases there.symm.trans owned
        apply @WritesDelivered.finishWrite _ more k session id data .sendKeys
        rw [same]
        exact List.mem_append_right _ (List.mem_singleton_self _)

/-- Later calls and deliveries do not make up for it. -/
theorem Lost.mono (lost : s.Lost)
    (answers : ∀ k id data, (k, .written id data) ∈ s.answers → (k, .written id data) ∈ t.answers)
    (delivered : ∀ d ∈ t.delivered, d ∈ s.delivered ∨ s.next ≤ d.call ∨ (s.calls.get? d.call).isSome = true)
    (next : s.next ≤ t.next)
    (calls : ∀ k call, t.calls.get? k = some call → s.next ≤ k ∨ (s.calls.get? k).isSome = true) : t.Lost := by
  obtain ⟨k, id, data, answered, never, young, ended⟩ := lost
  refine ⟨k, id, data, answers k id data answered, fun d member same => ?_, young.trans_le next, ?_⟩
  · obtain old | late | calling := delivered d member
    · exact never d old same
    · omega
    · rw [same, ended] at calling
      cases calling
  · cases found : t.calls.get? k with
    | none => rfl
    | some call =>
      obtain late | calling := calls k call found
      · omega
      · rw [ended] at calling
        cases calling

/-- An answer makes up for no other write. -/
theorem Lost.finish (lost : s.Lost) (k : Nat) (answer : PtyAnswer) : (s.finish k answer).Lost :=
  lost.mono (fun _ _ _ => List.mem_append_left _) (fun _ => .inl) (Nat.le_refl _)
    fun _ _ found => .inr (Option.isSome_of_eq_some (get?_erase_call found).2)

/-- Another write that is answered does not deliver the lost one. -/
theorem Lost.finishWrite (lost : s.Lost) (k : Nat) (session : SessionRecord) (id data : String) :
    (s.finishWrite k session id data).Lost :=
  lost.mono (fun _ _ _ => List.mem_append_left _) (fun _ => .inl) (Nat.le_refl _)
    fun _ _ found => .inr (Option.isSome_of_eq_some (get?_erase_call found).2)

theorem Lost.enter (lost : s.Lost) : s.enter.Lost :=
  lost.mono (fun _ _ _ => id) (fun _ => .inl) (Nat.le_succ _) fun _ _ found => .inr (Option.isSome_of_eq_some found)

/-- The command of a call that is on its way delivers for that call. -/
theorem Lost.sendKeys (lost : s.Lost) {k : Nat} {server window id data : String} {session : SessionRecord}
    (calling : s.calls.get? k = some (.sendKeys server window session id data)) (ran : Bool) :
    (s.effect k ran (.sendKeys server window session id data)).Lost := by
  obtain ⟨calls, -, next, -, answers⟩ := @effect_spec s k ran (.sendKeys server window session id data)
  apply lost.mono
  · intro j id' data' answered
    exact answers ▸ answered
  · intro d member
    obtain ⟨same, -⟩ | ⟨owner, -, -, same⟩ := @effect_sendKeys s k ran server window session id data
    · exact .inl (same ▸ member)
    · rw [same] at member
      obtain old | new := List.mem_append.mp member
      · exact .inl old
      · rw [List.mem_singleton.mp new]
        exact .inr (.inr (Option.isSome_of_eq_some calling))
  · exact next.ge
  · exact fun j call found => .inr (Option.isSome_of_eq_some (calls ▸ found))

/-- **A lost write stays lost** in every turn: only its own call could deliver it, and that
has ended. -/
theorem Lost.turn (lost : s.Lost) {e : PtyEvent} (turn : s.WriteTurn e t) : t.Lost := by
  cases turn with
  | quiet quiet _ =>
    refine lost.mono (fun k id data => (quiet.written k id data).mpr) (fun d member => ?_) quiet.next fun k call found => ?_
    · exact .inl (quiet.delivered ▸ member)
    · obtain old | ⟨-, old⟩ | ⟨late, -⟩ := quiet.calls k call found
      · exact .inr (Option.isSome_of_eq_some old)
      · exact .inr old
      · exact .inl late
  | dropped found noWay => exact lost.enter.finishWrite _ _ _ _
  | drains calling => exact lost.finishWrite _ _ _ _
  | stdin found way handle =>
    refine lost.mono (fun _ _ _ answered => answered) (fun d member => ?_) (Nat.le_succ _) fun k call found => ?_
    · obtain old | new := List.mem_append.mp member
      · exact .inl old
      · exact .inr (.inl (by rw [List.mem_singleton.mp new]))
    · rw [await, Dict.get?_insert] at found
      split at found
      · rename_i here
        exact .inl here.ge
      · exact .inr (Option.isSome_of_eq_some found)
  | keys calling =>
    split
    · exact (lost.sendKeys calling _).finish _ _
    · exact (lost.sendKeys calling _).finishWrite _ _ _ _

/-- A write that misses its handle or its window is answered all the same. -/
theorem lost_of_not_reaches (numbered : s.Numbered) {e : PtyEvent} (turn : s.WriteTurn e t) (misses : ¬ s.Reaches e) :
    t.Lost := by
  cases turn with
  | quiet _ reaches => exact absurd reaches misses
  | @dropped id data works session found noWay =>
    refine ⟨s.next, id, data, List.mem_append_right _ (List.mem_singleton_self _), fun d member same => ?_,
      Nat.lt_succ_self _, Dict.get?_erase.trans (if_pos rfl)⟩
    exact absurd same (numbered.delivered d member).ne
  | stdin found way handle =>
    refine absurd (fun other there => ?_) misses
    cases found.symm.trans there
    exact way
  | drains calling =>
    refine absurd (fun server window session id data there => ?_) misses
    cases calling.symm.trans there
  | @keys k reply now works server window session id data calling =>
    have fails : reply.raises = false ∧ ¬ (reply.ran = true ∧ s.windows.get? (server, window) = some id) := by
      cases raised : reply.raises with
      | true =>
        refine absurd (fun _ _ _ _ _ _ returns => ?_) misses
        rw [raised] at returns
        cases returns
      | false =>
        refine ⟨rfl, fun accepted => misses fun _ _ _ _ _ there _ => ?_⟩
        cases calling.symm.trans there
        exact accepted
    obtain ⟨returns, fails⟩ := fails
    rw [returns, if_neg Bool.false_ne_true]
    have effect := @effect_spec s k reply.ran (.sendKeys server window session id data)
    refine ⟨k, id, data, List.mem_append_right _ (List.mem_singleton_self _), fun d member same => ?_, ?_,
      Dict.get?_erase.trans (if_pos rfl)⟩
    · have earlier := numbered.keys k server window session id data calling
      obtain ⟨kept, -⟩ | ⟨owner, ran, there, kept⟩ := @effect_sendKeys s k reply.ran server window session id data
      · exact absurd same (earlier d (kept ▸ member))
      · have parts : d ∈ s.delivered ++ [⟨k, .sendKeys, owner, data⟩] := by
          have whole : d ∈ (s.effect k reply.ran (.sendKeys server window session id data)).delivered := member
          rwa [kept] at whole
        obtain old | new := List.mem_append.mp parts
        · exact absurd same (earlier d old)
        · rw [List.mem_singleton.mp new]
          rintro rfl
          exact fails ⟨ran, there⟩
    · exact (numbered.calls k _ calling).trans_le effect.2.2.1.ge

/-! ## Along a run -/

/-- A server that has just been started has no calls, deliveries or answers. -/
theorem Initial.numbered (initial : s.Initial) : s.Numbered ∧ s.WritesDelivered := by
  obtain ⟨saved, windows, issued, -, -, rfl⟩ := initial
  refine ⟨⟨?_, ?_, ?_, ?_, ?_⟩, ?_⟩
  · intro id p found
    cases found
  · intro k call found
    cases found
  · intro d member
    cases member
  · intro k session id data found
    cases found
  · intro k server window session id data found
    cases found
  · intro k id data answered
    cases answered

/-- So it stays lost in every run. -/
theorem Lost.run {limits : SessionLimits} {es : List PtyEvent} (lost : s.Lost) (run : Run (turns limits) s es t) :
    t.Lost := run.preserves (fun _ _ _ lost stepped => lost.turn (step_writeTurn stepped)) lost

/-- The first turn that drops a write decides the run. -/
theorem writesDelivered_iff_run {limits : SessionLimits} {es : List PtyEvent} (numbered : s.Numbered)
    (all : s.WritesDelivered) (run : Run (turns limits) s es t) :
    t.WritesDelivered ↔ Run (guard (turns limits) Reaches) s es t := by
  induction run with
  | refl s => exact ⟨fun _ => .refl s, fun _ => all⟩
  | @step s u t e es first rest ih =>
    have turn := step_writeTurn first
    by_cases reaches : s.Reaches e
    · rw [ih (numbered.turn turn) (all.turn numbered turn reaches)]
      constructor
      · exact .step ⟨first, reaches⟩
      · intro whole
        cases whole with
        | step second later =>
          cases first.symm.trans second.1
          exact later
    · constructor
      · intro delivered
        exact absurd delivered (((lost_of_not_reaches numbered turn reaches).run rest).not_delivered)
      · intro whole
        cases whole with
        | step second _ => exact absurd second.2 reaches

/-- **Every write that was answered was delivered**, in exactly those runs in which every
write finds its handle, and every `send-keys` its window. -/
theorem writesDelivered_iff {limits : SessionLimits} {es : List PtyEvent} (initial : s.Initial)
    (run : Run (turns limits) s es t) : t.WritesDelivered ↔ Run (guard (turns limits) Reaches) s es t :=
  writesDelivered_iff_run initial.numbered.1 initial.numbered.2 run

/-- Input to a session that runs. -/
theorem writesDelivered_iff_running : ∃ s es t, s.Initial ∧ Run (turns ⟨none, .empty, 1⟩) s es t ∧
    (0, .started "a") ∈ t.answers ∧ (1, .written "a" "ls") ∈ t.answers ∧
    (t.WritesDelivered ↔ Run (guard (turns ⟨none, .empty, 1⟩) Reaches) s es t) := by
  let launched : PtySystem := { sessions := .empty, saved := .empty, issued := [] }
  have initial : launched.Initial := ⟨.empty, .empty, [], by simp, by simp, rfl⟩
  have run : Run (turns ⟨none, .empty, 1⟩) launched
      [.start ⟨"a", "web", none, 80, 24, false⟩, .resume 0 {} ⟨0, none⟩ true, .resume 0 {} ⟨0, none⟩ true,
        .write "a" "ls" true, .resume 1 {} ⟨0, none⟩ true] _ :=
    .step rfl (.step rfl (.step rfl (.step rfl (.step rfl (.refl _)))))
  exact ⟨launched, _, _, initial, run, by decide, by decide, writesDelivered_iff initial run⟩

/-- A write to a session that was closed is answered, and goes nowhere. -/
theorem closed_session_written : ∃ limits s es t, s.Initial ∧ Run (turns limits) s es t ∧ ¬ t.WritesDelivered := by
  let launched : PtySystem := { sessions := .empty, saved := .empty, issued := [] }
  have initial : launched.Initial := ⟨.empty, .empty, [], by simp, by simp, rfl⟩
  have run : Run (turns ⟨none, .empty, 1⟩) launched
      [.start ⟨"a", "web", none, 80, 24, false⟩, .resume 0 {} ⟨0, none⟩ true, .resume 0 {} ⟨0, none⟩ true,
        .close "a" true, .write "a" "ls" true] _ :=
    .step rfl (.step rfl (.step rfl (.step rfl (.step rfl (.refl _)))))
  refine ⟨⟨none, .empty, 1⟩, launched, _, _, initial, run, fun all => ?_⟩
  obtain ⟨d, member, -⟩ := all 2 "a" "ls" (by decide)
  cases member

end PtySystem

end McpSsh
