import McpSsh.Pty

/-!
# Session records and handles

At every await, a session is running in the state store exactly if the session manager
holds handles for it: a process, a buffer and a drain task, or a log, a window name and
a connection. Starts and closes change both in one turn, and a restart loses both.
-/

set_option autoImplicit false

namespace McpSsh

open Base

/-- Which of the six dictionaries hold an id. -/
structure Handles where
  proc : Bool
  buffer : Bool
  drain : Bool
  log : Bool
  name : Bool
  conn : Bool
deriving DecidableEq

namespace Handles

def none : Handles := ⟨false, false, false, false, false, false⟩

/-- The handles of a session without tmux. -/
def process : Handles := ⟨true, true, true, false, false, false⟩

def tmux : Handles := ⟨false, false, false, true, true, true⟩

end Handles

/-- The handles that go with a record. -/
def SessionRecord.handles (r : SessionRecord) : Handles :=
  if r.status = .running then if r.useTmux then .tmux else .process else .none

/-- The start that a call belongs to. -/
def PtyCall.start? : PtyCall → Option PtyStart
  | connect start => some start
  | create start => some start
  | whichTmux start => some start
  | newSession start => some start
  | pipePane start => some start
  | _ => none

namespace PtySystem

/-- The handles of a session id. -/
def handles (s : PtySystem) (id : String) : Handles where
  proc := (s.procs.get? id).isSome
  buffer := (s.buffers.get? id).isSome
  drain := (s.drains.get? id).isSome
  log := (s.tmuxLogs.get? id).isSome
  name := (s.tmuxSessions.get? id).isSome
  conn := (s.tmuxConns.get? id).isSome

/-- The start that is suspended in a call. -/
def starting (s : PtySystem) (k : Nat) : Option PtyStart := (s.calls.get? k).bind PtyCall.start?

/-- The store's records are under their ids, and have the handles that go with them. A
start in progress has an id of its own that has no record yet. -/
structure Matched (s : PtySystem) : Prop where
  keyed : ∀ id r, s.sessions.get? id = some r → r.id = id ∧ id ∈ s.issued
  saved : ∀ id r, s.saved.get? id = some r → r.id = id ∧ id ∈ s.issued
  handles : ∀ id, s.handles id = ((s.sessions.get? id).map SessionRecord.handles).getD .none
  starting : ∀ k start, s.starting k = some start → start.id ∈ s.issued ∧ s.sessions.get? start.id = none
  distinct : ∀ k j a b, s.starting k = some a → s.starting j = some b → a.id = b.id → k = j

variable {s t : PtySystem}

/-! ## What keeps records and handles -/

/-- Other fields may change, and starts may end. -/
theorem Matched.frame (matched : s.Matched) (sessions : t.sessions = s.sessions) (saved : t.saved = s.saved)
    (issued : t.issued = s.issued) (handles : ∀ id, t.handles id = s.handles id)
    (starting : ∀ k start, t.starting k = some start → s.starting k = some start) : t.Matched where
  keyed := by
    rw [sessions, issued]
    exact matched.keyed
  saved := by
    rw [saved, issued]
    exact matched.saved
  handles id := by rw [handles, sessions, matched.handles]
  starting k start found := by
    rw [sessions, issued]
    exact matched.starting k start (starting k start found)
  distinct k j a b first second := matched.distinct k j a b (starting k a first) (starting j b second)

theorem Matched.enter (matched : s.Matched) : s.enter.Matched :=
  matched.frame rfl rfl rfl (fun _ => rfl) fun _ _ found => found

theorem Matched.log (matched : s.Matched) (event : PtyAudit) : (s.log event).Matched :=
  matched.frame rfl rfl rfl (fun _ => rfl) fun _ _ found => found

theorem Matched.deliver (matched : s.Matched) (delivery : Delivery) : (s.deliver delivery).Matched :=
  matched.frame rfl rfl rfl (fun _ => rfl) fun _ _ found => found

theorem Matched.finish (matched : s.Matched) (k : Nat) (answer : PtyAnswer) : (s.finish k answer).Matched := by
  refine matched.frame rfl rfl rfl (fun _ => rfl) fun j start found => ?_
  rw [PtySystem.starting, PtySystem.finish, Dict.get?_erase] at found
  split at found
  · cases found
  · exact found

/-- A call that belongs to no start, or to the one it belonged to before. -/
theorem Matched.await (matched : s.Matched) {k : Nat} {call : PtyCall}
    (same : ∀ start, call.start? = some start → s.starting k = some start) : (s.await k call).Matched := by
  refine matched.frame rfl rfl rfl (fun _ => rfl) fun j start found => ?_
  rw [PtySystem.starting, PtySystem.await, Dict.get?_insert] at found
  split at found
  · rename_i here
    subst here
    exact same start found
  · exact found

theorem Matched.finishWrite (matched : s.Matched) (k : Nat) (session : SessionRecord) (id data : String) :
    (s.finishWrite k session id data).Matched := (matched.log _).finish _ _

theorem Matched.finishResize (matched : s.Matched) (k : Nat) (session : SessionRecord) (id : String)
    (cols rows : Int) : (s.finishResize k session id cols rows).Matched := (matched.log _).finish _ _

theorem Matched.effect (matched : s.Matched) (k : Nat) (ran : Bool) (call : PtyCall) :
    (s.effect k ran call).Matched := by
  unfold PtySystem.effect
  split
  · split
    · exact matched
    · exact matched.frame rfl rfl rfl (fun _ => rfl) fun _ _ found => found
  · split
    · split
      · exact matched.deliver _
      · exact matched
    · exact matched
  · exact matched

/-- A remote command changes windows and deliveries only. -/
theorem effect_spec (k : Nat) (ran : Bool) (call : PtyCall) : (s.effect k ran call).calls = s.calls ∧
    (s.effect k ran call).sessions = s.sessions ∧ (s.effect k ran call).next = s.next ∧
    (s.effect k ran call).procs = s.procs ∧ (s.effect k ran call).answers = s.answers := by
  unfold effect
  split
  · split <;> exact ⟨rfl, rfl, rfl, rfl, rfl⟩
  · split
    · split <;> exact ⟨rfl, rfl, rfl, rfl, rfl⟩
    · exact ⟨rfl, rfl, rfl, rfl, rfl⟩
  · exact ⟨rfl, rfl, rfl, rfl, rfl⟩

theorem starting_effect (k j : Nat) (ran : Bool) (call : PtyCall) :
    (s.effect k ran call).starting j = s.starting j := by
  rw [starting, (effect_spec k ran call).1, starting]

/-! ## What changes them -/

theorem handles_openHandles (start : PtyStart) (fresh : s.handles start.id = .none) (id : String) :
    (s.openHandles start).handles id =
      if id = start.id then if start.useTmux then .tmux else .process else s.handles id := by
  by_cases same : id = start.id
  · subst same
    simp only [handles, Handles.none, Handles.mk.injEq] at fresh
    cases kind : start.useTmux <;>
      simp [openHandles, kind, handles, Handles.tmux, Handles.process, fresh]
  · cases kind : start.useTmux <;> simp [openHandles, kind, handles, Dict.get?_insert, same]

theorem handles_dropHandles {session : SessionRecord} {id : String} (has : s.handles id = session.handles)
    (j : String) : (s.dropHandles session id).handles j = if j = id then .none else s.handles j := by
  by_cases same : j = id
  · subst same
    unfold SessionRecord.handles at has
    cases kind : session.useTmux <;> by_cases status : session.status = .running <;>
      simp [kind, status, handles, Handles.tmux, Handles.process, Handles.none] at has <;>
      simp [dropHandles, kind, handles, Dict.get?_erase, Handles.none, has]
  · cases kind : session.useTmux <;> simp [dropHandles, kind, handles, Dict.get?_erase, same]

/-- What the end of a start does to the store, the handles and the calls. -/
theorem register_spec (k : Nat) (start : PtyStart) (now : Timestamp) (works : Bool) :
    (s.register k start now works).sessions = s.sessions.insert start.id (start.record now) ∧
    ((s.register k start now works).saved = s.saved ∨
      (s.register k start now works).saved = s.sessions.insert start.id (start.record now)) ∧
    (s.register k start now works).issued = s.issued ∧
    (s.register k start now works).calls = s.calls.erase k ∧
    ∀ id, (s.register k start now works).handles id = (s.openHandles start).handles id := by
  cases works <;> cases kind : start.useTmux <;>
    simp [register, openHandles, kind, upsertSession, finish, PtySystem.log, handles, PtyStart.record]

theorem starting_erase {k j : Nat} {start : PtyStart} (found : ((s.calls.erase k).get? j).bind PtyCall.start? = some start) :
    j ≠ k ∧ s.starting j = some start := by
  rw [Dict.get?_erase] at found
  split at found
  · cases found
  · exact ⟨‹_›, found⟩

/-- A record comes under its id, with the handles that go with it, and a call ends. No other
start has that id. -/
theorem Matched.upsert (matched : s.Matched) {id : String} {record : SessionRecord} {k : Nat} (named : record.id = id)
    (drawn : id ∈ s.issued) (sessions : t.sessions = s.sessions.insert id record)
    (saved : t.saved = s.saved ∨ t.saved = s.sessions.insert id record) (issued : t.issued = s.issued)
    (calls : t.calls = s.calls.erase k) (handles : ∀ j, t.handles j = if j = id then record.handles else s.handles j)
    (others : ∀ j other, j ≠ k → s.starting j = some other → other.id ≠ id) : t.Matched := by
  have keyed : ∀ j r, (s.sessions.insert id record).get? j = some r → r.id = j ∧ j ∈ s.issued := by
    intro j r found
    rw [Dict.get?_insert] at found
    split at found
    · rename_i here
      cases found
      exact ⟨named.trans here.symm, here ▸ drawn⟩
    · exact matched.keyed j r found
  constructor
  · rwa [sessions, issued]
  · rw [issued]
    rcases saved with old | new
    · rw [old]
      exact matched.saved
    · rwa [new]
  · intro j
    rw [handles, sessions, Dict.get?_insert]
    split
    · rfl
    · exact matched.handles j
  · intro j other found
    rw [PtySystem.starting, calls] at found
    obtain ⟨different, found⟩ := starting_erase found
    obtain ⟨issued', absent⟩ := matched.starting j other found
    rw [sessions, issued, Dict.get?_insert, if_neg (others j other different found)]
    exact ⟨issued', absent⟩
  · intro i j a b first second same
    rw [PtySystem.starting, calls] at first second
    exact matched.distinct i j a b (starting_erase first).2 (starting_erase second).2 same

theorem Matched.register (matched : s.Matched) {k : Nat} {start : PtyStart} (starting : s.starting k = some start)
    (now : Timestamp) (works : Bool) : (s.register k start now works).Matched := by
  obtain ⟨sessions, saved, issued, calls, opened⟩ := @register_spec s k start now works
  obtain ⟨drawn, unrecorded⟩ := matched.starting k start starting
  have none_ : s.handles start.id = .none := by rw [matched.handles, unrecorded]; rfl
  have named : (start.record now).id = start.id := rfl
  apply matched.upsert named drawn sessions saved issued calls
  · intro j
    rw [opened, handles_openHandles start none_]
    rfl
  · exact fun j other different found same => different (matched.distinct j k other start found starting same)

/-- What a close does to the store, the handles and the calls. -/
theorem close_spec {id : String} {session : SessionRecord} (found : s.sessions.get? id = some session)
    (keyed : session.id = id) (works : Bool) :
    (s.ptyClose id works).sessions = s.sessions.insert id { session with status := .exited } ∧
    ((s.ptyClose id works).saved = s.saved ∨
      (s.ptyClose id works).saved = s.sessions.insert id { session with status := .exited }) ∧
    (s.ptyClose id works).issued = s.issued ∧
    (s.ptyClose id works).calls = s.calls.erase s.next ∧
    ∀ j, (s.ptyClose id works).handles j = (s.dropHandles session id).handles j := by
  subst keyed
  rw [ptyClose, found]
  cases works <;> cases kind : session.useTmux <;>
    simp [dropHandles, kind, upsertSession, finish, PtySystem.log, handles, PtySystem.enter]

theorem Matched.close (matched : s.Matched) (id : String) (works : Bool) : (s.ptyClose id works).Matched := by
  cases found : s.sessions.get? id with
  | none =>
    rw [ptyClose, found]
    exact matched.enter.finish _ _
  | some session =>
    obtain ⟨keyed, drawn⟩ := matched.keyed id session found
    obtain ⟨sessions, saved, issued, calls, dropped⟩ := close_spec found keyed works
    have has : s.handles id = session.handles := by rw [matched.handles, found]; rfl
    have named : SessionRecord.id { session with status := .exited } = id := keyed
    apply matched.upsert named drawn sessions saved issued calls
    · intro j
      rw [dropped, handles_dropHandles has]
      rfl
    · rintro j other - begun rfl
      have absent := (matched.starting j other begun).2
      rw [found] at absent
      cases absent

theorem Matched.startPty (matched : s.Matched) (limits : SessionLimits) {start : PtyStart}
    (fresh : start.id ∉ s.issued) : (s.startPty limits start).Matched := by
  unfold PtySystem.startPty
  split
  · exact matched.enter.finish _ _
  have absent : s.sessions.get? start.id = none := by
    cases found : s.sessions.get? start.id with
    | none => rfl
    | some r => exact absurd (matched.keyed _ r found).2 fresh
  have cases_ : ∀ j a, PtySystem.starting (PtySystem.await { s.enter with issued := start.id :: s.issued } s.next
      (.connect start)) j = some a → a = start ∧ j = s.next ∨ j ≠ s.next ∧ s.starting j = some a := by
    intro j a found
    rw [PtySystem.starting, PtySystem.await, Dict.get?_insert] at found
    split at found
    · cases found
      exact .inl ⟨rfl, ‹_›⟩
    · exact .inr ⟨‹_›, found⟩
  constructor
  · intro id r found
    obtain ⟨keyed, drawn⟩ := matched.keyed id r found
    exact ⟨keyed, List.mem_cons_of_mem _ drawn⟩
  · intro id r found
    obtain ⟨keyed, drawn⟩ := matched.saved id r found
    exact ⟨keyed, List.mem_cons_of_mem _ drawn⟩
  · exact matched.handles
  · intro j a found
    obtain ⟨rfl, -⟩ | ⟨-, found⟩ := cases_ j a found
    · exact ⟨List.mem_cons_self, absent⟩
    · obtain ⟨drawn, unrecorded⟩ := matched.starting j a found
      exact ⟨List.mem_cons_of_mem _ drawn, unrecorded⟩
  · intro i j a b first second same
    obtain ⟨rfl, rfl⟩ | ⟨-, earlier⟩ := cases_ i a first
    · obtain ⟨rfl, rfl⟩ | ⟨-, later⟩ := cases_ j b second
      · rfl
      · exact absurd (same ▸ (matched.starting j b later).1) fresh
    · obtain ⟨rfl, rfl⟩ | ⟨-, later⟩ := cases_ j b second
      · exact absurd (same ▸ (matched.starting i a earlier).1) fresh
      · exact matched.distinct i j a b earlier later same

theorem Matched.proceed (matched : s.Matched) {k : Nat} {call : PtyCall} (stdout : List Char) (now : Timestamp)
    (works : Bool) (calling : ∀ start, call.start? = some start → s.starting k = some start) :
    (s.proceed k stdout now works call).Matched := by
  cases call with
  | connect start =>
    apply matched.await
    rintro _ found
    apply calling
    split at found <;> exact found
  | create start => exact matched.register (calling start rfl) now works
  | whichTmux start =>
    rw [PtySystem.proceed]
    split
    · exact matched.finish _ _
    · exact matched.await calling
  | newSession start => exact matched.await calling
  | pipePane start => exact matched.register (calling start rfl) now works
  | capturePane server window id maxBytes => exact matched.await (by rintro _ ⟨⟩)
  | hasSession server window id maxBytes captured => exact matched.finish _ _
  | stdinDrain session id data => exact matched.finishWrite _ _ _ _
  | sendKeys server window session id data => exact matched.finishWrite _ _ _ _
  | resizeWindow server window session id cols rows => exact matched.finishResize _ _ _ _ _

theorem Matched.resume (matched : s.Matched) {k : Nat} {reply : PtyReply} {now : Timestamp} {works : Bool}
    (resumed : s.resume k reply now works = some t) : t.Matched := by
  obtain ⟨call, found, rfl⟩ := Option.map_eq_some_iff.mp resumed
  have after := matched.effect k reply.ran call
  dsimp only
  split
  · exact after.finish _ _
  · apply after.proceed
    intro start is
    rw [starting_effect, PtySystem.starting, found, Option.bind_some, is]

theorem Matched.restart (matched : s.Matched) : s.restart.Matched where
  keyed id r found := by
    rw [PtySystem.restart, Dict.get?_mapValues] at found
    obtain ⟨old, there, rfl⟩ := Option.map_eq_some_iff.mp found
    exact matched.saved id old there
  saved := matched.saved
  handles id := by
    have lost : ∀ r : SessionRecord, SessionRecord.handles { r with status := .unknown } = .none := fun _ => rfl
    rw [PtySystem.restart, Dict.get?_mapValues]
    cases s.saved.get? id with
    | none => rfl
    | some r => exact (lost r).symm
  starting k start found := by cases found
  distinct k j a b found := by cases found

/-- A buffer, a drain task or a process that is there may change. -/
theorem handles_insert_buffer {id : String} {buf rest : PtyBuffer} (found : s.buffers.get? id = some buf) (j : String) :
    handles { s with buffers := s.buffers.insert id rest } j = s.handles j := by
  by_cases same : j = id
  · simp [handles, same, found]
  · simp [handles, Dict.get?_insert, same]

theorem handles_insert_drain {id : String} {old new : DrainTask} (found : s.drains.get? id = some old) (j : String) :
    handles { s with drains := s.drains.insert id new } j = s.handles j := by
  by_cases same : j = id
  · simp [handles, same, found]
  · simp [handles, Dict.get?_insert, same]

theorem handles_insert_proc {id : String} {old new : PtyProcess} (found : s.procs.get? id = some old) (j : String) :
    handles { s with procs := s.procs.insert id new } j = s.handles j := by
  by_cases same : j = id
  · simp [handles, same, found]
  · simp [handles, Dict.get?_insert, same]

theorem Matched.read (matched : s.Matched) (id : String) (maxBytes : Int) : (s.ptyRead id maxBytes).Matched := by
  unfold ptyRead
  split
  · exact matched.enter.finish _ _
  split
  · split
    · exact matched.enter.finish _ _
    · exact matched.enter.await (by rintro _ ⟨⟩)
  · split
    · exact matched.enter.finish _ _
    · rename_i buf found
      apply Matched.finish
      exact matched.enter.frame rfl rfl rfl (handles_insert_buffer found) fun _ _ found => found

theorem Matched.write (matched : s.Matched) (id data : String) (works : Bool) : (s.ptyWrite id data works).Matched := by
  unfold ptyWrite
  split
  · exact matched.enter.finish _ _
  split
  · split
    · exact matched.enter.finishWrite _ _ _ _
    · exact matched.enter.await (by rintro _ ⟨⟩)
  · split
    · exact matched.enter.finishWrite _ _ _ _
    split
    · exact (matched.enter.deliver _).await (by rintro _ ⟨⟩)
    · exact matched.enter.finish _ _

theorem Matched.resize (matched : s.Matched) (id : String) (cols rows : Int) (works : Bool) :
    (s.ptyResize id cols rows works).Matched := by
  unfold ptyResize
  split
  · exact matched.enter.finish _ _
  split
  · split
    · exact matched.enter.finishResize _ _ _ _ _
    · exact matched.enter.await (by rintro _ ⟨⟩)
  · split
    · exact matched.enter.finish _ _
    · exact matched.enter.finishResize _ _ _ _ _

theorem Matched.drained (matched : s.Matched) {id : String} {chunk : List Char} (read : s.drained id chunk = some t) :
    t.Matched := by
  unfold PtySystem.drained at read
  split at read
  · rename_i buf reading found
    split at read <;> obtain ⟨⟩ := read
    · exact matched.frame rfl rfl rfl (handles_insert_drain reading) fun _ _ found => found
    · exact matched.frame rfl rfl rfl (handles_insert_buffer found) fun _ _ found => found
  · cases read

/-- **Every turn keeps records and handles together.** -/
theorem Matched.step (matched : s.Matched) {limits : SessionLimits} {e : PtyEvent}
    (stepped : s.step limits e = some t) : t.Matched := by
  cases e with
  | start start =>
    obtain ⟨fresh, ⟨⟩⟩ := Option.ite_none_left_eq_some.mp stepped
    exact matched.startPty limits fresh
  | read id maxBytes =>
    obtain ⟨⟩ := stepped
    exact matched.read id maxBytes
  | write id data works =>
    obtain ⟨⟩ := stepped
    exact matched.write id data works
  | resize id cols rows works =>
    obtain ⟨⟩ := stepped
    exact matched.resize id cols rows works
  | close id works =>
    obtain ⟨⟩ := stepped
    exact matched.close id works
  | resume k reply now works => exact matched.resume stepped
  | drained id chunk => exact matched.drained stepped
  | drainFails id =>
    obtain ⟨task, found, rfl⟩ := Option.map_eq_some_iff.mp stepped
    exact matched.frame rfl rfl rfl (handles_insert_drain found) fun _ _ found => found
  | exits id =>
    obtain ⟨proc, found, rfl⟩ := Option.map_eq_some_iff.mp stepped
    exact matched.frame rfl rfl rfl (handles_insert_proc found) fun _ _ found => found
  | windowGone server window =>
    obtain ⟨⟩ := stepped
    exact matched.frame rfl rfl rfl (fun _ => rfl) fun _ _ found => found
  | restart =>
    obtain ⟨⟩ := stepped
    exact matched.restart

theorem Initial.matched (initial : s.Initial) : s.Matched := by
  obtain ⟨saved, windows, issued, keyed, -, rfl⟩ := initial
  constructor
  · intro id r found
    rw [PtySystem.restart, Dict.get?_mapValues] at found
    obtain ⟨old, there, rfl⟩ := Option.map_eq_some_iff.mp found
    exact keyed id old there
  · exact keyed
  · intro id
    rw [PtySystem.restart, Dict.get?_mapValues]
    cases saved.get? id <;> rfl
  · intro k start found
    cases found
  · intro k j a b found
    cases found

/-! ## Every reachable state -/

/-- What the handles of a session id say about its record. -/
structure InStep (s : PtySystem) (id : String) : Prop where
  running : (∃ r, s.sessions.get? id = some r ∧ r.status = .running) ↔ s.handles id ≠ .none
  kind : ∀ r, s.sessions.get? id = some r → r.status = .running →
    s.handles id = if r.useTmux then .tmux else .process
  recorded : s.sessions.get? id = none → s.handles id = .none

theorem Matched.inStep (matched : s.Matched) (id : String) : s.InStep id := by
  have same := matched.handles id
  cases found : s.sessions.get? id with
  | none =>
    rw [found] at same
    exact ⟨by simp [found, same], by simp [found], fun _ => same⟩
  | some r =>
    simp only [found, Option.map_some, Option.getD_some, SessionRecord.handles] at same
    by_cases running : r.status = .running
    · rw [if_pos running] at same
      have some_ : s.handles id ≠ .none := by
        rw [same]
        cases r.useTmux <;> decide
      exact ⟨⟨fun _ => some_, fun _ => ⟨r, found, running⟩⟩, by simp [found, same], by simp [found]⟩
    · rw [if_neg running] at same
      exact ⟨by simp [found, same, running], by simp [found, running], by simp [found]⟩

/-- **A session is running in the store exactly if it has its handles in memory**, and
no other id has any. -/
theorem handles_inStep {limits : SessionLimits} (reached : Reachable (turns limits) Initial s) (id : String) :
    s.InStep id := by
  have matched := reached.invariant (fun _ => Initial.matched) fun _ _ _ matched stepped => matched.step stepped
  exact matched.inStep id

/-- A session that has been started. -/
theorem handles_inStep_started : ∃ s, Reachable (turns ⟨none, .empty, 1⟩) Initial s ∧ s.handles "a" = .process ∧
    s.InStep "a" := by
  let start : PtyStart := { id := "a", server := "web", command := none, cols := 80, rows := 24, useTmux := false }
  let launched : PtySystem := { sessions := .empty, saved := .empty, issued := [] }
  have initial : launched.Initial := ⟨.empty, .empty, [], by simp, by simp, rfl⟩
  have run : Run (turns ⟨none, .empty, 1⟩) launched
      [.start start, .resume 0 {} ⟨0, none⟩ true, .resume 0 {} ⟨0, none⟩ true] _ :=
    .step rfl (.step rfl (.step rfl (.refl _)))
  have reached : Reachable (turns ⟨none, .empty, 1⟩) Initial _ := ⟨_, _, initial, run⟩
  exact ⟨_, reached, rfl, handles_inStep reached "a"⟩

end PtySystem

end McpSsh
