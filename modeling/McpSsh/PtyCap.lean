import McpSsh.PtyHandles

/-!
# The session cap

`start_pty` counts the running sessions of a server before its first await and records
its own after the last. The count stays within the limit in every run in which a start
that passes the check still finds room for the starts that are already under way.
-/

set_option autoImplicit false

namespace McpSsh

open Base

namespace PtySystem

/-- The starts on a server that are at an await. -/
def inFlight (s : PtySystem) (server : String) : Nat :=
  s.calls.count fun call => call.start?.any fun start => start.server = server

/-- The running sessions of a server, and those that are being started. -/
def load (s : PtySystem) (server : String) : Nat := s.active server + s.inFlight server

/-- A start on the server that passes the check has room beside the starts under way. -/
def Roomy (limits : SessionLimits) (server : String) (s : PtySystem) (e : PtyEvent) : Prop :=
  ∀ start, e = .start start → start.server = server → (s.active server : Int) < limits.limit server →
    (s.load server : Int) < limits.limit server

variable {s t : PtySystem} {server : String}

/-! ## The load under each part of an operation -/

theorem load_finish_le (k : Nat) (answer : PtyAnswer) : (s.finish k answer).load server ≤ s.load server := by
  have fewer := s.calls.count_erase (fun call => call.start?.any fun start => start.server = server) k
  simp only [load, active, inFlight, finish]
  omega

/-- A call that belongs to the start it belonged to before. -/
theorem load_await {k : Nat} {call : PtyCall} {start : PtyStart} (starting : s.starting k = some start)
    (begun : call.start? = some start) : (s.await k call).load server = s.load server := by
  have count := s.calls.count_insert (fun call => call.start?.any fun start => start.server = server) k call
  obtain ⟨old, found, was⟩ := Option.bind_eq_some_iff.mp starting
  rw [found, Option.any_some, was, begun] at count
  simp only [load, active, inFlight, await]
  omega

theorem load_await_other {k : Nat} {call : PtyCall} (other : call.start? = none) :
    (s.await k call).load server ≤ s.load server := by
  have count := s.calls.count_insert (fun call => call.start?.any fun start => start.server = server) k call
  simp only [other, Option.any_none, Bool.false_eq_true, if_false] at count
  simp only [load, active, inFlight, await]
  omega

theorem load_effect (k : Nat) (ran : Bool) (call : PtyCall) : (s.effect k ran call).load server = s.load server := by
  obtain ⟨calls, sessions, -⟩ := @effect_spec s k ran call
  rw [load, active, inFlight, calls, sessions, load, active, inFlight]

/-- The end of a start turns a start under way into a running session. -/
theorem load_register {k : Nat} {start : PtyStart} (starting : s.starting k = some start) (now : Timestamp)
    (works : Bool) (fresh : s.sessions.get? start.id = none) :
    (s.register k start now works).load server = s.load server := by
  obtain ⟨sessions, -, -, calls, -⟩ := @register_spec s k start now works
  obtain ⟨call, found, begun⟩ := Option.bind_eq_some_iff.mp starting
  have more := s.sessions.count_insert (fun r => r.server = server && r.status = .running) start.id (start.record now)
  have fewer := s.calls.count_erase (fun call => call.start?.any fun start => start.server = server) k
  rw [fresh] at more
  rw [found, Option.any_some, begun] at fewer
  simp only [load, active, inFlight, sessions, calls]
  by_cases same : start.server = server <;> simp [PtyStart.record, same] at more fewer ⊢ <;> omega

theorem load_close_le (matched : s.Matched) (id : String) (works : Bool) :
    (s.ptyClose id works).load server ≤ s.load server := by
  cases found : s.sessions.get? id with
  | none =>
    rw [ptyClose, found]
    exact load_finish_le _ _
  | some session =>
    obtain ⟨sessions, -, -, calls, -⟩ := close_spec found (matched.keyed id session found).1 works
    have count := s.sessions.count_insert (fun r => r.server = server && r.status = .running) id
      { session with status := .exited }
    have fewer := s.calls.count_erase (fun call => call.start?.any fun start => start.server = server) s.next
    simp only [reduceCtorEq, decide_false, Bool.and_false, Bool.false_eq_true, if_false] at count
    simp only [load, active, inFlight, sessions, calls]
    omega

theorem load_restart : s.restart.load server = 0 := by
  have none_ : s.restart.active server = 0 := by
    apply Dict.count_eq_zero
    intro e member
    obtain ⟨old, -, rfl⟩ := List.mem_map.mp member
    simp
  rw [load, none_]
  rfl

theorem load_startPty_le (limits : SessionLimits) (start : PtyStart) :
    (s.startPty limits start).load server ≤ s.load server ∨
      start.server = server ∧ (s.active server : Int) < limits.limit server ∧
        (s.startPty limits start).load server ≤ s.load server + 1 := by
  unfold startPty
  split
  · exact .inl (load_finish_le _ _)
  rename_i room
  have count := s.calls.count_insert (fun call => call.start?.any fun start => start.server = server) s.next
    (.connect start)
  simp only [load, active, inFlight, await, PtySystem.enter, PtyCall.start?, Option.any_some] at count room ⊢
  by_cases same : start.server = server
  · subst same
    simp only [decide_true, if_true] at count
    exact .inr ⟨rfl, by omega, by omega⟩
  · simp only [same, decide_false, Bool.false_eq_true, if_false] at count
    exact .inl (by omega)

/-! ## The load under a turn -/

theorem load_proceed_le (matched : s.Matched) {k : Nat} {call : PtyCall} (stdout : List Char) (now : Timestamp)
    (works : Bool) (calling : ∀ start, call.start? = some start → s.starting k = some start) :
    (s.proceed k stdout now works call).load server ≤ s.load server := by
  cases call with
  | connect start => exact (load_await (calling start rfl) (by split <;> rfl)).le
  | create start =>
    exact (load_register (calling start rfl) now works (matched.starting k start (calling start rfl)).2).le
  | whichTmux start =>
    rw [proceed]
    split
    · exact load_finish_le _ _
    · exact (load_await (calling start rfl) rfl).le
  | newSession start => exact (load_await (calling start rfl) rfl).le
  | pipePane start =>
    exact (load_register (calling start rfl) now works (matched.starting k start (calling start rfl)).2).le
  | capturePane server window id maxBytes => exact load_await_other rfl
  | hasSession server window id maxBytes captured => exact load_finish_le _ _
  | stdinDrain session id data => exact load_finish_le _ _
  | sendKeys server window session id data => exact load_finish_le _ _
  | resizeWindow server window session id cols rows => exact load_finish_le _ _

theorem load_resume_le (matched : s.Matched) {k : Nat} {reply : PtyReply} {now : Timestamp} {works : Bool}
    (resumed : s.resume k reply now works = some t) : t.load server ≤ s.load server := by
  obtain ⟨call, found, rfl⟩ := Option.map_eq_some_iff.mp resumed
  have same := @load_effect s server k reply.ran call
  dsimp only
  rw [← same]
  split
  · exact load_finish_le _ _
  · apply load_proceed_le (matched.effect k reply.ran call)
    intro start is
    rw [starting_effect, starting, found, Option.bind_some, is]

theorem load_read_le (id : String) (maxBytes : Int) : (s.ptyRead id maxBytes).load server ≤ s.load server := by
  unfold ptyRead
  split
  · exact load_finish_le _ _
  split
  · split
    · exact load_finish_le _ _
    · exact load_await_other rfl
  · split <;> exact load_finish_le _ _

theorem load_write_le (id data : String) (works : Bool) : (s.ptyWrite id data works).load server ≤ s.load server := by
  unfold ptyWrite
  split
  · exact load_finish_le _ _
  split
  · split
    · exact load_finish_le _ _
    · exact load_await_other rfl
  · split
    · exact load_finish_le _ _
    split
    · exact load_await_other rfl
    · exact load_finish_le _ _

theorem load_resize_le (id : String) (cols rows : Int) (works : Bool) :
    (s.ptyResize id cols rows works).load server ≤ s.load server := by
  unfold ptyResize
  split
  · exact load_finish_le _ _
  split
  · split
    · exact load_finish_le _ _
    · exact load_await_other rfl
  · split <;> exact load_finish_le _ _

theorem load_drained {id : String} {chunk : List Char} (read : s.drained id chunk = some t) :
    t.load server = s.load server := by
  unfold drained at read
  split at read
  · split at read <;> obtain ⟨⟩ := read <;> rfl
  · cases read

/-- **Only a start that passes the check adds to the load**, and by one. -/
theorem load_step_le (matched : s.Matched) {limits : SessionLimits} {e : PtyEvent}
    (stepped : s.step limits e = some t) : t.load server ≤ s.load server ∨
      ∃ start, e = .start start ∧ start.server = server ∧ (s.active server : Int) < limits.limit server ∧
        t.load server ≤ s.load server + 1 := by
  cases e with
  | start start =>
    obtain ⟨-, ⟨⟩⟩ := Option.ite_none_left_eq_some.mp stepped
    obtain less | ⟨same, passes, more⟩ := load_startPty_le limits start
    · exact .inl less
    · exact .inr ⟨start, rfl, same, passes, more⟩
  | read id maxBytes =>
    obtain ⟨⟩ := stepped
    exact .inl (load_read_le id maxBytes)
  | write id data works =>
    obtain ⟨⟩ := stepped
    exact .inl (load_write_le id data works)
  | resize id cols rows works =>
    obtain ⟨⟩ := stepped
    exact .inl (load_resize_le id cols rows works)
  | close id works =>
    obtain ⟨⟩ := stepped
    exact .inl (load_close_le matched id works)
  | resume k reply now works => exact .inl (load_resume_le matched stepped)
  | drained id chunk =>
    exact .inl (load_drained stepped).le
  | drainFails id =>
    obtain ⟨task, found, rfl⟩ := Option.map_eq_some_iff.mp stepped
    exact .inl (Nat.le_refl _)
  | exits id =>
    obtain ⟨proc, found, rfl⟩ := Option.map_eq_some_iff.mp stepped
    exact .inl (Nat.le_refl _)
  | windowGone server window =>
    obtain ⟨⟩ := stepped
    exact .inl (Nat.le_refl _)
  | restart =>
    obtain ⟨⟩ := stepped
    exact .inl (by rw [load_restart]; exact Nat.zero_le _)

/-! ## Along a run -/

/-- The load of the server is within its limit. -/
def WithinCap (limits : SessionLimits) (server : String) (s : PtySystem) : Prop :=
  s.Matched ∧ (s.load server : Int) ≤ limits.limit server

theorem WithinCap.step {limits : SessionLimits} {e : PtyEvent} (within : s.WithinCap limits server)
    (stepped : guard (turns limits) (Roomy limits server) s e t) : t.WithinCap limits server := by
  obtain ⟨matched, fits⟩ := within
  obtain ⟨turn, roomy⟩ := stepped
  refine ⟨matched.step turn, ?_⟩
  obtain less | ⟨start, rfl, same, passes, more⟩ := @load_step_le s t server matched limits e turn
  · omega
  · have room := roomy start rfl same passes
    omega

theorem Initial.load (initial : s.Initial) : s.load server = 0 := by
  obtain ⟨saved, windows, issued, -, -, rfl⟩ := initial
  exact load_restart

/-- **The running sessions of a server stay within its limit**, if the limit is not
negative, in every run whose starts leave room for those under way. -/
theorem active_le_limit {limits : SessionLimits} (possible : 0 ≤ limits.limit server) {es : List PtyEvent}
    (initial : s.Initial) (run : Run (guard (turns limits) (Roomy limits server)) s es t) :
    (t.active server : Int) ≤ limits.limit server := by
  have start : s.WithinCap limits server := ⟨initial.matched, by rw [initial.load]; exact possible⟩
  obtain ⟨-, fits⟩ := run.preserves (fun _ _ _ within stepped => within.step stepped) start
  have part : t.active server ≤ t.load server := Nat.le_add_right _ _
  omega

/-- Two sessions, one after the other, on a server with room for two. -/
theorem active_le_limit_pair : ∃ s es t, s.Initial ∧
    Run (guard (turns ⟨none, .empty, 2⟩) (Roomy ⟨none, .empty, 2⟩ "web")) s es t ∧ t.active "web" = 2 ∧
    (t.active "web" : Int) ≤ SessionLimits.limit ⟨none, .empty, 2⟩ "web" := by
  let launched : PtySystem := { sessions := .empty, saved := .empty, issued := [] }
  have initial : launched.Initial := ⟨.empty, .empty, [], by simp, by simp, rfl⟩
  have run : Run (guard (turns ⟨none, .empty, 2⟩) (Roomy ⟨none, .empty, 2⟩ "web")) launched
      [.start ⟨"a", "web", none, 80, 24, false⟩, .resume 0 {} ⟨0, none⟩ true, .resume 0 {} ⟨0, none⟩ true,
        .start ⟨"b", "web", none, 80, 24, false⟩, .resume 1 {} ⟨0, none⟩ true, .resume 1 {} ⟨0, none⟩ true] _ :=
    .step ⟨rfl, fun _ _ _ room => room⟩ (.step ⟨rfl, by rintro _ ⟨⟩⟩ (.step ⟨rfl, by rintro _ ⟨⟩⟩
      (.step ⟨rfl, by rintro _ ⟨⟩ _ room; exact room⟩ (.step ⟨rfl, by rintro _ ⟨⟩⟩ (.step ⟨rfl, by rintro _ ⟨⟩⟩
        (.refl _))))))
  exact ⟨launched, _, _, initial, run, rfl, active_le_limit (by decide) initial run⟩

/-- Two starts pass the check of a limit of one before either is recorded. -/
theorem overlapping_starts_exceed : ∃ limits server s es t, 0 ≤ limits.limit server ∧ s.Initial ∧
    Run (turns limits) s es t ∧ limits.limit server < (t.active server : Int) := by
  let launched : PtySystem := { sessions := .empty, saved := .empty, issued := [] }
  have initial : launched.Initial := ⟨.empty, .empty, [], by simp, by simp, rfl⟩
  have run : Run (turns ⟨none, .empty, 1⟩) launched
      [.start ⟨"a", "web", none, 80, 24, false⟩, .start ⟨"b", "web", none, 80, 24, false⟩,
        .resume 0 {} ⟨0, none⟩ true, .resume 1 {} ⟨0, none⟩ true, .resume 0 {} ⟨0, none⟩ true,
        .resume 1 {} ⟨0, none⟩ true] _ :=
    .step rfl (.step rfl (.step rfl (.step rfl (.step rfl (.step rfl (.refl _))))))
  refine ⟨⟨none, .empty, 1⟩, "web", launched, _, _, by decide, initial, run, ?_⟩
  show (1 : Int) < (2 : Nat)
  decide

/-! ## Starts without room -/

/-- How many awaits a call of a start has left at most. -/
def awaitsLeft : PtyCall → Nat
  | .connect _ => 4
  | .whichTmux _ => 3
  | .newSession _ => 2
  | _ => 1

/-- A start at its last await succeeds. -/
theorem run_register {limits : SessionLimits} {k : Nat} {call : PtyCall} {start : PtyStart} (matched : s.Matched)
    (found : s.calls.get? k = some call) (begun : call.start? = some start)
    (last : ∀ (u : PtySystem) stdout now works, u.proceed k stdout now works call = u.register k start now works) :
    ∃ es t, Run (turns limits) s es t ∧ t.Matched ∧ t.load start.server = s.load start.server ∧
      t.active start.server = s.active start.server + 1 := by
  have starting : (s.effect k true call).starting k = some start := by
    rw [starting_effect, PtySystem.starting, found, Option.bind_some, begun]
  have after := matched.effect k true call
  have fresh := (after.starting k start starting).2
  have turn : s.resume k {} ⟨0, none⟩ true = some ((s.effect k true call).register k start ⟨0, none⟩ true) := by
    rw [resume, found]
    exact congrArg some (last _ _ _ _)
  refine ⟨[.resume k {} ⟨0, none⟩ true], _, .step turn (.refl _), after.register starting _ _, ?_, ?_⟩
  · rw [load_register starting _ _ fresh, load_effect]
  · obtain ⟨sessions, -⟩ := @register_spec (s.effect k true call) k start ⟨0, none⟩ true
    have more := (s.effect k true call).sessions.count_insert
      (fun r => r.server = start.server && r.status = .running) start.id (start.record ⟨0, none⟩)
    rw [fresh] at more
    simp [PtyStart.record] at more
    rw [active, sessions, PtyStart.record, more, (effect_spec k true call).2.1, active]

/-- What an await of a start leaves that goes on to another. -/
theorem await_spec {k : Nat} {call next : PtyCall} {start : PtyStart} (matched : s.Matched)
    (found : s.calls.get? k = some call) (begun : call.start? = some start) (goes : next.start? = some start) :
    let u := (s.effect k true call).await k next
    u.Matched ∧ u.calls.get? k = some next ∧ u.load server = s.load server ∧ u.active server = s.active server := by
  have starting : (s.effect k true call).starting k = some start := by
    rw [starting_effect, PtySystem.starting, found, Option.bind_some, begun]
  refine ⟨?_, Dict.get?_insert_self, ?_, ?_⟩
  · apply (matched.effect k true call).await
    intro other is
    rw [starting, ← goes, is]
  · rw [load_await starting goes, load_effect]
  · rw [active, await, (effect_spec k true call).2.1, active]

/-- Every start under way may still succeed. -/
theorem run_start {limits : SessionLimits} {k : Nat} {call : PtyCall} {start : PtyStart} (matched : s.Matched)
    (found : s.calls.get? k = some call) (begun : call.start? = some start) :
    ∃ es t, Run (turns limits) s es t ∧ t.Matched ∧ t.load start.server = s.load start.server ∧
      t.active start.server = s.active start.server + 1 := by
  induction left : awaitsLeft call using Nat.strong_induction_on generalizing s call with
  | _ n ih =>
    have onward : ∀ (next : PtyCall) (stdout : List Char), next.start? = some start →
        awaitsLeft next < awaitsLeft call →
        (∀ u : PtySystem, u.proceed k stdout ⟨0, none⟩ true call = u.await k next) →
        ∃ es t, Run (turns limits) s es t ∧ t.Matched ∧ t.load start.server = s.load start.server ∧
          t.active start.server = s.active start.server + 1 := by
      intro next stdout goes fewer proceeds
      obtain ⟨after, calling, load, active⟩ := @await_spec s start.server k call next start matched found begun goes
      obtain ⟨es, t, run, still, same, more⟩ := ih _ (left ▸ fewer) after calling goes rfl
      have turn : s.resume k { stdout := stdout } ⟨0, none⟩ true = some ((s.effect k true call).await k next) := by
        rw [resume, found]
        exact congrArg some (proceeds _)
      exact ⟨.resume k { stdout := stdout } ⟨0, none⟩ true :: es, t, .step turn run, still, same.trans load, by omega⟩
    cases call with
    | connect start' =>
      obtain ⟨⟩ := begun
      cases kind : start.useTmux with
      | true => exact onward (.whichTmux start) [] rfl (by simp [awaitsLeft]) fun _ => by simp [proceed, kind]
      | false => exact onward (.create start) [] rfl (by simp [awaitsLeft]) fun _ => by simp [proceed, kind]
    | create start' =>
      obtain ⟨⟩ := begun
      exact run_register matched found rfl fun _ _ _ _ => rfl
    | whichTmux start' =>
      obtain ⟨⟩ := begun
      exact onward (.newSession start) ['t'] rfl (by simp [awaitsLeft]) fun _ => by
        rw [proceed, if_neg (by decide)]
    | newSession start' =>
      obtain ⟨⟩ := begun
      exact onward (.pipePane start) [] rfl (by simp [awaitsLeft]) fun _ => rfl
    | pipePane start' =>
      obtain ⟨⟩ := begun
      exact run_register matched found rfl fun _ _ _ _ => rfl
    | _ => cases begun

/-- **All starts under way may still succeed together**: the running sessions of a server
can then be as many as its load. -/
theorem run_load {limits : SessionLimits} (matched : s.Matched) (server : String) :
    ∃ es t, Run (turns limits) s es t ∧ t.active server = s.load server := by
  induction count : s.inFlight server generalizing s with
  | zero => exact ⟨[], s, .refl s, by rw [load, count, Nat.add_zero]⟩
  | succ n ih =>
    obtain ⟨e, member, counted⟩ := List.countP_pos_iff.mp (show 0 < s.inFlight server by omega)
    obtain ⟨start, begun, same⟩ := Option.any_eq_true _ _ |>.mp counted
    obtain rfl := of_decide_eq_true same
    obtain ⟨es, t, run, after, load, more⟩ := @run_start s limits _ _ _ matched (Dict.get?_of_mem member) begun
    have fewer : t.inFlight start.server = n := by
      unfold PtySystem.load at load
      omega
    obtain ⟨fs, u, rest, all⟩ := ih after fewer
    exact ⟨es ++ fs, u, run.append rest, all.trans load⟩

end PtySystem

end McpSsh
