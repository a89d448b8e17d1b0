import McpSsh.ProcessAgree

/-!
# Exit codes are true and final

Whatever calls are in progress, whatever signals are sent, and however often the MCP
server is restarted: an exit code that a check or a read reports, or that is in a record,
is the status with which the command has ended, and it is reported ever after.
-/

set_option autoImplicit false

namespace McpSsh

open Base

/-- A step while an MCP server runs, or the start of a new one. -/
inductive LifeEvent where
  | live (event : ProcessEvent)
  | restart

/-- What an answer tells about a process: the number of the call, and the exit code. -/
inductive ProcessAnswer.Tells : ProcessAnswer → Nat → String → Option Int → Prop where
  | checked (call next : Nat) (id : String) (out : ProcessOutput) : Tells (.checked call next id out) call id out.exitCode
  | read (call : Nat) (id : String) (out : ProcessOutput) : Tells (.read call id out) call id out.exitCode

theorem ExitFile.exitCode_eq_some {exit : ExitFile} {status : Int} : exit.exitCode = some status ↔ exit = .written status := by
  cases exit <;> simp [exitCode]

namespace ProcessSystem

/-- A new server reads the state file: no call is in progress, and no status is known. -/
def restart (s : ProcessSystem) : ProcessSystem :=
  { s with
    records := s.records.mapValues fun r => { r with status := .unknown }
    calls := Dict.empty }

def lifeStep (rt : ProcessRuntime) (s : ProcessSystem) : LifeEvent → Option ProcessSystem
  | .live event => step rt s event
  | .restart => some s.restart

/-- The processes through the lives of several servers. -/
def life (rt : ProcessRuntime) : System ProcessSystem LifeEvent := ofFunction fun s event => lifeStep rt s event

/-- The command of this process has ended with this status, which is in the exit file. -/
def Exited (s : ProcessSystem) (id : String) (status : Int) : Prop :=
  ∃ p, s.remote.get? id = some p ∧ p.ended = some status ∧ p.exit = .written status

structure ExitsFinal (rt : ProcessRuntime) (s : ProcessSystem) : Prop where
  /-- A reported exit code is that of the command. -/
  told : ∀ a ∈ s.answers, ∀ call id status, a.Tells call id (some status) → s.Exited id status
  stored : ∀ id r status, s.records.get? id = some r → r.exitCode = some status → s.Exited id status
  stays : ∀ id status, s.Exited id status → ∀ events t, Run (life rt) s events t → t.Exited id status
  /-- What is called after a check reported the exit code reports it too. -/
  later : ∀ call next id out status, .checked call next id out ∈ s.answers → out.exitCode = some status →
    ∀ a ∈ s.answers, ∀ call' code, a.Tells call' id code → next ≤ call' → code = some status

/-! ## What every step keeps -/

variable {rt : ProcessRuntime} {s t : ProcessSystem}

/-- The exit file of the process holds this status. -/
def Wrote (s : ProcessSystem) (id : String) (status : Int) : Prop := ∃ p, s.remote.get? id = some p ∧ p.exit = .written status

/-- The exit code of a record is in the exit file. -/
def Known (s : ProcessSystem) (record : ProcessRecord) : Prop :=
  ∀ status, record.exitCode = some status → s.Wrote record.id status

/-- What a call has read so far is in the exit file, and what a check reported before the call is there. -/
def Saw (s : ProcessSystem) (k : Nat) : ProcessCall → Prop
  | .readLog record _ _ exit => (∀ status, exit.exitCode = some status → s.Wrote record.id status) ∧
      ∀ call next out status, .checked call next record.id out ∈ s.answers → out.exitCode = some status → next ≤ k →
        exit.exitCode = some status
  | _ => True

structure ExitInv (s : ProcessSystem) : Prop where
  file : ∀ id p status, s.remote.get? id = some p → p.exit = .written status → p.ended = some status
  record : ∀ id r, s.records.get? id = some r → r.id = id ∧ s.Known r
  call : ∀ k c, s.calls.get? k = some c → k < s.next ∧ s.Known c.record ∧ s.Saw k c
  told : ∀ a ∈ s.answers, ∀ call id code, a.Tells call id code →
    call < s.next ∧ ∀ status, code = some status → s.Wrote id status
  later : ∀ call next id out status, .checked call next id out ∈ s.answers → out.exitCode = some status →
    ∀ a ∈ s.answers, ∀ call' code, a.Tells call' id code → next ≤ call' → code = some status

theorem exitCode_exitOf {id : String} {status : Int} : (s.exitOf id).exitCode = some status ↔ s.Wrote id status := by
  rw [ExitFile.exitCode_eq_some, exitOf, Wrote]
  cases s.remote.get? id <;> simp

theorem Grows.wrote (grows : s.Grows t) {id : String} {status : Int} (wrote : s.Wrote id status) : t.Wrote id status := by
  obtain ⟨p, found, written⟩ := wrote
  obtain ⟨q, later, le⟩ := grows id p found
  exact ⟨q, later, by rw [le.exit (by rw [written]; rfl), written]⟩

theorem Grows.known (grows : s.Grows t) {record : ProcessRecord} (known : s.Known record) : t.Known record :=
  fun status code => grows.wrote (known status code)

theorem Saw.mono {k : Nat} {c : ProcessCall} (saw : s.Saw k c) (grows : s.Grows t) (answers : t.answers = s.answers) :
    t.Saw k c := by
  cases c with
  | readLog record maxBytes offset exit =>
    obtain ⟨wrote, agrees⟩ := saw
    refine ⟨fun status code => grows.wrote (wrote status code), ?_⟩
    rw [answers]
    exact agrees
  | _ => trivial

/-- The exit file gets the status of the command. -/
theorem file_next {p q : RemoteProcess} {remoteStep : RemoteStep} (stepped : p.next remoteStep = some q)
    (file : ∀ status, p.exit = .written status → p.ended = some status) (status : Int) (written : q.exit = .written status) :
    q.ended = some status := by
  cases remoteStep with
  | append bytes =>
    obtain ⟨-, ⟨⟩⟩ := Option.ite_none_right_eq_some.mp stepped
    exact file status written
  | ends code =>
    obtain ⟨running, ⟨⟩⟩ := Option.ite_none_right_eq_some.mp stepped
    rw [file status written] at running
    cases running
  | opens =>
    simp only [RemoteProcess.next] at stepped
    split at stepped
    · obtain ⟨-, ⟨⟩⟩ := Option.ite_none_right_eq_some.mp stepped
      cases written
    · cases stepped
  | writes =>
    simp only [RemoteProcess.next] at stepped
    split at stepped
    · rename_i code ended
      obtain ⟨-, ⟨⟩⟩ := Option.ite_none_right_eq_some.mp stepped
      cases written
      exact ended
    · cases stepped
  | exits =>
    obtain ⟨-, ⟨⟩⟩ := Option.ite_none_right_eq_some.mp stepped
    exact file status written

namespace ExitInv

theorem remote (inv : s.ExitInv) {remote : Dict String RemoteProcess} (grows : s.Grows { s with remote := remote })
    (file : ∀ id p status, remote.get? id = some p → p.exit = .written status → p.ended = some status) :
    ExitInv { s with remote := remote } where
  file := file
  record id r found := ⟨(inv.record id r found).1, grows.known (inv.record id r found).2⟩
  call k c calling := by
    obtain ⟨old, known, saw⟩ := inv.call k c calling
    exact ⟨old, grows.known known, saw.mono grows rfl⟩
  told a member call id code tells := by
    obtain ⟨old, wrote⟩ := inv.told a member call id code tells
    exact ⟨old, fun status same => grows.wrote (wrote status same)⟩
  later := inv.later

theorem store (inv : s.ExitInv) {record : ProcessRecord} (known : s.Known record) :
    ExitInv { s with records := s.records.insert record.id record } where
  file := inv.file
  record id r found := by
    rw [Dict.get?_insert] at found
    split at found
    · rename_i same
      cases found
      exact ⟨same.symm, known⟩
    · exact inv.record id r found
  call := inv.call
  told := inv.told
  later := inv.later

theorem advance (inv : s.ExitInv) : ExitInv { s with next := s.next + 1 } where
  file := inv.file
  record := inv.record
  call k c calling := by
    obtain ⟨old, known, saw⟩ := inv.call k c calling
    exact ⟨Nat.lt_succ_of_lt old, known, saw.mono (.refl s) rfl⟩
  told a member call id code tells := by
    obtain ⟨old, wrote⟩ := inv.told a member call id code tells
    exact ⟨Nat.lt_succ_of_lt old, wrote⟩
  later := inv.later

theorem await (inv : s.ExitInv) {k : Nat} {c : ProcessCall} (old : k < s.next) (known : s.Known c.record)
    (saw : s.Saw k c) : ExitInv (s.await k c) where
  file := inv.file
  record := inv.record
  call j d calling := by
    rw [ProcessSystem.await, Dict.get?_insert] at calling
    split at calling
    · rename_i same
      cases calling
      subst same
      exact ⟨old, known, saw.mono (.refl s) rfl⟩
    · obtain ⟨old, known, saw⟩ := inv.call j d calling
      exact ⟨old, known, saw.mono (.refl s) rfl⟩
  told := inv.told
  later := inv.later

/-- Some calls may be given up. -/
theorem forget (inv : s.ExitInv) {calls : Dict Nat ProcessCall}
    (fewer : ∀ k c, calls.get? k = some c → s.calls.get? k = some c) : ExitInv { s with calls := calls } where
  file := inv.file
  record := inv.record
  call j d calling := by
    obtain ⟨old, known, saw⟩ := inv.call j d (fewer j d calling)
    exact ⟨old, known, saw.mono (.refl s) rfl⟩
  told := inv.told
  later := inv.later

theorem erase (inv : s.ExitInv) (k : Nat) : ExitInv { s with calls := s.calls.erase k } := by
  refine inv.forget fun j d calling => ?_
  rw [Dict.get?_erase] at calling
  split at calling
  · cases calling
  · exact calling

/-- A call may be answered with an exit code that is in the exit file, and with what the
checks before it have reported. -/
theorem answer (inv : s.ExitInv) (k : Nat) {a : ProcessAnswer}
    (checked : ∀ call next id out, a = .checked call next id out → next = s.next)
    (tells : ∀ call id code, a.Tells call id code → call < s.next ∧ (∀ status, code = some status → s.Wrote id status) ∧
      ∀ earlier next before status, .checked earlier next id before ∈ s.answers → before.exitCode = some status →
        next ≤ call → code = some status) : ExitInv (s.answer k a) where
  file := inv.file
  record := inv.record
  call j d calling := by
    obtain ⟨old, known, saw⟩ := (inv.erase k).call j d calling
    refine ⟨old, known, ?_⟩
    cases d with
    | readLog record maxBytes offset exit =>
      refine ⟨saw.1, fun call next out status member code begun => ?_⟩
      rcases List.mem_append.mp member with before | now
      · exact saw.2 call next out status before code begun
      · -- the call was begun before this answer
        obtain rfl := checked call next record.id out (List.mem_singleton.mp now).symm
        exact absurd begun (Nat.not_le_of_lt old)
    | _ => trivial
  told b member call id code said := by
    rcases List.mem_append.mp member with before | now
    · exact inv.told b before call id code said
    · obtain rfl := List.mem_singleton.mp now
      obtain ⟨old, wrote, -⟩ := tells call id code said
      exact ⟨old, wrote⟩
  later call next id out status member code b said call' code' said' begun := by
    rcases List.mem_append.mp said with saidBefore | saidNow
    · rcases List.mem_append.mp member with before | now
      · exact inv.later call next id out status before code b saidBefore call' code' said' begun
      · obtain rfl := checked call next id out (List.mem_singleton.mp now).symm
        exact absurd begun (Nat.not_le_of_lt (inv.told b saidBefore call' id code' said').1)
    · obtain rfl := List.mem_singleton.mp saidNow
      obtain ⟨old, -, agrees⟩ := tells call' id code' said'
      rcases List.mem_append.mp member with before | now
      · exact agrees call next out status before code begun
      · obtain rfl := checked call next id out (List.mem_singleton.mp now).symm
        exact absurd begun (Nat.not_le_of_lt old)

theorem begin (inv : s.ExitInv) (request : ProcessRequest) : (s.begin request).ExitInv := by
  have next := inv.advance
  have error : ∀ a : ProcessAnswer, (∀ call n id out, a ≠ .checked call n id out) → (∀ call id code, ¬ a.Tells call id code) →
      ExitInv ({ s with next := s.next + 1 }.answer s.next a) := by
    intro a notChecked silent
    exact next.answer s.next (fun call n id out same => absurd same (notChecked call n id out))
      (fun call id code said => absurd said (silent call id code))
  have starts : ∀ (id : String) (r : ProcessRecord) (c : ProcessCall), s.records.get? id = some r → c.record = r →
      Saw { s with next := s.next + 1 } s.next c → ExitInv ({ s with next := s.next + 1 }.await s.next c) := by
    intro id r c found same saw
    refine next.await (Nat.lt_succ_self _) ?_ saw
    rw [same]
    exact (inv.record id r found).2
  cases request with
  | check id =>
    simp only [ProcessSystem.begin]
    split
    · exact error _ (by rintro _ _ _ _ ⟨⟩) (by rintro _ _ _ ⟨⟩)
    · rename_i r found
      exact starts id r _ found rfl trivial
  | read id maxBytes offset =>
    simp only [ProcessSystem.begin]
    split
    · exact error _ (by rintro _ _ _ _ ⟨⟩) (by rintro _ _ _ ⟨⟩)
    · rename_i r found
      exact starts id r _ found rfl trivial
  | kill id signal =>
    simp only [ProcessSystem.begin]
    split
    · exact error _ (by rintro _ _ _ _ ⟨⟩) (by rintro _ _ _ ⟨⟩)
    · rename_i r found
      split
      · exact starts id r _ found rfl trivial
      · exact error _ (by rintro _ _ _ _ ⟨⟩) (by rintro _ _ _ ⟨⟩)

/-- What a check has reported is in the exit file. -/
theorem reads (inv : s.ExitInv) {call next : Nat} {id : String} {out : ProcessOutput} {status : Int}
    (member : .checked call next id out ∈ s.answers) (code : out.exitCode = some status) :
    (s.exitOf id).exitCode = some status :=
  exitCode_exitOf.mpr ((inv.told _ member call id _ (.checked call next id out)).2 status code)

theorem resume (inv : s.ExitInv) {k : Nat} {c : ProcessCall} (calling : s.calls.get? k = some c) (occupied : Bool)
    (now : Timestamp) : (s.resume rt k occupied now c).ExitInv := by
  obtain ⟨old, known, saw⟩ := inv.call k c calling
  cases c with
  | checkAlive record => exact inv.await old known trivial
  | checkLog record alive =>
    simp only [ProcessSystem.resume]
    split
    · exact inv.erase k
    · exact inv.await old known trivial
  | checkExit record alive log =>
    have fresh : s.Known (checkProcess record alive log (s.exitOf record.id) now).1 := fun status code => exitCode_exitOf.mp code
    refine (inv.store fresh).answer k (fun call next id out same => ?_) (fun call id code said => ?_)
    · cases same
      rfl
    · cases said
      exact ⟨old, fun status code => exitCode_exitOf.mp code,
        fun earlier next before status member code _ => inv.reads member code⟩
  | readExit record maxBytes offset =>
    exact inv.await old known ⟨fun status code => exitCode_exitOf.mp code,
      fun call next out status member code _ => inv.reads member code⟩
  | readLog record maxBytes offset exit =>
    simp only [ProcessSystem.resume]
    split
    · exact inv.erase k
    · refine inv.answer k (by rintro _ _ _ _ ⟨⟩) fun call id code said => ?_
      cases said
      exact ⟨old, saw.1, fun earlier next before status member code begun => saw.2 earlier next before status member code begun⟩
  | kill record signal =>
    have grows : s.Grows { s with remote := s.signalled rt record.server record.remotePid signal } :=
      fun id p found => grows_signalled record.server record.remotePid signal found
    have file : ∀ id p status, (s.signalled rt record.server record.remotePid signal).get? id = some p → p.exit = .written status →
        p.ended = some status := by
      intro id p status found written
      rw [signalled, Dict.get?_mapValues] at found
      obtain ⟨before, there, rfl⟩ := Option.map_eq_some_iff.mp found
      split at written
      · rename_i struck
        rw [if_pos struck]
        exact inv.file id before status there written
      · rename_i missed
        rw [if_neg missed]
        exact inv.file id before status there written
    have stored := @store _ (inv.remote grows file) { record with status := .killed } (grows.known known)
    exact stored.answer k (by rintro _ _ _ _ ⟨⟩) (by rintro _ _ _ ⟨⟩)

theorem step (inv : s.ExitInv) {event : ProcessEvent} (stepped : ProcessSystem.step rt s event = some t) : t.ExitInv := by
  have grows := grows_step stepped
  cases event with
  | start id server command pid now =>
    obtain ⟨fresh, ⟨⟩⟩ := Option.ite_none_left_eq_some.mp stepped
    have launched : ExitInv { s with remote := s.remote.insert id { server, pid } } := by
      refine inv.remote grows fun other p status found written => ?_
      rw [Dict.get?_insert] at found
      split at found
      · cases found
        cases written
      · exact inv.file other p status found written
    refine @store _ launched (startedRecord id server command pid now) ?_
    rintro status ⟨⟩
  | remote id remoteStep =>
    obtain ⟨before, there, stepped⟩ := Option.bind_eq_some_iff.mp stepped
    obtain ⟨after, moved, rfl⟩ := Option.map_eq_some_iff.mp stepped
    refine inv.remote grows fun other p status found written => ?_
    rw [Dict.get?_insert] at found
    split at found
    · cases found
      exact file_next moved (fun code => inv.file id before code there) status written
    · exact inv.file other p status found written
  | call request =>
    cases stepped
    exact inv.begin request
  | resume k occupied now =>
    obtain ⟨c, calling, rfl⟩ := Option.map_eq_some_iff.mp stepped
    exact inv.resume calling occupied now
  | drop k =>
    obtain ⟨c, calling, rfl⟩ := Option.map_eq_some_iff.mp stepped
    exact inv.erase k

theorem restart (inv : s.ExitInv) : s.restart.ExitInv := by
  have forgotten : ExitInv { s with calls := Dict.empty } := inv.forget (by rintro _ _ ⟨⟩)
  refine ⟨forgotten.file, fun id r found => ?_, forgotten.call, forgotten.told, forgotten.later⟩
  rw [ProcessSystem.restart, Dict.get?_mapValues] at found
  obtain ⟨before, there, rfl⟩ := Option.map_eq_some_iff.mp found
  exact inv.record id before there

theorem lifeStep (inv : s.ExitInv) {event : LifeEvent} (stepped : ProcessSystem.lifeStep rt s event = some t) : t.ExitInv := by
  cases event with
  | live event => exact inv.step stepped
  | restart =>
    cases stepped
    exact inv.restart

theorem initial : ExitInv {} where
  file id p status found := by cases found
  record id r found := by cases found
  call k c calling := by cases calling
  told a member := by cases member
  later call next id out status member := by cases member

theorem exited (inv : s.ExitInv) {id : String} {status : Int} (wrote : s.Wrote id status) : s.Exited id status := by
  obtain ⟨p, found, written⟩ := wrote
  exact ⟨p, found, inv.file id p status found written, written⟩

end ExitInv

theorem grows_lifeStep {event : LifeEvent} (stepped : lifeStep rt s event = some t) : s.Grows t := by
  cases event with
  | live event => exact grows_step stepped
  | restart =>
    cases stepped
    exact .refl s

theorem exitInv_of_run {events : List LifeEvent} (run : Run (life rt) s events t) (inv : s.ExitInv) : t.ExitInv :=
  run.preserves (fun _ _ _ inv stepped => inv.lifeStep stepped) inv

/-- **Exit codes are true and final** in every run of calls, signals, failing connections
and restarts. -/
theorem exits_final (rt : ProcessRuntime) (events : List LifeEvent) (s : ProcessSystem) (run : Run (life rt) {} events s) :
    s.ExitsFinal rt := by
  have inv := exitInv_of_run run .initial
  constructor
  · intro a member call id status said
    exact inv.exited ((inv.told a member call id _ said).2 status rfl)
  · intro id r status found code
    obtain ⟨rfl, known⟩ := inv.record id r found
    exact inv.exited (known status code)
  · intro id status exited events t more
    have grows : s.Grows t :=
      more.relates Grows.refl (fun _ _ _ => Grows.trans) (fun _ _ _ stepped => grows_lifeStep stepped)
    obtain ⟨p, found, -, written⟩ := exited
    exact (exitInv_of_run more inv).exited (grows.wrote ⟨p, found, written⟩)
  · exact inv.later

/-- A command ends with status 3 and is checked; another server reads it. -/
def restartedRun : List LifeEvent :=
  [.live (.start "p" "web" "make" 42 ⟨0, none⟩), .live (.remote "p" (.ends 3)), .live (.remote "p" .opens),
    .live (.remote "p" .writes), .live (.call (.check "p")), .live (.resume 0 false ⟨1, none⟩), .live (.resume 0 false ⟨1, none⟩),
    .live (.resume 0 false ⟨1, none⟩), .restart, .live (.call (.read "p" 10 0)), .live (.resume 1 false ⟨1, none⟩), .live (.resume 1 false ⟨1, none⟩)]

theorem exits_final_restarted : ∃ s, Run (life nohupRuntime) {} restartedRun s ∧
    .read 1 "p" ⟨[], false, some 3, 42, "web"⟩ ∈ s.answers ∧ s.Exited "p" 3 := by
  have run : ∃ s, Run (life nohupRuntime) {} restartedRun s ∧ s.answers =
      [.checked 0 1 "p" ⟨[], true, some 3, 42, "web"⟩, .read 1 "p" ⟨[], false, some 3, 42, "web"⟩] :=
    ⟨_, .step rfl (.step rfl (.step rfl (.step rfl (.step rfl (.step rfl (.step rfl (.step rfl (.step rfl (.step rfl
      (.step rfl (.step rfl (.refl _)))))))))))), rfl⟩
  obtain ⟨s, run, answers⟩ := run
  have member : .read 1 "p" ⟨[], false, some 3, 42, "web"⟩ ∈ s.answers := by
    rw [answers]
    exact List.mem_cons_of_mem _ List.mem_cons_self
  exact ⟨s, run, member, (exits_final nohupRuntime restartedRun s run).told _ member 1 "p" 3 (.read 1 "p" _)⟩

end ProcessSystem

end McpSsh
