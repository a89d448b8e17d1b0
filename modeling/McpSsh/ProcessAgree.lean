import McpSsh.ProcessRuns

/-!
# The observers of a process agree

`check_process` asks whether the wrapper is alive, `read_process` whether the exit file
is written. As long as no fatal signal reaches a wrapper that has not yet written its
exit file, a wrapper that is gone has left a written exit file and a command that has
ended; so what a check has reported, every later read reports too.
-/

set_option autoImplicit false

namespace McpSsh

open Base

def ProcessCall.record : ProcessCall → ProcessRecord
  | checkAlive record => record
  | checkLog record _ => record
  | checkExit record _ _ => record
  | readExit record _ _ => record
  | readLog record _ _ _ => record
  | kill record _ => record

/-- The call is about to send a signal. -/
def ProcessCall.signals : ProcessCall → Bool
  | kill _ _ => true
  | _ => false

namespace ProcessSystem

variable {rt : ProcessRuntime} {s t : ProcessSystem}

/-- The wrapper is gone. -/
def Stopped (s : ProcessSystem) (id : String) : Prop := ∃ p, s.remote.get? id = some p ∧ p.wrapper = false

/-- The record has server and PID of the wrapper. -/
def Traces (s : ProcessSystem) (record : ProcessRecord) : Prop :=
  ∃ p, s.remote.get? record.id = some p ∧ p.server = record.server ∧ p.pid = record.remotePid

/-- What a call has seen so far is right. -/
def Fits (s : ProcessSystem) (k : Nat) : ProcessCall → Prop
  | .checkLog record alive => alive = false → s.Stopped record.id
  | .checkExit record alive _ => alive = false → s.Stopped record.id
  | .readLog record _ _ exit => ∀ call next out, .checked call next record.id out ∈ s.answers → out.running = false →
      next ≤ k → exit.exitCode.isSome = true
  | _ => True

/-- Processes are orderly, records and calls are about them, and the answers agree. -/
structure Inv (s : ProcessSystem) : Prop where
  orderly : ∀ id p, s.remote.get? id = some p → p.Orderly
  record : ∀ id r, s.records.get? id = some r → s.Traces r
  call : ∀ k c, s.calls.get? k = some c → k < s.next ∧ s.Traces c.record ∧ s.Fits k c
  checked : ∀ call next id out, .checked call next id out ∈ s.answers → out.running = false → s.Stopped id
  old : ∀ call id out, .read call id out ∈ s.answers → call < s.next
  agree : ∀ call next id out, .checked call next id out ∈ s.answers → out.running = false →
    ∀ later again, .read later id again ∈ s.answers → next ≤ later → again.running = false

theorem Grows.stopped (grows : s.Grows t) {id : String} (stopped : s.Stopped id) : t.Stopped id := by
  obtain ⟨p, found, gone⟩ := stopped
  obtain ⟨q, later, le⟩ := grows id p found
  exact ⟨q, later, le.wrapper gone⟩

theorem Grows.traces (grows : s.Grows t) {record : ProcessRecord} (traces : s.Traces record) : t.Traces record := by
  obtain ⟨p, found, server, pid⟩ := traces
  obtain ⟨q, later, le⟩ := grows record.id p found
  exact ⟨q, later, le.server.trans server, le.pid.trans pid⟩

theorem Fits.mono {k : Nat} {c : ProcessCall} (fits : s.Fits k c) (grows : s.Grows t)
    (answers : t.answers = s.answers) : t.Fits k c := by
  cases c with
  | checkLog record alive => exact fun dead => grows.stopped (fits dead)
  | checkExit record alive log => exact fun dead => grows.stopped (fits dead)
  | readLog record maxBytes offset exit =>
    unfold Fits
    rw [answers]
    exact fits
  | _ => trivial

namespace Inv

/-- Processes may go on, in order. -/
theorem remote (inv : s.Inv) {remote : Dict String RemoteProcess} (grows : s.Grows { s with remote := remote })
    (orderly : ∀ id p, remote.get? id = some p → p.Orderly) : Inv { s with remote := remote } where
  orderly := orderly
  record id r found := grows.traces (inv.record id r found)
  call k c calling := by
    obtain ⟨old, traces, fits⟩ := inv.call k c calling
    exact ⟨old, grows.traces traces, fits.mono grows rfl⟩
  checked call next id out member dead := grows.stopped (inv.checked call next id out member dead)
  old := inv.old
  agree := inv.agree

/-- A record of a process may be stored. -/
theorem store (inv : s.Inv) {record : ProcessRecord} (traces : s.Traces record) :
    Inv { s with records := s.records.insert record.id record } where
  orderly := inv.orderly
  record id r found := by
    rw [Dict.get?_insert] at found
    split at found
    · cases found
      exact traces
    · exact inv.record id r found
  call := inv.call
  checked := inv.checked
  old := inv.old
  agree := inv.agree

theorem advance (inv : s.Inv) : Inv { s with next := s.next + 1 } where
  orderly := inv.orderly
  record := inv.record
  call k c calling := by
    obtain ⟨old, traces, fits⟩ := inv.call k c calling
    exact ⟨Nat.lt_succ_of_lt old, traces, fits.mono (.refl s) rfl⟩
  checked := inv.checked
  old call id out member := Nat.lt_succ_of_lt (inv.old call id out member)
  agree := inv.agree

theorem await (inv : s.Inv) {k : Nat} {c : ProcessCall} (old : k < s.next) (traces : s.Traces c.record)
    (fits : s.Fits k c) : Inv (s.await k c) where
  orderly := inv.orderly
  record := inv.record
  call j d calling := by
    rw [ProcessSystem.await, Dict.get?_insert] at calling
    split at calling
    · rename_i same
      cases calling
      subst same
      exact ⟨old, traces, fits.mono (.refl s) rfl⟩
    · obtain ⟨old, traces, fits⟩ := inv.call j d calling
      exact ⟨old, traces, fits.mono (.refl s) rfl⟩
  checked := inv.checked
  old := inv.old
  agree := inv.agree

theorem forget (inv : s.Inv) (k : Nat) : Inv { s with calls := s.calls.erase k } where
  orderly := inv.orderly
  record := inv.record
  call j d calling := by
    rw [Dict.get?_erase] at calling
    split at calling
    · cases calling
    · obtain ⟨old, traces, fits⟩ := inv.call j d calling
      exact ⟨old, traces, fits.mono (.refl s) rfl⟩
  checked := inv.checked
  old := inv.old
  agree := inv.agree

/-- A call may be answered with a check that saw the wrapper gone only if it is, and
with a read that agrees with the checks reported before the call. -/
theorem answer (inv : s.Inv) (k : Nat) {a : ProcessAnswer}
    (checked : ∀ call next id out, a = .checked call next id out → next = s.next ∧ (out.running = false → s.Stopped id))
    (read : ∀ call id out, a = .read call id out → call < s.next ∧ ∀ earlier next before,
      .checked earlier next id before ∈ s.answers → before.running = false → next ≤ call → out.running = false) :
    Inv (s.answer k a) where
  orderly := inv.orderly
  record := inv.record
  call j d calling := by
    obtain ⟨old, traces, fits⟩ := (inv.forget k).call j d calling
    refine ⟨old, traces, ?_⟩
    cases d with
    | readLog record maxBytes offset exit =>
      intro call next out member dead begun
      rcases List.mem_append.mp member with before | now
      · exact fits call next out before dead begun
      · -- the call was begun before this answer
        obtain ⟨rfl, -⟩ := checked call next record.id out (List.mem_singleton.mp now).symm
        exact absurd begun (Nat.not_le_of_lt old)
    | checkLog record alive => exact fits
    | checkExit record alive log => exact fits
    | _ => trivial
  checked call next id out member dead := by
    rcases List.mem_append.mp member with before | now
    · exact inv.checked call next id out before dead
    · exact (checked call next id out (List.mem_singleton.mp now).symm).2 dead
  old call id out member := by
    rcases List.mem_append.mp member with before | now
    · exact inv.old call id out before
    · exact (read call id out (List.mem_singleton.mp now).symm).1
  agree call next id out member dead later again said begun := by
    rcases List.mem_append.mp said with readBefore | readNow
    · rcases List.mem_append.mp member with before | now
      · exact inv.agree call next id out before dead later again readBefore begun
      · obtain ⟨rfl, -⟩ := checked call next id out (List.mem_singleton.mp now).symm
        exact absurd begun (Nat.not_le_of_lt (inv.old later id again readBefore))
    · have same := (List.mem_singleton.mp readNow).symm
      rcases List.mem_append.mp member with before | now
      · exact (read later id again same).2 call next out before dead begun
      · rw [same] at now
        cases List.mem_singleton.mp now

/-- A call begins with what the store has. -/
theorem begin (inv : s.Inv) (request : ProcessRequest) : (s.begin request).Inv := by
  have next := inv.advance
  have error : ∀ a : ProcessAnswer, (∀ call n id out, a ≠ .checked call n id out) → (∀ call id out, a ≠ .read call id out) →
      Inv ({ s with next := s.next + 1 }.answer s.next a) := by
    intro a notChecked notRead
    exact next.answer s.next (fun call n id out same => absurd same (notChecked call n id out))
      (fun call id out same => absurd same (notRead call id out))
  have starts : ∀ (id : String) (r : ProcessRecord) (c : ProcessCall), s.records.get? id = some r → c.record = r →
      Fits { s with next := s.next + 1 } s.next c → Inv ({ s with next := s.next + 1 }.await s.next c) := by
    intro id r c found same fits
    refine next.await (Nat.lt_succ_self _) ?_ fits
    rw [same]
    exact inv.record id r found
  cases request with
  | check id =>
    simp only [ProcessSystem.begin]
    split
    · exact error _ (by simp) (by simp)
    · rename_i r found
      exact starts id r _ found rfl trivial
  | read id maxBytes offset =>
    simp only [ProcessSystem.begin]
    split
    · exact error _ (by simp) (by simp)
    · rename_i r found
      exact starts id r _ found rfl trivial
  | kill id signal =>
    simp only [ProcessSystem.begin]
    split
    · exact error _ (by simp) (by simp)
    · rename_i r found
      split
      · exact starts id r _ found rfl trivial
      · exact error _ (by simp) (by simp)

/-- `kill -0` misses a wrapper only if it is gone. -/
theorem stopped_of_alive {record : ProcessRecord} (traces : s.Traces record) {occupied : Bool}
    (dead : (s.alive record.server record.remotePid || occupied) = false) : s.Stopped record.id := by
  obtain ⟨p, found, server, pid⟩ := traces
  refine ⟨p, found, ?_⟩
  have none_ := (Bool.or_eq_false_iff.mp dead).1
  rw [alive, List.any_eq_false] at none_
  have member : p ∈ s.remote.values := List.mem_map_of_mem (Dict.get?_eq_some_iff.mp found)
  simpa [server, pid] using none_ p member

/-- The next command of a call. -/
theorem resume (inv : s.Inv) {k : Nat} {c : ProcessCall} (calling : s.calls.get? k = some c) (occupied : Bool)
    (now : Timestamp) (safe : Safe rt s (.resume k occupied now)) : (s.resume rt k occupied now c).Inv := by
  obtain ⟨old, traces, fits⟩ := inv.call k c calling
  cases c with
  | checkAlive record => exact inv.await old traces (stopped_of_alive traces)
  | checkLog record alive =>
    simp only [ProcessSystem.resume]
    split
    · exact inv.forget k
    · exact inv.await old traces fits
  | checkExit record alive log =>
    have stored := @store s inv (checkProcess record alive log (s.exitOf record.id) now).1 traces
    refine stored.answer k (fun call next id out same => ?_) (fun call id out same => by cases same)
    cases same
    exact ⟨rfl, fits⟩
  | readExit record maxBytes offset =>
    refine inv.await old traces fun call next out member dead begun => ?_
    obtain ⟨p, found, gone⟩ := inv.checked call next record.id out member dead
    rw [exitOf, found]
    exact (inv.orderly record.id p found).written gone
  | readLog record maxBytes offset exit =>
    simp only [ProcessSystem.resume]
    split
    · exact inv.forget k
    · refine inv.answer k (fun call next id out same => by cases same) (fun call id out same => ?_)
      cases same
      refine ⟨old, fun earlier next before member dead begun => ?_⟩
      have written := fits earlier next before member dead begun
      simp [readProcess, Option.isNone_eq_false_iff, written]
  | kill record signal =>
    have grows : s.Grows { s with remote := s.signalled rt record.server record.remotePid signal } :=
      fun id p found => grows_signalled record.server record.remotePid signal found
    have orderly : ∀ id p, (s.signalled rt record.server record.remotePid signal).get? id = some p → p.Orderly := by
      intro id p found
      rw [signalled, Dict.get?_mapValues] at found
      obtain ⟨before, there, rfl⟩ := Option.map_eq_some_iff.mp found
      have order := inv.orderly id before there
      split
      · rename_i struck
        refine ⟨fun _ => ?_, order.ended⟩
        cases running : before.wrapper with
        | false => exact order.written running
        | true => exact safe record signal calling struck.2 id before there struck.1 running
      · exact order
    have stored := @store _ (inv.remote grows orderly) { record with status := .killed } (grows.traces traces)
    exact stored.answer k (fun call next id out same => by cases same) (fun call id out same => by cases same)

/-- **A safe step keeps the observers in agreement.** -/
theorem step (inv : s.Inv) {event : ProcessEvent} (safe : Safe rt s event)
    (stepped : ProcessSystem.step rt s event = some t) : t.Inv := by
  have grows := grows_step stepped
  cases event with
  | start id server command pid now =>
    obtain ⟨fresh, ⟨⟩⟩ := Option.ite_none_left_eq_some.mp stepped
    have launched : Inv { s with remote := s.remote.insert id { server, pid } } := by
      refine inv.remote grows fun other p found => ?_
      rw [Dict.get?_insert] at found
      split at found
      · cases found
        exact ⟨fun gone => (by cases gone), fun opened => absurd rfl opened⟩
      · exact inv.orderly other p found
    exact @store _ launched (startedRecord id server command pid now) ⟨_, Dict.get?_insert_self, rfl, rfl⟩
  | remote id remoteStep =>
    obtain ⟨before, there, stepped⟩ := Option.bind_eq_some_iff.mp stepped
    obtain ⟨after, moved, rfl⟩ := Option.map_eq_some_iff.mp stepped
    refine inv.remote grows fun other p found => ?_
    rw [Dict.get?_insert] at found
    split at found
    · cases found
      exact (RemoteProcess.next_spec moved).2 (inv.orderly id before there)
    · exact inv.orderly other p found
  | call request =>
    cases stepped
    exact inv.begin request
  | resume k occupied now =>
    obtain ⟨c, calling, rfl⟩ := Option.map_eq_some_iff.mp stepped
    exact inv.resume calling occupied now safe
  | drop k =>
    obtain ⟨c, calling, rfl⟩ := Option.map_eq_some_iff.mp stepped
    exact inv.forget k

theorem statusAgrees (inv : s.Inv) : s.StatusAgrees rt := by
  intro call next id out member dead
  refine ⟨?_, inv.agree call next id out member dead⟩
  obtain ⟨p, found, gone⟩ := inv.checked call next id out member dead
  have order := inv.orderly id p found
  have ended : p.ended.isSome = true := by
    refine order.ended fun absent => ?_
    have written := order.written gone
    rw [absent] at written
    cases written
  exact ⟨(ended_run found ended (@Run.refl _ _ (system rt) s)).1, fun events t run => ended_run found ended run⟩

end Inv

/-- **In every run in which no fatal signal reaches a wrapper before it has written its
exit file, the observers of a process agree.** -/
theorem statusAgrees_run (rt : ProcessRuntime) (events : List ProcessEvent) (s : ProcessSystem)
    (run : Run (guard (system rt) (Safe rt)) {} events s) : s.StatusAgrees rt := by
  have keep : ∀ (s : ProcessSystem) (event : ProcessEvent) (t : ProcessSystem), s.Inv →
      guard (system rt) (Safe rt) s event t → t.Inv := fun _ _ _ inv step => inv.step step.2 step.1
  have start : Inv {} := by
    constructor
    · intro id p found
      cases found
    · intro id r found
      cases found
    · intro k c calling
      cases calling
    · intro call next id out member
      cases member
    · intro call id out member
      cases member
    · intro call next id out member
      cases member
  exact (run.preserves keep start).statusAgrees

/-! ## Two runs -/

/-- `SIGHUP` is ignored under `nohup`, `SIGINT` and `SIGQUIT` in the background. -/
def nohupRuntime : ProcessRuntime :=
  ⟨.strict, fun signal => signal ∈ ["SIGTERM", "SIGKILL", "SIGUSR1", "SIGUSR2"]⟩

/-- A command ends by itself; then it is checked and read. -/
def quietRun : List ProcessEvent :=
  [.start "p" "web" "make" 42 ⟨0, none⟩, .remote "p" (.append [0x6F, 0x6B]), .remote "p" (.ends 0), .remote "p" .opens,
    .remote "p" .writes, .remote "p" .exits, .call (.check "p"), .resume 0 false ⟨1, none⟩, .resume 0 false ⟨1, none⟩, .resume 0 false ⟨1, none⟩,
    .call (.read "p" 10 0), .resume 1 false ⟨1, none⟩, .resume 1 false ⟨1, none⟩]

/-- A call that sends no signal is safe. -/
theorem safe_of_quiet {k : Nat} {occupied : Bool} {now : Timestamp}
    (quiet : ((s.calls.get? k).any ProcessCall.signals) = false) : Safe rt s (.resume k occupied now) := by
  intro record signal killing
  rw [killing] at quiet
  cases quiet

theorem statusAgrees_quiet : ∃ s, Run (guard (system nohupRuntime) (Safe nohupRuntime)) {} quietRun s ∧
    s.StatusAgrees nohupRuntime := by
  have run : ∃ s, Run (guard (system nohupRuntime) (Safe nohupRuntime)) {} quietRun s :=
    ⟨_, .step ⟨rfl, trivial⟩ (.step ⟨rfl, trivial⟩ (.step ⟨rfl, trivial⟩ (.step ⟨rfl, trivial⟩ (.step ⟨rfl, trivial⟩
      (.step ⟨rfl, trivial⟩ (.step ⟨rfl, trivial⟩ (.step ⟨rfl, safe_of_quiet rfl⟩ (.step ⟨rfl, safe_of_quiet rfl⟩
      (.step ⟨rfl, safe_of_quiet rfl⟩ (.step ⟨rfl, trivial⟩ (.step ⟨rfl, safe_of_quiet rfl⟩
      (.step ⟨rfl, safe_of_quiet rfl⟩ (.refl _)))))))))))))⟩
  obtain ⟨s, run⟩ := run
  exact ⟨s, run, statusAgrees_run _ _ _ run⟩

/-- The wrapper is killed while the command goes on; then the process is checked. -/
def killedRun : List ProcessEvent :=
  [.start "p" "web" "make" 42 ⟨0, none⟩, .call (.kill "p" "SIGKILL"), .resume 0 false ⟨1, none⟩, .call (.check "p"), .resume 1 false ⟨1, none⟩,
    .resume 1 false ⟨1, none⟩, .resume 1 false ⟨1, none⟩]

/-- The check reports that the process does not run, and the command goes on. -/
theorem kill_leaves_command_running : ¬ ∀ (rt : ProcessRuntime) (events : List ProcessEvent) (s : ProcessSystem),
    Run (system rt) {} events s → s.StatusAgrees rt := by
  intro agrees
  have run : ∃ s, Run (system nohupRuntime) {} killedRun s ∧
      s.answers = [.killed 0 "p" "SIGKILL", .checked 1 2 "p" ⟨[], false, none, 42, "web"⟩] ∧
      s.remote.get? "p" = some { server := "web", pid := 42, wrapper := false } :=
    ⟨_, .step rfl (.step rfl (.step rfl (.step rfl (.step rfl (.step rfl (.step rfl (.refl _))))))), rfl, rfl⟩
  obtain ⟨s, run, answers, found⟩ := run
  have report := agrees _ _ s run 1 2 "p" ⟨[], false, none, 42, "web"⟩ (by simp [answers]) rfl
  exact report.1.1 ⟨_, found, rfl⟩

end ProcessSystem

end McpSsh
