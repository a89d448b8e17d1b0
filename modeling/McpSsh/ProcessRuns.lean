import McpSsh.Process
import McpSsh.Base.Dict
import McpSsh.Base.Trace

/-!
# Processes and those who watch them

`start_process` leaves a wrapper shell on the server, which waits for the subshell that
runs the command, writes its status to the exit file and ends. `kill_process`,
`check_process` and `read_process` run one remote command after the other; between any
two of them the server and other calls may take steps.
-/

set_option autoImplicit false

namespace McpSsh

open Base

/-- `ALLOWED_SIGNALS`. -/
def allowedSignals : List String := ["SIGTERM", "SIGKILL", "SIGINT", "SIGHUP", "SIGQUIT", "SIGUSR1", "SIGUSR2"]

/-- A process on a server: the wrapper, the subshell it waits for, and their files. -/
structure RemoteProcess where
  server : String
  /-- The wrapper's. -/
  pid : Int
  wrapper : Bool := true
  /-- The status of the command once it has ended. -/
  ended : Option Int := none
  log : List UInt8 := []
  exit : ExitFile := .absent
deriving DecidableEq

/-- What happens to a process on the server by itself. -/
inductive RemoteStep where
  | append (bytes : List UInt8)
  | ends (status : Int)
  /-- The wrapper opens the exit file. -/
  | opens
  /-- The wrapper writes the status. -/
  | writes
  | exits

/-- `(inner); echo $? > exit_file`, step by step. -/
def RemoteProcess.next (p : RemoteProcess) : RemoteStep → Option RemoteProcess
  | .append bytes => if p.ended = none then some { p with log := p.log ++ bytes } else none
  | .ends status => if p.ended = none then some { p with ended := some status } else none
  | .opens =>
    match p.ended with
    | some _ => if p.wrapper ∧ p.exit = .absent then some { p with exit := .empty } else none
    | none => none
  | .writes =>
    match p.ended with
    | some status => if p.wrapper ∧ p.exit = .empty then some { p with exit := .written status } else none
    | none => none
  | .exits => if p.wrapper ∧ p.exit.exitCode.isSome then some { p with wrapper := false } else none

/-- What only happens once: server and PID stay, the wrapper and the command do not come
back, the log of a command that has ended and a status that is written do not change. -/
structure RemoteProcess.Le (p q : RemoteProcess) : Prop where
  server : q.server = p.server
  pid : q.pid = p.pid
  wrapper : p.wrapper = false → q.wrapper = false
  ended : p.ended.isSome = true → q.ended.isSome = true ∧ q.log = p.log
  exit : p.exit.exitCode.isSome = true → q.exit = p.exit

/-- The wrapper ends after writing the exit file, and opens it after the command has
ended. -/
structure RemoteProcess.Orderly (p : RemoteProcess) : Prop where
  written : p.wrapper = false → p.exit.exitCode.isSome = true
  ended : p.exit ≠ .absent → p.ended.isSome = true

namespace RemoteProcess

variable {p q r : RemoteProcess}

theorem Le.refl (p : RemoteProcess) : p.Le p := ⟨rfl, rfl, id, fun ended => ⟨ended, rfl⟩, fun _ => rfl⟩

theorem Le.trans (first : p.Le q) (second : q.Le r) : p.Le r := by
  refine ⟨second.server.trans first.server, second.pid.trans first.pid, fun gone => second.wrapper (first.wrapper gone), fun ended => ?_, fun written => ?_⟩
  · obtain ⟨still, log⟩ := first.ended ended
    obtain ⟨always, same⟩ := second.ended still
    exact ⟨always, same.trans log⟩
  · have same := first.exit written
    rw [second.exit (by rw [same]; exact written), same]

/-- **A step of a process undoes nothing, and keeps its order.** -/
theorem next_spec {remoteStep : RemoteStep} (stepped : p.next remoteStep = some q) :
    p.Le q ∧ (p.Orderly → q.Orderly) := by
  cases remoteStep with
  | append bytes =>
    obtain ⟨running, ⟨⟩⟩ := Option.ite_none_right_eq_some.mp stepped
    exact ⟨⟨rfl, rfl, id, fun ended => by simp [running] at ended, fun _ => rfl⟩, fun order => ⟨order.written, order.ended⟩⟩
  | ends status =>
    obtain ⟨running, ⟨⟩⟩ := Option.ite_none_right_eq_some.mp stepped
    exact ⟨⟨rfl, rfl, id, fun ended => by simp [running] at ended, fun _ => rfl⟩, fun order => ⟨order.written, fun _ => rfl⟩⟩
  | opens =>
    cases ended : p.ended with
    | none => simp [next, ended] at stepped
    | some status =>
      simp only [next, ended] at stepped
      obtain ⟨⟨waits, none_⟩, ⟨⟩⟩ := Option.ite_none_right_eq_some.mp stepped
      refine ⟨⟨rfl, rfl, id, fun _ => ⟨by simp, rfl⟩, fun written => ?_⟩, fun _ => ⟨fun gone => ?_, fun _ => ?_⟩⟩
      · simp [none_, ExitFile.exitCode] at written
      · simp [waits] at gone
      · simp
  | writes =>
    cases ended : p.ended with
    | none => simp [next, ended] at stepped
    | some status =>
      simp only [next, ended] at stepped
      obtain ⟨⟨waits, empty⟩, ⟨⟩⟩ := Option.ite_none_right_eq_some.mp stepped
      refine ⟨⟨rfl, rfl, id, fun _ => ⟨by simp, rfl⟩, fun written => ?_⟩, fun _ => ⟨fun gone => ?_, fun _ => ?_⟩⟩
      · simp [empty, ExitFile.exitCode] at written
      · rfl
      · simp
  | exits =>
    obtain ⟨⟨waits, written⟩, ⟨⟩⟩ := Option.ite_none_right_eq_some.mp stepped
    exact ⟨⟨rfl, rfl, fun _ => rfl, fun ended => ⟨ended, rfl⟩, fun _ => rfl⟩, fun order => ⟨fun _ => written, order.ended⟩⟩

end RemoteProcess

/-- A call in progress, before the remote command it will run next. -/
inductive ProcessCall where
  | checkAlive (record : ProcessRecord)
  | checkLog (record : ProcessRecord) (alive : Bool)
  | checkExit (record : ProcessRecord) (alive : Bool) (log : List Char)
  | readExit (record : ProcessRecord) (maxBytes offset : Nat)
  | readLog (record : ProcessRecord) (maxBytes offset : Nat) (exit : ExitFile)
  | kill (record : ProcessRecord) (signal : String)

inductive ProcessRequest where
  | check (id : String)
  | read (id : String) (maxBytes offset : Nat)
  | kill (id signal : String)

/-- What a call came to, by the number of the call. -/
inductive ProcessAnswer where
  | processNotFound (call : Nat) (id : String)
  | signalNotAllowed (call : Nat) (signal : String)
  | killed (call : Nat) (id signal : String)
  /-- The number that the next call will have is kept too. -/
  | checked (call next : Nat) (id : String) (out : ProcessOutput)
  | read (call : Nat) (id : String) (out : ProcessOutput)

inductive ProcessEvent where
  | start (id server command : String) (pid : Int) (now : Timestamp)
  | remote (id : String) (step : RemoteStep)
  | call (request : ProcessRequest)
  /-- The next remote command of a call; `occupied` where the PID belongs to a process
  that `start_process` did not start. -/
  | resume (call : Nat) (occupied : Bool) (now : Timestamp)
  /-- The connection of a call fails. -/
  | drop (call : Nat)

/-- How output is decoded, and which signals end the wrapper. -/
structure ProcessRuntime where
  errors : DecodeErrors
  fatal : String → Bool

structure ProcessSystem where
  /-- The state store. -/
  records : Dict String ProcessRecord := Dict.empty
  /-- By the process id that is in the names of the files. -/
  remote : Dict String RemoteProcess := Dict.empty
  calls : Dict Nat ProcessCall := Dict.empty
  /-- The number of the next call. -/
  next : Nat := 0
  answers : List ProcessAnswer := []

namespace ProcessSystem

variable (rt : ProcessRuntime) (s : ProcessSystem)

def logOf (id : String) : List UInt8 := ((s.remote.get? id).map RemoteProcess.log).getD []

def exitOf (id : String) : ExitFile := ((s.remote.get? id).map RemoteProcess.exit).getD .absent

/-- `kill -0` on a server, of the wrappers. -/
def alive (server : String) (pid : Int) : Bool :=
  s.remote.values.any fun p => p.server = server && p.pid = pid && p.wrapper

/-- `kill -SIGNAL` on a server: it reaches the wrapper with this PID. -/
def signalled (server : String) (pid : Int) (signal : String) : Dict String RemoteProcess :=
  s.remote.mapValues fun p =>
    if (p.server = server ∧ p.pid = pid) ∧ rt.fatal signal = true then { p with wrapper := false } else p

/-- The call is answered. -/
def answer (k : Nat) (a : ProcessAnswer) : ProcessSystem :=
  { s with calls := s.calls.erase k, answers := s.answers ++ [a] }

def await (k : Nat) (c : ProcessCall) : ProcessSystem := { s with calls := s.calls.insert k c }

/-- The record that `start_process` makes. -/
def startedRecord (id server command : String) (pid : Int) (now : Timestamp) : ProcessRecord :=
  { id, server, command, remotePid := pid, logFile := "/tmp/mcp-" ++ id ++ ".log"
    exitFile := "/tmp/mcp-" ++ id ++ ".exit", startedAt := now, status := .running }

/-- `start_process`, with the fresh id and the PID that it records. -/
def start (id server command : String) (pid : Int) (now : Timestamp) : Option ProcessSystem :=
  if id ∈ s.remote.keys ∨ id ∈ s.records.keys ∨ pid ≤ 0 ∨ s.alive server pid then none
  else some { s with
    records := s.records.insert id (startedRecord id server command pid now)
    remote := s.remote.insert id { server, pid } }

/-- A call, up to its first remote command. -/
def begin (request : ProcessRequest) : ProcessSystem :=
  let k := s.next
  let s := { s with next := k + 1 }
  match request with
  | .check id =>
    match s.records.get? id with
    | none => s.answer k (.processNotFound k id)
    | some record => s.await k (.checkAlive record)
  | .read id maxBytes offset =>
    match s.records.get? id with
    | none => s.answer k (.processNotFound k id)
    | some record => s.await k (.readExit record maxBytes offset)
  | .kill id signal =>
    match s.records.get? id with
    | none => s.answer k (.processNotFound k id)
    | some record =>
      if signal ∈ allowedSignals then s.await k (.kill record signal) else s.answer k (.signalNotAllowed k signal)

/-- The next remote command of a call, and what the call makes of it. -/
def resume (k : Nat) (occupied : Bool) (now : Timestamp) : ProcessCall → ProcessSystem
  | .checkAlive record => s.await k (.checkLog record (s.alive record.server record.remotePid || occupied))
  | .checkLog record alive =>
    let log := s.logOf record.id
    match rt.errors.decode (log.drop (log.length - 4096)) with
    | none => { s with calls := s.calls.erase k }
    | some text => s.await k (.checkExit record alive text)
  | .checkExit record alive text =>
    let (record', out) := checkProcess record alive text (s.exitOf record.id) now
    { s with records := s.records.insert record.id record' }.answer k (.checked k s.next record.id out)
  | .readExit record maxBytes offset => s.await k (.readLog record maxBytes offset (s.exitOf record.id))
  | .readLog record maxBytes offset exit =>
    match rt.errors.decode (tailHead (s.logOf record.id) offset maxBytes) with
    | none => { s with calls := s.calls.erase k }
    | some text => s.answer k (.read k record.id (readProcess record exit text))
  | .kill record signal =>
    { s with
      records := s.records.insert record.id { record with status := .killed }
      remote := s.signalled rt record.server record.remotePid signal }.answer k (.killed k record.id signal)

def step : ProcessEvent → Option ProcessSystem
  | .start id server command pid now => s.start id server command pid now
  | .remote id remoteStep =>
    (s.remote.get? id).bind fun p => (p.next remoteStep).map fun p => { s with remote := s.remote.insert id p }
  | .call request => some (s.begin request)
  | .resume k occupied now => (s.calls.get? k).map (s.resume rt k occupied now)
  | .drop k => (s.calls.get? k).map fun _ => { s with calls := s.calls.erase k }

/-- The processes, as a transition system. -/
def system : System ProcessSystem ProcessEvent := ofFunction fun s event => step rt s event

/-- A fatal signal reaches a wrapper only after it has written the exit file. -/
def Safe (event : ProcessEvent) : Prop :=
  match event with
  | .resume k _ _ => ∀ record signal, s.calls.get? k = some (.kill record signal) → rt.fatal signal = true →
      ∀ id p, s.remote.get? id = some p → p.server = record.server ∧ p.pid = record.remotePid → p.wrapper = true →
        p.exit.exitCode.isSome = true
  | _ => True

/-! ## Agreement -/

/-- The user's command of this process has not ended. -/
def CommandRuns (id : String) : Prop := ∃ p, s.remote.get? id = some p ∧ p.ended = none

/-- Once a check has reported that a process does not run, the command has ended, its
log stays as it is, and every read that is called after the report agrees. -/
def StatusAgrees : Prop :=
  ∀ call next id out, .checked call next id out ∈ s.answers → out.running = false →
    (¬ s.CommandRuns id ∧ ∀ events t, Run (system rt) s events t → ¬ t.CommandRuns id ∧ t.logOf id = s.logOf id) ∧
    ∀ later again, .read later id again ∈ s.answers → next ≤ later → again.running = false

/-! ## What a step leaves in place -/

variable {rt s} {t : ProcessSystem}

/-- No process goes away, and nothing of it is undone. -/
def Grows (s t : ProcessSystem) : Prop := ∀ id p, s.remote.get? id = some p → ∃ q, t.remote.get? id = some q ∧ p.Le q

theorem Grows.refl (s : ProcessSystem) : s.Grows s := fun _ p found => ⟨p, found, .refl p⟩

theorem Grows.trans {u : ProcessSystem} (first : s.Grows t) (second : t.Grows u) : s.Grows u := by
  intro id p found
  obtain ⟨q, later, le⟩ := first id p found
  obtain ⟨r, last, le'⟩ := second id q later
  exact ⟨r, last, le.trans le'⟩

theorem remote_begin (request : ProcessRequest) : (s.begin request).remote = s.remote := by
  cases request with
  | check id =>
    simp only [begin]
    split <;> rfl
  | read id maxBytes offset =>
    simp only [begin]
    split <;> rfl
  | kill id signal =>
    simp only [begin]
    split
    · rfl
    · split <;> rfl

/-- Only a signal changes processes on behalf of a call. -/
theorem remote_resume (k : Nat) (occupied : Bool) (now : Timestamp) (c : ProcessCall) :
    (s.resume rt k occupied now c).remote =
    match c with
    | .kill record signal => s.signalled rt record.server record.remotePid signal
    | _ => s.remote := by
  cases c with
  | checkLog record alive =>
    simp only [resume]
    split <;> rfl
  | readLog record maxBytes offset exit =>
    simp only [resume]
    split <;> rfl
  | _ => rfl

theorem grows_signalled (server : String) (pid : Int) (signal : String) {id : String} {p : RemoteProcess}
    (found : s.remote.get? id = some p) : ∃ q, (s.signalled rt server pid signal).get? id = some q ∧ p.Le q := by
  rw [signalled, Dict.get?_mapValues, found, Option.map_some]
  refine ⟨_, rfl, ?_⟩
  split
  · exact ⟨rfl, rfl, fun _ => rfl, fun ended => ⟨ended, rfl⟩, fun _ => rfl⟩
  · exact .refl p

/-- **A step undoes nothing.** -/
theorem grows_step {event : ProcessEvent} (stepped : step rt s event = some t) : s.Grows t := by
  intro id p found
  cases event with
  | start new server command pid now =>
    obtain ⟨fresh, ⟨⟩⟩ := Option.ite_none_left_eq_some.mp stepped
    refine ⟨p, ?_, .refl p⟩
    rw [Dict.get?_insert, if_neg, found]
    rintro rfl
    exact fresh (.inl (Dict.mem_keys_of_get? found))
  | remote changed remoteStep =>
    obtain ⟨before, there, stepped⟩ := Option.bind_eq_some_iff.mp stepped
    obtain ⟨after, moved, rfl⟩ := Option.map_eq_some_iff.mp stepped
    by_cases same : id = changed
    · subst same
      cases there.symm.trans found
      exact ⟨after, Dict.get?_insert_self, (RemoteProcess.next_spec moved).1⟩
    · exact ⟨p, by rw [Dict.get?_insert, if_neg same, found], .refl p⟩
  | call request =>
    cases stepped
    exact ⟨p, by rw [remote_begin, found], .refl p⟩
  | resume k occupied now =>
    obtain ⟨c, calling, rfl⟩ := Option.map_eq_some_iff.mp stepped
    rw [remote_resume]
    cases c with
    | kill record signal => exact grows_signalled record.server record.remotePid signal found
    | _ => exact ⟨p, found, .refl p⟩
  | drop k =>
    obtain ⟨c, calling, rfl⟩ := Option.map_eq_some_iff.mp stepped
    exact ⟨p, found, .refl p⟩

/-- A command that has ended stays so in every run, and its log with it. -/
theorem ended_run {id : String} {p : RemoteProcess} (found : s.remote.get? id = some p) (ended : p.ended.isSome = true)
    {events : List ProcessEvent} (run : Run (system rt) s events t) :
    ¬ t.CommandRuns id ∧ t.logOf id = s.logOf id := by
  have grows : s.Grows t :=
    run.relates Grows.refl (fun _ _ _ => Grows.trans) (fun _ _ _ stepped => grows_step stepped)
  obtain ⟨q, later, le⟩ := grows id p found
  obtain ⟨still, log⟩ := le.ended ended
  constructor
  · rintro ⟨other, again, running⟩
    rw [later, Option.some.injEq] at again
    rw [again, running] at still
    cases still
  · rw [logOf, logOf, later, found, Option.map_some, Option.map_some, Option.getD_some, Option.getD_some, log]

end ProcessSystem

end McpSsh
