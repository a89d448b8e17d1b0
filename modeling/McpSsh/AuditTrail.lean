import McpSsh.Ansi
import McpSsh.Audit
import McpSsh.JumpChain
import McpSsh.Launch
import McpSsh.ProcessRuns
import McpSsh.StateRecords
import McpSsh.Base.Traced

/-!
# An audit event for every remote action

`ssh_exec`, `start_process`, `kill_process` and `pty_write`, call by call: when the
request has reached the server and which events are logged after that. A request can fail
before or after it was sent.
-/

set_option autoImplicit false

namespace McpSsh

open Base

/-! ## Calls that send something -/

/-- An exception: `TimeoutError`, `McpSshError`, or another one. -/
inductive Raised where
  | timeout
  | mcpSsh (message : String)
  | other (message : String)
deriving DecidableEq

/-- `str` of the exception. -/
def Raised.message : Raised → String
  | .timeout => ""
  | .mcpSsh message => message
  | .other message => message

/-- How waiting for a request ended: with the result of a remote command, with input that
went through, or with an exception. -/
inductive Ending where
  | answered (result : CommandResult)
  | written
  | raised (e : Raised)
deriving DecidableEq

inductive Moment where
  | sent (server : String) (text : List Char) (ending : Ending)
  | logged (event : AuditEvent)

abbrev RemoteCall := Traced Moment Raised

/-- Whether a request reached the server, and how waiting for it ended. -/
structure RemoteReply (α : Type) where
  sent : Bool
  result : Except Raised α

def RemoteReply.ending {α : Type} (value : α → Ending) (reply : RemoteReply α) : Ending :=
  match reply.result with
  | .ok a => value a
  | .error e => .raised e

def RemoteCall.send {α : Type} (value : α → Ending) (server : String) (text : List Char) (reply : RemoteReply α) :
    RemoteCall α :=
  ⟨if reply.sent then [.sent server text (reply.ending value)] else [], reply.result⟩

/-- `conn.run`. -/
def RemoteCall.run (server : String) (text : List Char) (reply : RemoteReply CommandResult) : RemoteCall CommandResult :=
  RemoteCall.send .answered server text reply

/-- `stdin.write` and `drain`. -/
def RemoteCall.feed (server : String) (text : List Char) (reply : RemoteReply Unit) : RemoteCall Unit :=
  RemoteCall.send (fun _ => .written) server text reply

def RemoteCall.log (event : AuditEvent) : RemoteCall Unit := Traced.record (.logged event)

/-- `int` of a stripped string; `none` where it raises `ValueError`. -/
def pyInt (s : String) : Option Int :=
  let unsigned (digits : List Char) : Option Nat :=
    if (digits.splitOn '_').all fun group => !group.isEmpty then intOf (digits.filter (· ≠ '_')) else none
  match s.toList with
  | '-' :: digits => (unsigned digits).map fun n => -(n : Int)
  | '+' :: digits => (unsigned digits).map fun n => (n : Int)
  | digits => (unsigned digits).map fun n => (n : Int)

/-! ## What an event says -/

/-- The PID in the answer of a launch. -/
def CommandResult.pid (result : CommandResult) : Option Int :=
  (pyInt (stripText (result.stdout.getD ""))).filter fun pid => 0 < pid

/-- The event describes how the request ended. An event of the outcome `error`, as the
file tools log it, would describe an exception, a command that failed or an answer without
a PID. -/
inductive Describes (event : AuditEvent) : Ending → Prop where
  | completed {result : CommandResult} (outcome : event.outcome = "completed")
      (code : ("exit_code", .int (result.exitStatus.getD (-1))) ∈ event.detail) : Describes event (.answered result)
  | started {result : CommandResult} {pid : Int} (outcome : event.outcome = "started") (launched : result.pid = some pid)
      (named : ("remote_pid", .int pid) ∈ event.detail) : Describes event (.answered result)
  /-- The signal was delivered. -/
  | killed {result : CommandResult} (outcome : event.outcome = "killed") (went : result.exitStatus = some 0) :
      Describes event (.answered result)
  /-- tmux took the keys. -/
  | typed {result : CommandResult} (outcome : event.outcome = "written") (went : result.exitStatus = some 0) :
      Describes event (.answered result)
  | written (outcome : event.outcome = "written") : Describes event .written
  | timeout (outcome : event.outcome = "timeout") : Describes event (.raised .timeout)
  | raised {e : Raised} (outcome : event.outcome = "error") (message : ("error", .text e.message) ∈ event.detail) :
      Describes event (.raised e)
  | failed {result : CommandResult} (outcome : event.outcome = "error") (went : result.exitStatus ≠ some 0) :
      Describes event (.answered result)
  | unreadable {result : CommandResult} (outcome : event.outcome = "error") (starts : event.tool = "start_process")
      (none_ : result.pid = none) : Describes event (.answered result)

/-- Whatever was sent to the server is followed by an event of this tool and server that
describes how it ended. -/
def Audited (tool server : String) : List Moment → Prop
  | [] => True
  | .sent _ _ ending :: rest =>
    (∃ event, .logged event ∈ rest ∧ event.tool = tool ∧ event.server = some server ∧ Describes event ending) ∧
      Audited tool server rest
  | .logged _ :: rest => Audited tool server rest

/-- The variables of an `env` argument. -/
def envVars (env : Dict String String) : List EnvVar := env.items.map fun e => ⟨e.1.toList, e.2.toList⟩

/-! ## `ssh_exec` -/

/-- A number of seconds, which is only passed on. -/
inductive Seconds where
  | int (n : Int)
  | float (x : PyFloat)
deriving DecidableEq

def Seconds.text : Seconds → String
  | .int n => toString n
  | .float x => x.text

def Seconds.datum : Seconds → Datum
  | .int n => .int n
  | .float x => .float x

structure ExecRequest where
  server : String
  command : String
  cwd : Option String := none
  env : Option (Dict String String) := none
  timeout : Option Seconds := some (.int 30)

/-- What the parts of a call of `ssh_exec` come to. -/
structure ExecOutcome where
  config : Option ServerConfig
  connection : Except Raised Unit
  reply : RemoteReply CommandResult

def errorAnswer (code server message : String) : Record :=
  [("error", .text code), ("server", .text server), ("message", .text message)]

section

-- `repr` of a string
variable (repr : String → String)

/-- The command is run, and its outcome becomes the answer. -/
def runExec (request : ExecRequest) (text : List Char) (reply : RemoteReply CommandResult) : RemoteCall Record := do
  let outcome ← Traced.handle (do return Except.ok (← RemoteCall.run request.server text reply)) fun
    | .timeout => do
      RemoteCall.log { tool := "ssh_exec", server := some request.server, command := some request.command
                       outcome := "timeout"
                       detail := [("timeout_s", (request.timeout.map Seconds.datum).getD .none)] }
      return .error [("error", .text "timeout"), ("server", .text request.server), ("command", .text request.command),
        ("message", .text ("Command timed out after " ++
          ((request.timeout.map Seconds.text).getD "None") ++ " s."))]
    | .mcpSsh message => return .error (errorAnswer "execution_error" request.server message)
    | .other message => return .error (errorAnswer "unexpected_error" request.server message)
  match outcome with
  | .error answer => return answer
  | .ok result =>
    let output := Ansi.stripAnsi ((result.stdout.getD "").toList ++ (result.stderr.getD "").toList)
    let exitCode := result.exitStatus.getD (-1)
    RemoteCall.log { tool := "ssh_exec", server := some request.server, command := some request.command
                     outcome := "completed", detail := [("exit_code", .int exitCode)] }
    return [("output", .text (String.ofList output)), ("exit_code", .int exitCode), ("server", .text request.server)]

/-- `ssh_exec`. -/
def sshExec (request : ExecRequest) (w : ExecOutcome) : RemoteCall Record := do
  (if request.timeout = none then
    RemoteCall.log { tool := "ssh_exec", server := some request.server, command := some request.command
                     outcome := "warn_no_timeout"
                     detail := [("cwd", (request.cwd.map Datum.text).getD .none),
                       ("env_keys", .texts ((request.env.getD .empty).keys))] }
  else pure ())
  match w.config with
  | none =>
    return errorAnswer "server_not_found" request.server ("Server " ++ repr request.server ++ " is not registered.")
  | some cfg =>
    let cwd := request.cwd.or cfg.defaultCwd
    let env := (request.env.getD .empty).items.foldl (fun d e => d.insert e.1 e.2) cfg.defaultEnv
    match w.connection with
    | .error (.mcpSsh message) => return errorAnswer "connection_error" request.server message
    | .error e => Traced.raise e
    | .ok () => runExec request (fullCmd (cwd.map String.toList) (envVars env) request.command.toList) w.reply

/-! ## `start_process` -/

structure StartRequest where
  /-- The fresh `process_id`. -/
  id : ProcessId
  server : String
  command : String
  cwd : Option String
  env : Option (Dict String String)

/-- What the parts of a call of `start_process` come to; `detected` is the answer of
`_detect_flush_wrapper`, and `saved` that of `upsert_process`. -/
structure StartOutcome where
  connection : Except Raised Unit
  detected : Except Raised FlushWrapper
  reply : RemoteReply CommandResult
  saved : Except Raised Unit

/-- The PID is read from the answer, and the process is recorded. -/
def recordStart (request : StartRequest) (result : CommandResult) (saved : Except Raised Unit) : RemoteCall ProcessId := do
  let stdout := stripText (result.stdout.getD "")
  match pyInt stdout with
  | none => Traced.raise (.mcpSsh ("start_process: expected integer PID from remote, got " ++ repr stdout))
  | some pid =>
    if pid ≤ 0 then
      Traced.raise (.mcpSsh ("start_process: invalid PID " ++ toString pid ++ " returned by remote (must be > 0)"))
    else
      Traced.wait saved
      RemoteCall.log { tool := "start_process", server := some request.server, command := some request.command
                       processId := some (String.ofList request.id.text), outcome := "started"
                       detail := [("remote_pid", .int pid)] }
      return request.id

/-- `start_process`. -/
def startProcess (request : StartRequest) (w : StartOutcome) : RemoteCall ProcessId := do
  Traced.wait w.connection
  let wrapper ← Traced.wait w.detected
  let text := remoteCmd wrapper request.id (request.cwd.map String.toList) (envVars (request.env.getD .empty))
    request.command.toList
  let result ← RemoteCall.run request.server text w.reply
  recordStart repr request result w.saved

/-! ## `kill_process` -/

/-- What the parts of a call of `kill_process` come to. -/
structure KillOutcome where
  record : Option ProcessRecord
  connection : Except Raised Unit
  reply : RemoteReply CommandResult
  saved : Except Raised Unit

/-- `kill_process`. -/
def killProcess (id signal : String) (w : KillOutcome) : RemoteCall Unit := do
  match w.record with
  | none => Traced.raise (.mcpSsh ("Process " ++ repr id ++ " not found"))
  | some record =>
    if signal ∉ allowedSignals then Traced.raise (.mcpSsh ("Signal " ++ repr signal ++ " not allowed"))
    else
      Traced.wait w.connection
      let _ ← RemoteCall.run record.server ("kill -" ++ signal ++ " " ++ toString record.remotePid).toList w.reply
      Traced.wait w.saved
      RemoteCall.log { tool := "kill_process", server := some record.server, processId := some id, outcome := "killed"
                       detail := [("signal", .text signal), ("remote_pid", .int record.remotePid)] }

/-! ## `pty_write` -/

/-- What the parts of a call of `pty_write` come to. -/
structure PtyWriteOutcome where
  session : Option SessionRecord
  /-- The session is in `_pty_procs`. -/
  process : Bool
  tmuxSession : Option String
  /-- The session is in `_tmux_conns`. -/
  connection : Bool
  /-- Of `stdin.write` and `drain`. -/
  input : RemoteReply Unit
  /-- Of `tmux send-keys`. -/
  keys : RemoteReply CommandResult

/-- `tmux send-keys`. -/
def sendKeysCommand (window data : String) : List Char :=
  "tmux send-keys -t ".toList ++ Shell.quote window.toList ++ " -- ".toList ++ Shell.quote data.toList

/-- The data goes to the session, if there is a handle for it. What tmux answers is not
looked at. -/
def sendPtyInput (data : String) (w : PtyWriteOutcome) (session : SessionRecord) : RemoteCall Unit :=
  if session.useTmux then
    if w.connection then do
      let _ ← RemoteCall.run session.server (sendKeysCommand (w.tmuxSession.getD "") data) w.keys
    else pure ()
  else if w.process then RemoteCall.feed session.server data.toList w.input
  else pure ()

/-- `pty_write`. -/
def sendPtyWrite (id data : String) (w : PtyWriteOutcome) : RemoteCall Unit := do
  match w.session with
  | none => Traced.raise (.mcpSsh ("Session " ++ repr id ++ " not found"))
  | some session =>
    sendPtyInput data w session
    RemoteCall.log { tool := "pty_write", server := some session.server, sessionId := some id, outcome := "written"
                     detail := [("bytes", .int data.length)] }

/-! ## The gaps -/

/-- A call of one of the four, with what its parts come to. -/
inductive AuditedCall where
  | exec (request : ExecRequest) (w : ExecOutcome)
  | start (request : StartRequest) (w : StartOutcome)
  | kill (id signal : String) (w : KillOutcome)
  | write (id data : String) (w : PtyWriteOutcome)

namespace AuditedCall

def trace : AuditedCall → List Moment
  | exec request w => (sshExec repr request w).trace
  | start request w => (startProcess repr request w).trace
  | kill id signal w => (killProcess repr id signal w).trace
  | write id data w => (sendPtyWrite repr id data w).trace

def tool : AuditedCall → String
  | exec .. => "ssh_exec"
  | start .. => "start_process"
  | kill .. => "kill_process"
  | write .. => "pty_write"

/-- The server that the call is about, if it is about one. -/
def server : AuditedCall → Option String
  | exec request _ => some request.server
  | start request _ => some request.server
  | kill _ _ w => w.record.map ProcessRecord.server
  | write _ _ w => w.session.map SessionRecord.server

/-- The request of the call has been sent, and the call goes on to the exit that waiting
for it leads to. -/
def Sends : AuditedCall → Prop
  | exec _ w => w.config.isSome = true ∧ w.connection = .ok () ∧ w.reply.sent = true
  | start _ w => w.connection = .ok () ∧ (∃ wrapper, w.detected = .ok wrapper) ∧ w.reply.sent = true
  | kill _ signal w => w.record.isSome = true ∧ signal ∈ allowedSignals ∧ w.connection = .ok () ∧ w.reply.sent = true
  | write _ _ w => ∃ session, w.session = some session ∧
      if session.useTmux then w.connection = true ∧ w.keys.sent = true else w.process = true ∧ w.input.sent = true

/-- The exits whose event is true: a result, or a timeout of `ssh_exec`; a PID, and a state
that can be saved; a signal that was delivered, and a state that can be saved; input that
went through. -/
def Logs : AuditedCall → Prop
  | exec _ w => (∃ result, w.reply.result = .ok result) ∨ w.reply.result = .error .timeout
  | start _ w => (∃ result, w.reply.result = .ok result ∧ result.pid.isSome = true) ∧ w.saved = .ok ()
  | kill _ _ w => (∃ result, w.reply.result = .ok result ∧ result.exitStatus = some 0) ∧ w.saved = .ok ()
  | write _ _ w => ∀ session, w.session = some session →
      if session.useTmux then ∃ result, w.keys.result = .ok result ∧ result.exitStatus = some 0
      else w.input.result = .ok ()

end AuditedCall

end

/-! ## Exit by exit -/

/-- A kill and keys for tmux are described only if they went through. -/
theorem describes_answered_iff {event : AuditEvent} {result : CommandResult}
    (outcome : event.outcome = "killed" ∨ event.outcome = "written") :
    Describes event (.answered result) ↔ result.exitStatus = some 0 := by
  constructor
  · intro describes
    cases describes with
    | killed _ went => exact went
    | typed _ went => exact went
    | completed other => simp [other] at outcome
    | started other => simp [other] at outcome
    | failed other => simp [other] at outcome
    | unreadable other => simp [other] at outcome
  · intro went
    obtain killed | written := outcome
    · exact .killed killed went
    · exact .typed written went

section

variable {tool server : String}

/-- Moments of logging only, among them an event of this tool and server that describes
the ending. -/
def Told (tool server : String) (ending : Ending) (moments : List Moment) : Prop :=
  ∃ event, .logged event ∈ moments ∧ event.tool = tool ∧ event.server = some server ∧ Describes event ending

/-- A block that sends nothing and then ends. -/
def Silent (moments : List Moment) : Prop := ∀ at_ text ending, .sent at_ text ending ∉ moments

theorem audited_append_iff {a b : List Moment} (silent : Silent a) :
    Audited tool server (a ++ b) ↔ Audited tool server b := by
  induction a with
  | nil => rfl
  | cons m a ih =>
    have rest := ih fun at_ text ending member => silent at_ text ending (List.mem_cons_of_mem _ member)
    cases m with
    | sent at_ text ending => exact absurd List.mem_cons_self (silent at_ text ending)
    | logged event => exact rest

theorem audited_of_silent {a : List Moment} (silent : Silent a) : Audited tool server a := by
  rw [← List.append_nil a, audited_append_iff silent]
  trivial

/-- A request, and what comes after it. -/
theorem audited_send_iff {α : Type} {value : α → Ending} {text : List Char} {reply : RemoteReply α}
    {rest : List Moment} (silent : Silent rest) :
    Audited tool server ((RemoteCall.send value server text reply).trace ++ rest) ↔
      (reply.sent = true → Told tool server (reply.ending value) rest) := by
  rw [RemoteCall.send]
  split
  · rename_i sent
    simp only [List.cons_append, List.nil_append, Audited, audited_of_silent silent, and_true, sent, true_imp_iff, Told]
  · rename_i sent
    exact iff_of_true (audited_of_silent silent) fun s => absurd s sent

theorem not_told_nil {ending : Ending} : ¬ Told tool server ending [] := fun ⟨_, member, _⟩ => nomatch member

theorem told_singleton_iff {event : AuditEvent} {ending : Ending} (names : event.tool = tool ∧ event.server = some server) :
    Told tool server ending [.logged event] ↔ Describes event ending := by
  constructor
  · rintro ⟨other, member, -, -, describes⟩
    obtain rfl := Moment.logged.inj (List.mem_singleton.mp member)
    exact describes
  · exact fun describes => ⟨event, List.mem_singleton_self _, names.1, names.2, describes⟩

theorem silent_singleton {event : AuditEvent} : Silent [.logged event] := by
  intro at_ text ending member
  cases List.mem_singleton.mp member

theorem silent_nil : Silent [] := by
  intro at_ text ending member
  cases member

section

variable {α β : Type} {value : α → Ending} {text : List Char} {reply : RemoteReply α} {rest : α → RemoteCall β}

theorem audited_answered_iff {a : α} (answered : reply.result = .ok a) (silent : Silent (rest a).trace) :
    Audited tool server (RemoteCall.send value server text reply >>= rest).trace ↔
      (reply.sent = true → Told tool server (value a) (rest a).trace) := by
  have ending : reply.ending value = value a := by rw [RemoteReply.ending, answered]
  rw [Traced.bind_ok (show (RemoteCall.send value server text reply).result = .ok a from answered), ← ending]
  exact audited_send_iff silent

theorem audited_raised_iff {e : Raised} (raised : reply.result = .error e) :
    Audited tool server (RemoteCall.send value server text reply >>= rest).trace ↔ ¬ reply.sent = true := by
  rw [Traced.bind_error (show (RemoteCall.send value server text reply).result = .error e from raised)]
  have tail := @audited_send_iff tool server α value text reply [] silent_nil
  rw [List.append_nil] at tail
  exact tail.trans ⟨fun told sent => not_told_nil (told sent), fun unsent sent => absurd sent unsent⟩

end

end

/-! ## Tool by tool -/

section

variable (repr : String → String)

/-- A result and a timeout have an event of their own. -/
theorem runExec_tells {request : ExecRequest} {text : List Char} {reply : RemoteReply CommandResult}
    (logs : (∃ result, reply.result = .ok result) ∨ reply.result = .error .timeout) :
    ∃ event : AuditEvent, (event.tool = "ssh_exec" ∧ event.server = some request.server) ∧
      Describes event (reply.ending .answered) ∧
      (runExec request text reply).trace = (RemoteCall.run request.server text reply).trace ++ [.logged event] := by
  obtain ⟨sent, outcome⟩ := reply
  obtain ⟨result, rfl⟩ | rfl := logs
  · cases sent with
    | false => exact ⟨_, ⟨rfl, rfl⟩, .completed rfl (List.mem_singleton_self _), rfl⟩
    | true => exact ⟨_, ⟨rfl, rfl⟩, .completed rfl (List.mem_singleton_self _), rfl⟩
  · cases sent with
    | false => exact ⟨_, ⟨rfl, rfl⟩, .timeout rfl, rfl⟩
    | true => exact ⟨_, ⟨rfl, rfl⟩, .timeout rfl, rfl⟩

/-- Every other exception is only returned. -/
theorem runExec_silent {request : ExecRequest} {text : List Char} {reply : RemoteReply CommandResult}
    (silent : ¬ ((∃ result, reply.result = .ok result) ∨ reply.result = .error .timeout)) :
    (runExec request text reply).trace = (RemoteCall.run request.server text reply).trace ++ [] := by
  obtain ⟨sent, outcome⟩ := reply
  cases outcome with
  | ok result => exact absurd (.inl ⟨result, rfl⟩) silent
  | error e =>
    cases e with
    | timeout => exact absurd (.inr rfl) silent
    | mcpSsh message => cases sent <;> rfl
    | other message => cases sent <;> rfl

theorem audited_runExec_iff {request : ExecRequest} {text : List Char} {reply : RemoteReply CommandResult} :
    Audited "ssh_exec" request.server (runExec request text reply).trace ↔
      (reply.sent = true → (∃ result, reply.result = .ok result) ∨ reply.result = .error .timeout) := by
  by_cases logs : (∃ result, reply.result = .ok result) ∨ reply.result = .error .timeout
  · obtain ⟨event, names, describes, trace⟩ := @runExec_tells request text reply logs
    rw [trace, RemoteCall.run, audited_send_iff silent_singleton]
    exact iff_of_true (fun _ => (told_singleton_iff names).mpr describes) fun _ => logs
  · rw [runExec_silent logs, RemoteCall.run, audited_send_iff silent_nil]
    exact imp_congr_right fun _ => iff_of_false not_told_nil logs

/-- The event of a call without a timeout is logged before anything is sent. -/
theorem audited_exec_iff {request : ExecRequest} {w : ExecOutcome} :
    Audited "ssh_exec" request.server (sshExec repr request w).trace ↔
      ((AuditedCall.exec request w).Sends → (AuditedCall.exec request w).Logs) := by
  obtain ⟨config, connection, reply⟩ := w
  rw [sshExec, @Traced.bind_ok _ _ _ _ _ () (by split <;> rfl),
    audited_append_iff (by split; exacts [silent_singleton, silent_nil])]
  cases config with
  | none => exact iff_of_true trivial fun sends => absurd sends.1 Bool.false_ne_true
  | some cfg =>
    cases connection with
    | error e =>
      refine iff_of_true ?_ fun sends => absurd sends.2.1 nofun
      cases e <;> trivial
    | ok _ =>
      exact audited_runExec_iff.trans ⟨fun logs sends => logs sends.2.2, fun logs sent => logs ⟨rfl, rfl, sent⟩⟩

/-! ### `start_process` -/

/-- What follows the answer: nothing, or the event of the start with the PID. -/
theorem recordStart_trace {request : StartRequest} {result : CommandResult} {saved : Except Raised Unit} :
    Silent (recordStart repr request result saved).trace ∧
      (Told "start_process" request.server (.answered result) (recordStart repr request result saved).trace ↔
        result.pid.isSome = true ∧ saved = .ok ()) := by
  rw [recordStart, CommandResult.pid]
  cases parsed : pyInt (stripText (result.stdout.getD "")) with
  | none => exact ⟨silent_nil, iff_of_false not_told_nil fun logs => Bool.false_ne_true logs.1⟩
  | some pid =>
    by_cases positive : pid ≤ 0
    · have none_ : (some pid).filter (fun pid => decide (0 < pid)) = none := by
        rw [Option.filter_some, if_neg (by simpa using positive)]
      simp only [if_pos positive, none_]
      exact ⟨silent_nil, iff_of_false not_told_nil fun logs => Bool.false_ne_true logs.1⟩
    · have some_ : (some pid).filter (fun pid => decide (0 < pid)) = some pid := by
        rw [Option.filter_some, if_pos (by simpa using positive)]
      simp only [if_neg positive, some_]
      cases saved with
      | error e => exact ⟨silent_nil, iff_of_false not_told_nil fun logs => nomatch logs.2⟩
      | ok _ =>
        have launched : result.pid = some pid := by rw [CommandResult.pid, parsed, some_]
        refine ⟨silent_singleton, iff_of_true ((told_singleton_iff ⟨rfl, rfl⟩).mpr ?_) ⟨rfl, rfl⟩⟩
        exact .started rfl launched (List.mem_singleton_self _)

theorem audited_start_iff {request : StartRequest} {w : StartOutcome} :
    Audited "start_process" request.server (startProcess repr request w).trace ↔
      ((AuditedCall.start request w).Sends → (AuditedCall.start request w).Logs) := by
  obtain ⟨connection, detected, reply, saved⟩ := w
  cases connection with
  | error e => exact iff_of_true trivial fun sends => nomatch sends.1
  | ok _ =>
    cases detected with
    | error e => exact iff_of_true trivial fun sends => nomatch sends.2.1
    | ok wrapper =>
      rw [startProcess, Traced.wait_ok_bind, Traced.wait_ok_bind]
      simp only [RemoteCall.run, AuditedCall.Sends, AuditedCall.Logs, Except.ok.injEq, exists_eq', true_and]
      cases result : reply.result with
      | error e =>
        rw [audited_raised_iff result]
        refine imp_congr_right fun _ => iff_of_false not_false ?_
        rintro ⟨⟨_, done, -⟩, -⟩
        cases done
      | ok answer =>
        have tail := @recordStart_trace repr request answer saved
        rw [audited_answered_iff result (by exact tail.1), tail.2]
        refine imp_congr_right fun _ => and_congr_left fun _ => ?_
        constructor
        · exact fun launched => ⟨answer, rfl, launched⟩
        · rintro ⟨_, done, launched⟩
          cases done
          exact launched

/-! ### `kill_process` -/

theorem audited_kill_iff {id signal : String} {w : KillOutcome} {record : ProcessRecord} (found : w.record = some record) :
    Audited "kill_process" record.server (killProcess repr id signal w).trace ↔
      ((AuditedCall.kill id signal w).Sends → (AuditedCall.kill id signal w).Logs) := by
  obtain ⟨_, connection, reply, saved⟩ := w
  cases found
  rw [killProcess]
  by_cases allowed : signal ∈ allowedSignals
  · cases connection with
    | error e =>
      simp only [not_not.mpr allowed, if_false]
      exact iff_of_true trivial fun sends => nomatch sends.2.2.1
    | ok _ =>
      simp only [AuditedCall.Sends, AuditedCall.Logs, Option.isSome_some, allowed, true_and, not_true_eq_false, if_false,
        Traced.wait_ok_bind, RemoteCall.run]
      cases result : reply.result with
      | error e =>
        rw [audited_raised_iff result]
        refine imp_congr_right fun _ => iff_of_false not_false ?_
        rintro ⟨⟨_, done, -⟩, -⟩
        cases done
      | ok answer =>
        cases saved with
        | error e =>
          rw [audited_answered_iff result silent_nil]
          exact imp_congr_right fun _ => iff_of_false not_told_nil fun logs => nomatch logs.2
        | ok _ =>
          rw [audited_answered_iff result silent_singleton]
          refine imp_congr_right fun _ => ?_
          refine (told_singleton_iff ⟨rfl, rfl⟩).trans ((describes_answered_iff (.inl rfl)).trans ?_)
          constructor
          · exact fun went => ⟨⟨answer, rfl, went⟩, rfl⟩
          · rintro ⟨⟨_, done, went⟩, -⟩
            cases done
            exact went
  · simp only [allowed, not_false_eq_true, if_true]
    exact iff_of_true trivial fun sends => absurd sends.2.1 allowed

/-! ### `pty_write` -/

/-- An event behind input that is sent, and answered as it may be. -/
theorem audited_sent_then_iff {α : Type} {value : α → Ending} {server : String} {text : List Char}
    {reply : RemoteReply α} {event : AuditEvent} (names : event.tool = "pty_write" ∧ event.server = some server)
    {good : α → Prop} (describes : ∀ a, Describes event (value a) ↔ good a) :
    Audited "pty_write" server (RemoteCall.send value server text reply >>= fun _ => RemoteCall.log event).trace ↔
      (reply.sent = true → ∃ a, reply.result = .ok a ∧ good a) := by
  cases result : reply.result with
  | error e =>
    rw [audited_raised_iff result]
    refine imp_congr_right fun _ => iff_of_false not_false ?_
    rintro ⟨_, done, -⟩
    cases done
  | ok answer =>
    rw [audited_answered_iff result silent_singleton]
    refine imp_congr_right fun _ => ((told_singleton_iff names).trans (describes answer)).trans ?_
    constructor
    · exact fun went => ⟨answer, rfl, went⟩
    · rintro ⟨_, done, went⟩
      cases done
      exact went

theorem audited_write_iff {id data : String} {w : PtyWriteOutcome} {session : SessionRecord}
    (found : w.session = some session) :
    Audited "pty_write" session.server (sendPtyWrite repr id data w).trace ↔
      ((AuditedCall.write id data w).Sends → (AuditedCall.write id data w).Logs) := by
  obtain ⟨_, process, window, connection, input, keys⟩ := w
  cases found
  simp only [sendPtyWrite, sendPtyInput, AuditedCall.Sends, AuditedCall.Logs, Option.some.injEq, exists_eq_left',
    forall_eq']
  cases tmux : session.useTmux with
  | true =>
    cases connection with
    | false => exact iff_of_true trivial fun sends => absurd sends.1 Bool.false_ne_true
    | true =>
      simp only [if_true, true_and, Traced.discard_bind, RemoteCall.run]
      apply audited_sent_then_iff ⟨rfl, rfl⟩
      intro result
      exact describes_answered_iff (.inr rfl)
  | false =>
    cases process with
    | false => exact iff_of_true trivial fun sends => absurd sends.1 Bool.false_ne_true
    | true =>
      simp only [Bool.false_eq_true, if_false, if_true, true_and]
      refine (audited_sent_then_iff ⟨rfl, rfl⟩ fun _ => iff_true_intro (.written rfl)).trans ?_
      exact imp_congr_right fun _ => ⟨fun ⟨_, done, _⟩ => done, fun done => ⟨(), done, trivial⟩⟩

/-! ## The condition -/

theorem audited_at_iff {tool server : String} {moments : List Moment} :
    (∀ at_, some server = some at_ → Audited tool at_ moments) ↔ Audited tool server moments :=
  ⟨fun audited => audited server rfl, fun audited _ same => Option.some.inj same ▸ audited⟩

/-- **What was sent is followed by an event that describes it** exactly at the exits whose
event is true: not when waiting ended in an exception other than the timeout of `ssh_exec`,
when the answer held no PID, when the state could not be saved, or when `kill` or tmux
refused. -/
theorem audited_iff (call : AuditedCall) :
    (∀ server, call.server = some server → Audited call.tool server (call.trace repr)) ↔ (call.Sends → call.Logs) := by
  cases call with
  | exec request w => exact audited_at_iff.trans (audited_exec_iff repr)
  | start request w => exact audited_at_iff.trans (audited_start_iff repr)
  | kill id signal w =>
    cases found : w.record with
    | none =>
      refine iff_of_true (fun _ about => ?_) fun sends => ?_
      · rw [AuditedCall.server, found] at about
        cases about
      · rw [AuditedCall.Sends, found] at sends
        cases sends.1
    | some record =>
      rw [AuditedCall.server, found]
      exact audited_at_iff.trans (audited_kill_iff repr found)
  | write id data w =>
    cases found : w.session with
    | none =>
      refine iff_of_true (fun _ about => ?_) fun sends => ?_
      · rw [AuditedCall.server, found] at about
        cases about
      · rw [AuditedCall.Sends, found] at sends
        obtain ⟨_, ⟨⟩, -⟩ := sends
    | some session =>
      rw [AuditedCall.server, found]
      exact audited_at_iff.trans (audited_write_iff repr found)

/-- **A command whose connection breaks while it runs has no event.** -/
theorem lost_exec_unaudited : ¬ ∀ (call : AuditedCall) (server : String), call.server = some server →
    Audited call.tool server (call.trace id) := by
  intro claim
  let request : ExecRequest := { server := "web", command := "reboot" }
  let w : ExecOutcome :=
    { config := some { name := "web", host := "10.0.0.5", user := "root", authType := .agent }
      connection := .ok ()
      reply := ⟨true, .error (.other "Connection lost")⟩ }
  have logs := (@audited_exec_iff id request w).mp (claim (.exec request w) "web" rfl) ⟨rfl, rfl, rfl⟩
  obtain ⟨_, ⟨⟩⟩ | ⟨⟨⟩⟩ := logs

end

end McpSsh
