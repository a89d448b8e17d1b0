import McpSsh.PtyText
import McpSsh.StateRecords
import McpSsh.Base.Dict
import McpSsh.Base.Text
import McpSsh.Base.Trace

/-!
# PTY sessions

The PTY half of `session.py` over the session records of the state store. A call runs
from one `await` to the next in one step; between any two steps other calls, the
server and a restart may take theirs. A PTY process and a tmux window are known by
the session whose start created them.
-/

set_option autoImplicit false

namespace McpSsh

open Base

/-! ## Data -/

/-- Where `start_pty` looks for the session cap. -/
structure SessionLimits where
  /-- `max_sessions` of the servers in the registry, if there is one. -/
  registry : Option (Dict String (Option Int))
  /-- `_servers`. -/
  servers : Dict String (Option Int)
  /-- `settings.max_sessions`. -/
  maxSessions : Int

def SessionLimits.perServer (limits : SessionLimits) (server : String) : Option Int :=
  match limits.registry with
  | some registry => (registry.get? server).join
  | none => (limits.servers.get? server).join

def SessionLimits.limit (limits : SessionLimits) (server : String) : Int :=
  (limits.perServer server).getD limits.maxSessions

/-- The arguments of `start_pty`, and the session id it draws. -/
structure PtyStart where
  id : String
  server : String
  command : Option String
  cols : Int
  rows : Int
  useTmux : Bool

/-- `tmux_session`. -/
def tmuxName (id : String) : String := "mcp-" ++ String.ofList (id.toList.take 8)

/-- `log_file`. -/
def ptyLogFile (id : String) : String := "/tmp/mcp-pty-" ++ id ++ ".log"

def PtyStart.record (start : PtyStart) (now : Timestamp) : SessionRecord where
  id := start.id
  server := start.server
  command := start.command
  useTmux := start.useTmux
  tmuxWindow := if start.useTmux then some (tmuxName start.id) else none
  startedAt := now
  status := .running

/-- An entry of `_pty_procs`. -/
structure PtyProcess where
  /-- The session whose start created it. -/
  session : String
  closing : Bool := false

/-- An entry of `_drain_tasks`. -/
inductive DrainTask where
  | reading
  | ended

/-- A call of a session's operations at an `await`; connections are known by their server. -/
inductive PtyCall where
  /-- `get_connection`. -/
  | connect (start : PtyStart)
  /-- `create_process`. -/
  | create (start : PtyStart)
  | whichTmux (start : PtyStart)
  | newSession (start : PtyStart)
  | pipePane (start : PtyStart)
  | capturePane (server window id : String) (maxBytes : Int)
  | hasSession (server window id : String) (maxBytes : Int) (captured : List Char)
  /-- `stdin.drain()`. -/
  | stdinDrain (session : SessionRecord) (id data : String)
  | sendKeys (server window : String) (session : SessionRecord) (id data : String)
  | resizeWindow (server window : String) (session : SessionRecord) (id : String) (cols rows : Int)

/-- What an `await` comes back with. -/
structure PtyReply where
  /-- What a remote command printed. -/
  stdout : List Char := []
  /-- A remote command has run, and tmux has accepted it. -/
  ran : Bool := true
  raises : Bool := false

inductive PtyError where
  | sessionCapExceeded (server : String) (limit : Int) (active : Nat)
  | sessionNotFound (id : String)
  | tmuxNotAvailable (server : String)
  /-- An exception of the connection, of a process handle or of the state file. -/
  | raised
deriving DecidableEq

/-- What a call returns or raises. -/
inductive PtyAnswer where
  | started (id : String)
  | output (id : String) (text : List Char) (alive : Bool)
  | written (id : String) (data : String)
  | resized (id : String) (cols rows : Int)
  | closed (id : String)
  | failed (error : PtyError)
deriving DecidableEq

inductive AuditDetail where
  | started (cols rows : Int)
  | startedTmux (window : String)
  | bytes (count : Nat)
  | size (cols rows : Int)
  | closed (useTmux : Bool)
deriving DecidableEq

/-- An `AuditEvent`, without the clock. -/
structure PtyAudit where
  tool : String
  server : String
  command : Option String := none
  sessionId : String
  outcome : String
  detail : AuditDetail
deriving DecidableEq

/-- How input reaches a session. -/
inductive InputWay where
  | stdin
  | sendKeys
deriving DecidableEq

/-- Input that a call has handed to a session's PTY process or tmux window. -/
structure Delivery where
  call : Nat
  way : InputWay
  session : String
  data : String
deriving DecidableEq

/-- The session manager, the state store, the tmux windows of the servers, and what has
happened so far. -/
structure PtySystem where
  /-- `_sessions` of the store. -/
  sessions : Dict String SessionRecord
  /-- The sessions of the state file. -/
  saved : Dict String SessionRecord
  procs : Dict String PtyProcess := .empty
  buffers : Dict String PtyBuffer := .empty
  drains : Dict String DrainTask := .empty
  tmuxLogs : Dict String String := .empty
  tmuxSessions : Dict String String := .empty
  /-- The server of each connection. -/
  tmuxConns : Dict String String := .empty
  calls : Dict Nat PtyCall := .empty
  /-- The number of the next call. -/
  next : Nat := 0
  /-- Session ids drawn so far. -/
  issued : List String
  /-- By server and name, the session whose start created the window. -/
  windows : Dict (String × String) String := .empty
  delivered : List Delivery := []
  answers : List (Nat × PtyAnswer) := []
  audit : List PtyAudit := []

inductive PtyEvent where
  | start (start : PtyStart)
  | read (id : String) (maxBytes : Int)
  /-- `works`: `stdin.write` does not raise. -/
  | write (id : String) (data : String) (works : Bool)
  /-- `works`: `change_terminal_size` does not raise. -/
  | resize (id : String) (cols rows : Int) (works : Bool)
  /-- `works`: the state file is written. -/
  | close (id : String) (works : Bool)
  | resume (call : Nat) (reply : PtyReply) (now : Timestamp) (works : Bool)
  /-- `_drain_pty` reads a chunk, an empty one at the end. -/
  | drained (id : String) (chunk : List Char)
  | drainFails (id : String)
  /-- The channel of a PTY process closes. -/
  | exits (id : String)
  | windowGone (server window : String)
  | restart

namespace PtySystem

variable (s : PtySystem)

/-! ## Parts of the operations -/

/-- A call goes on to an `await`. -/
def await (k : Nat) (call : PtyCall) : PtySystem := { s with calls := s.calls.insert k call }

/-- A call ends. -/
def finish (k : Nat) (answer : PtyAnswer) : PtySystem :=
  { s with calls := s.calls.erase k, answers := s.answers ++ [(k, answer)] }

/-- A call begins. -/
def enter : PtySystem := { s with next := s.next + 1 }

def log (event : PtyAudit) : PtySystem := { s with audit := s.audit ++ [event] }

def deliver (delivery : Delivery) : PtySystem := { s with delivered := s.delivered ++ [delivery] }

/-- `upsert_session`; the state file is written if that works. -/
def upsertSession (record : SessionRecord) (works : Bool) : PtySystem :=
  { s with
    sessions := s.sessions.insert record.id record
    saved := if works then s.sessions.insert record.id record else s.saved }

/-- `active`: the sessions of a server that `list_sessions` lists as running. -/
def active (server : String) : Nat := s.sessions.count fun r => r.server = server && r.status = .running

/-- The handles of a new session. -/
def openHandles (start : PtyStart) : PtySystem :=
  if start.useTmux then
    { s with
      tmuxLogs := s.tmuxLogs.insert start.id (ptyLogFile start.id)
      tmuxSessions := s.tmuxSessions.insert start.id (tmuxName start.id)
      tmuxConns := s.tmuxConns.insert start.id start.server }
  else
    { s with
      procs := s.procs.insert start.id { session := start.id }
      buffers := s.buffers.insert start.id []
      drains := s.drains.insert start.id .reading }

/-- The handles that `pty_close` drops. -/
def dropHandles (session : SessionRecord) (id : String) : PtySystem :=
  if session.useTmux then
    { s with
      tmuxLogs := s.tmuxLogs.erase id
      tmuxSessions := s.tmuxSessions.erase id
      tmuxConns := s.tmuxConns.erase id }
  else
    { s with
      procs := s.procs.erase id
      buffers := s.buffers.erase id
      drains := s.drains.erase id }

def startAudit (start : PtyStart) : PtyAudit where
  tool := "start_pty"
  server := start.server
  command := start.command
  sessionId := start.id
  outcome := "started"
  detail := if start.useTmux then .startedTmux (tmuxName start.id) else .started start.cols start.rows

/-- The end of `start_pty`, from the handles to the answer. -/
def register (k : Nat) (start : PtyStart) (now : Timestamp) (works : Bool) : PtySystem :=
  let s := (s.openHandles start).upsertSession (start.record now) works
  if works then (s.log (startAudit start)).finish k (.started start.id) else s.finish k (.failed .raised)

/-- The end of `pty_write`. -/
def finishWrite (k : Nat) (session : SessionRecord) (id data : String) : PtySystem :=
  (s.log { tool := "pty_write", server := session.server, sessionId := id, outcome := "written",
           detail := .bytes data.length }).finish k (.written id data)

/-- The end of `pty_resize`. -/
def finishResize (k : Nat) (session : SessionRecord) (id : String) (cols rows : Int) : PtySystem :=
  (s.log { tool := "pty_resize", server := session.server, sessionId := id, outcome := "resized",
           detail := .size cols rows }).finish k (.resized id cols rows)

/-! ## The calls up to their first await -/

/-- `start_pty`: the session cap. -/
def startPty (limits : SessionLimits) (start : PtyStart) : PtySystem :=
  if limits.limit start.server ≤ s.active start.server then
    s.enter.finish s.next
      (.failed (.sessionCapExceeded start.server (limits.limit start.server) (s.active start.server)))
  else PtySystem.await { s.enter with issued := start.id :: s.issued } s.next (.connect start)

/-- `pty_read`: all of it for a session without tmux. -/
def ptyRead (id : String) (maxBytes : Int) : PtySystem :=
  match s.sessions.get? id with
  | none => s.enter.finish s.next (.failed (.sessionNotFound id))
  | some session =>
    if session.useTmux then
      match s.tmuxConns.get? id with
      | none => s.enter.finish s.next (.output id [] false)
      | some server =>
        s.enter.await s.next (.capturePane server ((s.tmuxSessions.get? id).getD "") id maxBytes)
    else
      let alive := (s.procs.get? id).any fun proc => !proc.closing
      match s.buffers.get? id with
      | none => s.enter.finish s.next (.output id (readText []) alive)
      | some buf =>
        let (collected, rest) := collect maxBytes.toNat [] buf
        PtySystem.finish { s.enter with buffers := s.buffers.insert id rest } s.next
          (.output id (readText collected) alive)

/-- `pty_write`. -/
def ptyWrite (id data : String) (works : Bool) : PtySystem :=
  match s.sessions.get? id with
  | none => s.enter.finish s.next (.failed (.sessionNotFound id))
  | some session =>
    if session.useTmux then
      match s.tmuxConns.get? id with
      | none => s.enter.finishWrite s.next session id data
      | some server => s.enter.await s.next (.sendKeys server ((s.tmuxSessions.get? id).getD "") session id data)
    else
      match s.procs.get? id with
      | none => s.enter.finishWrite s.next session id data
      | some proc =>
        if works then (s.enter.deliver ⟨s.next, .stdin, proc.session, data⟩).await s.next (.stdinDrain session id data)
        else s.enter.finish s.next (.failed .raised)

/-- `pty_resize`. -/
def ptyResize (id : String) (cols rows : Int) (works : Bool) : PtySystem :=
  match s.sessions.get? id with
  | none => s.enter.finish s.next (.failed (.sessionNotFound id))
  | some session =>
    if session.useTmux then
      match s.tmuxConns.get? id with
      | none => s.enter.finishResize s.next session id cols rows
      | some server =>
        s.enter.await s.next (.resizeWindow server ((s.tmuxSessions.get? id).getD "") session id cols rows)
    else if (s.procs.get? id).isSome && !works then s.enter.finish s.next (.failed .raised)
    else s.enter.finishResize s.next session id cols rows

/-- `pty_close`. -/
def ptyClose (id : String) (works : Bool) : PtySystem :=
  match s.sessions.get? id with
  | none => s.enter.finish s.next (.failed (.sessionNotFound id))
  | some session =>
    let t := (s.enter.dropHandles session id).upsertSession { session with status := .exited } works
    if works then
      (t.log { tool := "pty_close", server := session.server, sessionId := id, outcome := "closed",
               detail := .closed session.useTmux }).finish s.next (.closed id)
    else t.finish s.next (.failed .raised)

/-! ## From one await to the next -/

/-- What a remote command does on the server, if it has run. -/
def effect (k : Nat) (ran : Bool) : PtyCall → PtySystem
  | .newSession start =>
    if !ran || (s.windows.get? (start.server, tmuxName start.id)).isSome then s
    else { s with windows := s.windows.insert (start.server, tmuxName start.id) start.id }
  | .sendKeys server window _ _ data =>
    match s.windows.get? (server, window) with
    | some owner => if ran then s.deliver ⟨k, .sendKeys, owner, data⟩ else s
    | none => s
  | _ => s

/-- `output.encode()[:max_bytes].decode("utf-8", errors="replace")`, if there is more. -/
def cutOutput (maxBytes : Int) (output : List Char) : List Char :=
  let bytes := Utf8.encode output
  if maxBytes < bytes.length then
    (Utf8.pieces (bytes.take (if maxBytes < 0 then bytes.length + maxBytes else maxBytes).toNat)).map
      Utf8.Piece.replaced
  else output

def proceed (k : Nat) (stdout : List Char) (now : Timestamp) (works : Bool) : PtyCall → PtySystem
  | .connect start => s.await k (if start.useTmux then .whichTmux start else .create start)
  | .create start => s.register k start now works
  | .whichTmux start =>
    if strip stdout = [] then s.finish k (.failed (.tmuxNotAvailable start.server)) else s.await k (.newSession start)
  | .newSession start => s.await k (.pipePane start)
  | .pipePane start => s.register k start now works
  | .capturePane server window id maxBytes => s.await k (.hasSession server window id maxBytes stdout)
  | .hasSession _ _ id maxBytes captured =>
    s.finish k (.output id (cutOutput maxBytes (Ansi.stripAnsi captured)) (strip stdout = "alive".toList))
  | .stdinDrain session id data => s.finishWrite k session id data
  | .sendKeys _ _ session id data => s.finishWrite k session id data
  | .resizeWindow _ _ session id cols rows => s.finishResize k session id cols rows

/-- An `await` comes back, with or without the effect of what was awaited. -/
def resume (k : Nat) (reply : PtyReply) (now : Timestamp) (works : Bool) : Option PtySystem :=
  (s.calls.get? k).map fun call =>
    let s := s.effect k reply.ran call
    if reply.raises then s.finish k (.failed .raised) else s.proceed k reply.stdout now works call

/-! ## The system -/

/-- One turn of `_drain_pty`. -/
def drained (id : String) (chunk : List Char) : Option PtySystem :=
  match s.drains.get? id, s.buffers.get? id with
  | some .reading, some buf =>
    if chunk = [] then some { s with drains := s.drains.insert id .ended }
    else some { s with buffers := s.buffers.insert id (appendChunk buf chunk) }
  | _, _ => none

/-- A session manager over the state file, with nothing in memory. -/
def restart : PtySystem :=
  { sessions := s.saved.mapValues fun r => { r with status := .unknown }
    saved := s.saved
    next := s.next
    issued := s.issued
    windows := s.windows
    delivered := s.delivered
    answers := s.answers
    audit := s.audit }

/-- `uuid4` draws an id that was not drawn before. -/
def step (limits : SessionLimits) : PtyEvent → Option PtySystem
  | .start start => if start.id ∈ s.issued then none else some (s.startPty limits start)
  | .read id maxBytes => some (s.ptyRead id maxBytes)
  | .write id data works => some (s.ptyWrite id data works)
  | .resize id cols rows works => some (s.ptyResize id cols rows works)
  | .close id works => some (s.ptyClose id works)
  | .resume k reply now works => s.resume k reply now works
  | .drained id chunk => s.drained id chunk
  | .drainFails id => (s.drains.get? id).map fun _ => { s with drains := s.drains.insert id .ended }
  | .exits id => (s.procs.get? id).map fun proc => { s with procs := s.procs.insert id { proc with closing := true } }
  | .windowGone server window => some { s with windows := s.windows.erase (server, window) }
  | .restart => some s.restart

/-- Turns of calls, of drains and of the server. -/
def turns (limits : SessionLimits) : System PtySystem PtyEvent := ofFunction fun s e => s.step limits e

/-- A launch over a state file whose records stand under their ids, with tmux windows of
earlier sessions. -/
def Initial : Prop :=
  ∃ (saved : Dict String SessionRecord) (windows : Dict (String × String) String) (issued : List String),
    (∀ id r, saved.get? id = some r → r.id = id ∧ id ∈ issued) ∧
    (∀ key owner, windows.get? key = some owner → owner ∈ issued) ∧
    s = restart { sessions := saved, saved := saved, issued := issued, windows := windows }

end PtySystem

end McpSsh
