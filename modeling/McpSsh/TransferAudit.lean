import McpSsh.Audit
import McpSsh.Sync
import McpSsh.Base.ShellText
import McpSsh.Base.Traced

/-!
# What the file tools report and audit

`ssh_get`, `ssh_put`, `ssh_transfer` and `ssh_sync` of `scp_tools.py`, with all their
branches. Each logs a `start` event before its `try` block and one event where it leaves
it; a transfer is an attempt that collects what its copies report and may end with an
exception.
-/

set_option autoImplicit false

namespace McpSsh

open Base

/-! ## Attempts -/

/-- The `except` clause that an exception goes to. -/
inductive FailureKind where
  | mcpSsh
  /-- `asyncssh.SFTPError` or `OSError`. -/
  | transfer
  | unexpected
deriving DecidableEq

structure FileFailure where
  kind : FailureKind
  message : String
deriving DecidableEq

/-- The code of an error answer. -/
def FailureKind.code : FailureKind → String
  | .mcpSsh => "connection_error"
  | .transfer => "transfer_error"
  | .unexpected => "unexpected_error"

/-- What the copies of a call reported, in order, and how the block around them ended. -/
abbrev Attempt := Traced Bool FileFailure

namespace Attempt

variable {α : Type}

/-- `asyncssh.scp`, which raises when it fails. -/
def transfer (x : Except FileFailure Unit) : Attempt Unit := ⟨[x.isOk], x⟩

/-- `contextlib.suppress(asyncssh.SFTPError, OSError)`, and whether the block went through. -/
def suppress (x : Except FileFailure Unit) : Attempt Bool :=
  match x with
  | .ok () => pure true
  | .error e => if e.kind = .transfer then pure false else Traced.raise e

/-- `async with`: what `body` raises goes on unless closing raises itself. -/
def within (opens closes : Except FileFailure Unit) (body : Attempt α) : Attempt α := do
  Traced.wait opens
  ⟨body.trace, closes.bind fun _ => body.result⟩

end Attempt

/-! ## What the servers answer -/

/-- What every request of a call comes to, by its arguments. -/
structure FileServers where
  registered : String → Bool
  /-- `repr` of a string. -/
  repr : String → String
  connect : String → Except FileFailure Unit
  /-- `conn.run`, by server and command. -/
  run : String → String → Except FileFailure CommandResult
  /-- The exit status of the `cp` in front of `|| true`, by server and command. -/
  ownStatus : String → String → Int
  /-- `asyncssh.scp` and `mkdir`, by the number of files that the call has copied before. -/
  scp : Nat → String → String → Except FileFailure Unit
  /-- Both SFTP clients, opened and closed. -/
  opens : Except FileFailure Unit
  closes : Except FileFailure Unit
  glob : String → Except FileFailure (List String)
  /-- `_sftp_list_tree` on the source and on the destination. -/
  srcTree : String → Except FileFailure (Dict String SftpAttrs)
  dstTree : String → Except FileFailure (Dict String SftpAttrs)
  mkdir : Nat → String → Except FileFailure Unit
  remove : String → Except FileFailure Unit
  expandUser : String → String

/-- `shlex.quote`. -/
def shellQuote (s : String) : String := String.ofList (Shell.quote s.toList)

/-! ## The bracket of events -/

/-- One call, as it looks from outside, with what its copies reported. `finished` is unset
when an exception left the `try` block. -/
structure FileCallTrace where
  audit : List AuditEvent
  answer : Record
  reports : List Bool
  finished : Bool
deriving DecidableEq

/-- The `start` event, the block, and the event and answer of the clause that it ends in.
The block itself tells the detail of its `ok` event, if it logs one, and its answer. -/
def bracketed (tool server : String) (start : Record) (block : Attempt (Option Record × Record)) : FileCallTrace :=
  let event outcome detail : AuditEvent := { tool, server := some server, outcome, detail }
  match block.result with
  | .ok (detail, answer) =>
    { audit := event "start" start :: (detail.map (event "ok")).toList, answer, reports := block.trace, finished := true }
  | .error e =>
    { audit := [event "start" start, event "error" [("error", .text e.message)]]
      answer := [("error", .text e.kind.code), ("server", .text server), ("message", .text e.message)]
      reports := block.trace, finished := false }

section

variable (w : FileServers)

/-- The answer of a call about unknown servers, or the call. -/
def withServers (servers : List String) (call : FileCallTrace) : FileCallTrace :=
  match servers.find? fun server => !w.registered server with
  | some server =>
    { audit := []
      answer := [("error", .text "server_not_found"), ("server", .text server),
        ("message", .text ("Server " ++ w.repr server ++ " is not registered."))]
      reports := [], finished := false }
  | none => call

/-- The block of `ssh_get` and of `ssh_put`. -/
def singleTransfer (server src dst : String) (fields : Record) : Attempt (Option Record × Record) := do
  Traced.wait (w.connect server)
  Attempt.transfer (w.scp 0 src dst)
  return (some fields, ("server", .text server) :: fields)

/-- `ssh_get`. -/
def sshGet (server remotePath localPath : String) (recurse : Bool) : FileCallTrace :=
  let localPath := w.expandUser localPath
  let fields : Record := [("remote_path", .text remotePath), ("local_path", .text localPath)]
  withServers w [server] (bracketed "ssh_get" server (fields ++ [("recurse", .bool recurse)])
    (singleTransfer w server remotePath localPath fields))

/-- `ssh_put`. -/
def sshPut (server localPath remotePath : String) (recurse : Bool) : FileCallTrace :=
  let localPath := w.expandUser localPath
  let fields : Record := [("local_path", .text localPath), ("remote_path", .text remotePath)]
  withServers w [server] (bracketed "ssh_put" server (fields ++ [("recurse", .bool recurse)])
    (singleTransfer w server localPath remotePath fields))

/-- A command that copies, and that raises unless it exits with 0. -/
def copyCommand (server command : String) (message : CommandResult → String) : Attempt CommandResult :=
  match w.run server command with
  | .error e => ⟨[false], .error e⟩
  | .ok result =>
    if result.exitStatus = some 0 then ⟨[true], .ok result⟩ else ⟨[false], .error ⟨.transfer, message result⟩⟩

/-- The block of `ssh_transfer`. -/
def transferBlock (src srcPath dst dstPath : String) (recurse : Bool) : Attempt (Option Record × Record) := do
  if src = dst then
    Traced.wait (w.connect src)
    let flag := if recurse then "-r " else ""
    let _ ← copyCommand w src ("cp " ++ flag ++ shellQuote srcPath ++ " " ++ shellQuote dstPath) fun result =>
      match result.stderr with
      | some text => if text = "" then "cp failed" else stripText text
      | none => "cp failed"
  else
    Traced.wait (w.connect src)
    Traced.wait (w.connect dst)
    Attempt.transfer (w.scp 0 srcPath dstPath)
  return (some [("src_path", .text srcPath), ("dst_server", .text dst), ("dst_path", .text dstPath)],
    [("src_server", .text src), ("src_path", .text srcPath), ("dst_server", .text dst), ("dst_path", .text dstPath)])

/-- `ssh_transfer`. -/
def sshTransfer (src srcPath dst dstPath : String) (recurse : Bool) : FileCallTrace :=
  withServers w [src, dst] (bracketed "ssh_transfer" src
    [("src_path", .text srcPath), ("dst_server", .text dst), ("dst_path", .text dstPath), ("recurse", .bool recurse)]
    (transferBlock w src srcPath dst dstPath recurse))

/-! ## `ssh_sync` -/

/-- The keys that every answer of `ssh_sync` starts with. -/
def syncAnswer (src srcPath dst dstPath method : String) (copied : List String) (skipped : Nat)
    (deleted : List String) : Record :=
  [("src_server", .text src), ("src_path", .text srcPath), ("dst_server", .text dst), ("dst_path", .text dstPath),
    ("method", .text method), ("copied", .texts copied), ("skipped", .int skipped), ("deleted", .texts deleted)]

/-- The command of the fall-back. -/
def fallbackCommand (srcPath dstPath : String) : String :=
  "cp -ru " ++ shellQuote srcPath ++ " " ++ shellQuote dstPath ++ " 2>&1 || true"

/-- The fall-back runs. The shell ends with 0 whatever `cp` does, and nobody looks at it. -/
def fallbackCopy (src command : String) : Attempt CommandResult :=
  ⟨[(w.run src command).isOk && w.ownStatus src command = 0], w.run src command⟩

/-- `which rsync` found something. -/
def hasRsync (check : CommandResult) : Bool := stripText (check.stdout.getD "") ≠ ""

/-- `rsync exited n`, or what it wrote. -/
def rsyncMessage (result : CommandResult) : String :=
  let text := stripText (result.stderr.getD "")
  let status := match result.exitStatus with
    | some n => toString n
    | none => "None"
  if text = "" then "rsync exited " ++ status else text

/-- `_sync_same_server`. -/
def syncSameServer (src srcPath dstPath : String) (delete : Bool) : Attempt (Option Record × Record) := do
  Traced.wait (w.connect src)
  let check ← Traced.wait (w.run src "which rsync 2>/dev/null || true")
  if hasRsync check then
    let flag := if delete then "--delete " else ""
    let result ← copyCommand w src ("rsync -az " ++ flag ++ shellQuote srcPath ++ " " ++ shellQuote dstPath) rsyncMessage
    let summary := stripText (result.stdout.getD "")
    return (some [("method", .text "rsync"), ("summary", .text (String.ofList (summary.toList.take 500)))],
      syncAnswer src srcPath src dstPath "rsync" [] 0 [] ++ [("rsync_output", .text summary)])
  else
    let _ ← fallbackCopy w src (fallbackCommand srcPath dstPath)
    return (some [("method", .text "cp-u")], syncAnswer src srcPath src dstPath "cp-u" [] 0 [])

/-- The files to copy and the base path; `none` when a pattern matches nothing. -/
def syncSources (srcPath : String) : Attempt (Option (Dict String SftpAttrs × String)) := do
  if isGlob srcPath then
    let matched ← Traced.wait (w.glob srcPath)
    if matched = [] then return none
    let files ← matched.foldlM (fun files path => do
      let sub ← Traced.wait (w.srcTree path)
      return sub.items.foldl (fun d e => d.insert e.1 e.2) files) Dict.empty
    return some (files, dirname (stripSlashes srcPath))
  else
    let files ← Traced.wait (w.srcTree srcPath)
    return some (files, stripSlashes srcPath)

/-- The copy loop. -/
def syncCopies (dstFiles : Dict String SftpAttrs) (base dstPath : String) :
    List (String × SftpAttrs) → SyncReport → Attempt SyncReport
  | [], s => pure s
  | (rel, attrs) :: rest, s =>
    if !needsCopy attrs (dstFiles.get? rel) then syncCopies dstFiles base dstPath rest { s with skipped := s.skipped + 1 }
    else do
      let srcFull := if base = "" then rel else joinPath base rel
      let dstFull := joinPath dstPath rel
      let _ ← Attempt.suppress (w.mkdir s.copied.length (dirname dstFull))
      Attempt.transfer (w.scp s.copied.length srcFull dstFull)
      syncCopies dstFiles base dstPath rest { s with copied := s.copied ++ [rel] }

/-- The delete loop. -/
def syncDeletes (srcFiles : Dict String SftpAttrs) (dstPath : String) : List String → SyncReport → Attempt SyncReport
  | [], s => pure s
  | rel :: rest, s =>
    if rel ∈ srcFiles.keys then syncDeletes srcFiles dstPath rest s
    else do
      let removed ← Attempt.suppress (w.remove (joinPath dstPath rel))
      syncDeletes srcFiles dstPath rest (if removed then { s with deleted := s.deleted ++ [rel] } else s)

/-- What `_sync_cross_server` does inside its `async with`; `none` when it returns early. -/
def syncSessions (srcPath dstPath : String) (delete : Bool) : Attempt (Option SyncReport) := do
  match ← syncSources w srcPath with
  | none => return none
  | some (srcFiles, base) =>
    let dstFiles ← Traced.wait (w.dstTree dstPath)
    let s ← syncCopies w dstFiles base dstPath srcFiles.items ⟨[], 0, [], srcFiles.keys.isEmpty⟩
    let s ← (if delete then syncDeletes w srcFiles dstPath dstFiles.keys s else pure s)
    return some s

/-- `_sync_cross_server`. The early return logs nothing. -/
def syncAcross (src srcPath dst dstPath : String) (delete : Bool) : Attempt (Option Record × Record) := do
  Traced.wait (w.connect src)
  Traced.wait (w.connect dst)
  match ← Attempt.within w.opens w.closes (syncSessions w srcPath dstPath delete) with
  | none =>
    return (none, syncAnswer src srcPath dst dstPath "sftp-diff" [] 0 [] ++ [("warning", .text "no files matched")])
  | some s =>
    return (some [("copied", .int s.copied.length), ("skipped", .int s.skipped), ("deleted", .int s.deleted.length)],
      syncAnswer src srcPath dst dstPath "sftp-diff" s.copied s.skipped s.deleted ++
        if s.noMatch then [("warning", .text "no files matched")] else [])

/-- `ssh_sync`. -/
def sshSync (src srcPath dst dstPath : String) (delete : Bool) : FileCallTrace :=
  withServers w [src, dst] (bracketed "ssh_sync" src
    [("src_path", .text srcPath), ("dst_server", .text dst), ("dst_path", .text dstPath), ("delete", .bool delete)]
    (if src = dst then syncSameServer w src srcPath dstPath delete else syncAcross w src srcPath dst dstPath delete))

/-! ## Truthful calls -/

/-- A call of one of the file tools. -/
inductive FileCall where
  | get (server remotePath localPath : String) (recurse : Bool)
  | put (server localPath remotePath : String) (recurse : Bool)
  | transfer (src srcPath dst dstPath : String) (recurse : Bool)
  | sync (src srcPath dst dstPath : String) (delete : Bool)

def FileCall.trace : FileCall → FileCallTrace
  | .get server remotePath localPath recurse => sshGet w server remotePath localPath recurse
  | .put server localPath remotePath recurse => sshPut w server localPath remotePath recurse
  | .transfer src srcPath dst dstPath recurse => sshTransfer w src srcPath dst dstPath recurse
  | .sync src srcPath dst dstPath delete => sshSync w src srcPath dst dstPath delete

/-- The servers that a call is about. -/
def FileCall.servers : FileCall → List String
  | .get server .. | .put server .. => [server]
  | .transfer src _ dst _ _ | .sync src _ dst _ _ => [src, dst]

/-- One `start` event and one that says how it ended: `ok`, with an answer that is no
error, exactly if the block came to its end and every copy reported success. -/
structure Truthful (t : FileCallTrace) : Prop where
  bracket : ∃ first last, t.audit = [first, last] ∧ first.outcome = "start" ∧
    (last.outcome = "ok" ∨ last.outcome = "error")
  honest : (∃ last, t.audit.getLast? = some last ∧ last.outcome = "ok") ∧ t.answer.has "error" = false ↔
    t.finished = true ∧ ∀ report ∈ t.reports, report = true

/-- The two calls that hide something: a sync on one server without rsync whose `cp`
fails, and a sync between servers with a pattern that matches nothing. -/
def FileCall.Hides : FileCall → Prop
  | .sync src srcPath dst dstPath _ =>
    if src = dst then
      w.connect src = .ok () ∧ (∃ check, w.run src "which rsync 2>/dev/null || true" = .ok check ∧ hasRsync check = false) ∧
        (∃ result, w.run src (fallbackCommand srcPath dstPath) = .ok result) ∧
          w.ownStatus src (fallbackCommand srcPath dstPath) ≠ 0
    else
      w.connect src = .ok () ∧ w.connect dst = .ok () ∧ w.opens = .ok () ∧ w.closes = .ok () ∧
        isGlob srcPath = true ∧ w.glob srcPath = .ok []
  | _ => False

end

/-! ## What an attempt that succeeds has reported -/

namespace Attempt

variable {α : Type}

/-- A block that comes to its end has only copies that reported success. -/
abbrev Sound (a : Attempt α) : Prop := Traced.Sound (fun report => report = true) a

theorem sound_transfer (x : Except FileFailure Unit) : Sound (transfer x) := by
  intro value done report member
  obtain rfl := List.mem_singleton.mp member
  have sent : x = .ok value := done
  rw [sent]
  rfl

theorem sound_suppress (x : Except FileFailure Unit) : Sound (suppress x) := by
  unfold suppress
  split
  · exact Traced.sound_pure true
  · split
    · exact Traced.sound_pure false
    · exact Traced.sound_raise _

theorem result_within {opens closes : Except FileFailure Unit} {body : Attempt α} {value : α} :
    (within opens closes body).result = .ok value ↔ opens = .ok () ∧ closes = .ok () ∧ body.result = .ok value := by
  rw [within, Traced.result_bind]
  constructor
  · rintro ⟨⟨⟩, opened, inside⟩
    cases closes with
    | error e => cases inside
    | ok _ => exact ⟨opened, rfl, inside⟩
  · rintro ⟨opened, rfl, inside⟩
    exact ⟨(), opened, inside⟩

theorem sound_within {opens closes : Except FileFailure Unit} {body : Attempt α} (inside : Sound body) :
    Sound (within opens closes body) := by
  refine Traced.sound_bind (Traced.sound_wait opens) fun _ => ?_
  intro value done
  cases closes with
  | error e => cases done
  | ok _ => exact inside value done

end Attempt

/-! ## The bracket -/

/-- An answer that is no error. -/
def PlainAnswer (value : Option Record × Record) : Prop := value.2.has "error" = false

/-- **The bracket is truthful exactly if** a block that comes to its end logs its `ok`
event and has reports of success only. -/
theorem truthful_bracketed_iff {tool server : String} {start : Record} {block : Attempt (Option Record × Record)}
    (plain : block.Ends PlainAnswer) : Truthful (bracketed tool server start block) ↔
      block.Ends fun value => value.1.isSome = true ∧ ∀ report ∈ block.trace, report = true := by
  obtain ⟨reports, result⟩ := block
  cases result with
  | error e =>
    constructor
    · intro _ value done
      cases done
    · intro _
      refine ⟨⟨_, _, rfl, rfl, .inr rfl⟩, ?_⟩
      simp [bracketed]
  | ok value =>
    obtain ⟨detail, answer⟩ := value
    have noError : answer.has "error" = false := plain _ rfl
    constructor
    · rintro ⟨⟨first, last, events, -, -⟩, honest⟩ value done
      cases done
      cases detail with
      | none => simp [bracketed] at events
      | some fields => exact ⟨rfl, (honest.mp ⟨⟨_, rfl, rfl⟩, noError⟩).2⟩
    · intro ends
      obtain ⟨logged, reported⟩ := ends _ rfl
      obtain ⟨fields, rfl⟩ := Option.isSome_iff_exists.mp logged
      exact ⟨⟨_, _, rfl, rfl, .inl rfl⟩, iff_of_true ⟨⟨_, rfl, rfl⟩, noError⟩ ⟨rfl, reported⟩⟩

/-- A block without hidden reports, which logs its `ok` event. -/
theorem truthful_of_sound {tool server : String} {start : Record} {block : Attempt (Option Record × Record)}
    (sound : block.Sound) (ends : block.Ends fun value => value.1.isSome = true ∧ PlainAnswer value) :
    Truthful (bracketed tool server start block) := by
  rw [truthful_bracketed_iff fun value done => (ends value done).2]
  exact fun value done => ⟨(ends value done).1, sound value done⟩

section

variable {w : FileServers}

theorem withServers_of_registered {servers : List String} {call : FileCallTrace}
    (registered : ∀ server ∈ servers, w.registered server = true) : withServers w servers call = call := by
  have none_ : servers.find? (fun server => !w.registered server) = none := by
    rw [List.find?_eq_none]
    intro server member
    simp [registered server member]
  rw [withServers, none_]

/-! ## Block by block -/

theorem sound_copyCommand (server command : String) (message : CommandResult → String) :
    (copyCommand w server command message).Sound := by
  intro value done
  unfold copyCommand at done ⊢
  split at done
  · cases done
  · split at done
    · rename_i success
      rw [if_pos success]
      simp
    · cases done

theorem sound_singleTransfer (server src dst : String) (fields : Record) :
    (singleTransfer w server src dst fields).Sound := by
  refine Traced.sound_bind (Traced.sound_wait _) fun _ => ?_
  refine Traced.sound_bind (Attempt.sound_transfer _) fun _ => ?_
  exact Traced.sound_pure _

theorem ends_singleTransfer {server src dst : String} {fields : Record} (plain : fields.has "error" = false) :
    (singleTransfer w server src dst fields).Ends fun value => value.1.isSome = true ∧ PlainAnswer value := by
  refine Traced.ends_bind fun _ => Traced.ends_bind fun _ => Traced.ends_pure ⟨rfl, ?_⟩
  simpa [PlainAnswer, Record.has] using plain

theorem sound_transferBlock (src srcPath dst dstPath : String) (recurse : Bool) :
    (transferBlock w src srcPath dst dstPath recurse).Sound := by
  unfold transferBlock
  split
  · refine Traced.sound_bind (Traced.sound_wait _) fun _ => ?_
    refine Traced.sound_bind (sound_copyCommand _ _ _) fun _ => ?_
    exact Traced.sound_pure _
  · refine Traced.sound_bind (Traced.sound_wait _) fun _ => ?_
    refine Traced.sound_bind (Traced.sound_wait _) fun _ => ?_
    refine Traced.sound_bind (Attempt.sound_transfer _) fun _ => ?_
    exact Traced.sound_pure _

theorem ends_transferBlock (src srcPath dst dstPath : String) (recurse : Bool) :
    (transferBlock w src srcPath dst dstPath recurse).Ends fun value => value.1.isSome = true ∧ PlainAnswer value := by
  unfold transferBlock
  split
  · refine Traced.ends_bind fun _ => Traced.ends_bind fun _ => Traced.ends_pure ⟨rfl, ?_⟩
    simp [PlainAnswer, Record.has]
  · refine Traced.ends_bind fun _ => Traced.ends_bind fun _ => Traced.ends_bind fun _ => Traced.ends_pure ⟨rfl, ?_⟩
    simp [PlainAnswer, Record.has]

theorem sound_syncCopies (dstFiles : Dict String SftpAttrs) (base dstPath : String)
    (files : List (String × SftpAttrs)) (s : SyncReport) : (syncCopies w dstFiles base dstPath files s).Sound := by
  induction files generalizing s with
  | nil => exact Traced.sound_pure s
  | cons e files ih =>
    rw [syncCopies]
    split
    · exact ih _
    · refine Traced.sound_bind (Attempt.sound_suppress _) fun _ => ?_
      refine Traced.sound_bind (Attempt.sound_transfer _) fun _ => ?_
      exact ih _

theorem sound_syncDeletes (srcFiles : Dict String SftpAttrs) (dstPath : String) (rels : List String) (s : SyncReport) :
    (syncDeletes w srcFiles dstPath rels s).Sound := by
  induction rels generalizing s with
  | nil => exact Traced.sound_pure s
  | cons rel rels ih =>
    rw [syncDeletes]
    split
    · exact ih s
    · exact Traced.sound_bind (Attempt.sound_suppress _) fun _ => ih _

theorem sound_syncSources (srcPath : String) : (syncSources w srcPath).Sound := by
  unfold syncSources
  split
  · refine Traced.sound_bind (Traced.sound_wait _) fun matched => ?_
    split
    · exact Traced.sound_pure none
    · rename_i some_
      clear some_
      refine Traced.sound_bind ?_ fun _ => Traced.sound_pure _
      generalize (Dict.empty : Dict String SftpAttrs) = files
      induction matched generalizing files with
      | nil => exact Traced.sound_pure files
      | cons path matched ih =>
        rw [List.foldlM_cons]
        refine Traced.sound_bind ?_ fun files => ih files
        exact Traced.sound_bind (Traced.sound_wait _) fun _ => Traced.sound_pure _
  · exact Traced.sound_bind (Traced.sound_wait _) fun _ => Traced.sound_pure _

/-- Only a pattern without matches ends the call early. -/
theorem syncSources_none {srcPath : String} :
    (syncSources w srcPath).result = .ok none ↔ isGlob srcPath = true ∧ w.glob srcPath = .ok [] := by
  unfold syncSources
  split
  · rename_i pattern
    rw [Traced.result_bind]
    constructor
    · rintro ⟨matched, found, rest⟩
      split at rest
      · rename_i empty
        rw [← empty]
        exact ⟨pattern, found⟩
      · obtain ⟨files, -, last⟩ := Traced.result_bind.mp rest
        cases last
    · rintro ⟨-, found⟩
      exact ⟨[], found, rfl⟩
  · rename_i plain
    rw [Traced.result_bind]
    constructor
    · rintro ⟨files, -, last⟩
      cases last
    · rintro ⟨pattern, -⟩
      exact absurd pattern plain

theorem sound_syncSessions (srcPath dstPath : String) (delete : Bool) :
    (syncSessions w srcPath dstPath delete).Sound := by
  refine Traced.sound_bind (sound_syncSources srcPath) fun sources => ?_
  cases sources with
  | none => exact Traced.sound_pure none
  | some listed =>
    refine Traced.sound_bind (Traced.sound_wait _) fun dstFiles => ?_
    refine Traced.sound_bind (sound_syncCopies _ _ _ _ _) fun s => ?_
    refine Traced.sound_bind ?_ fun _ => Traced.sound_pure _
    cases delete with
    | true => exact sound_syncDeletes _ _ _ s
    | false => exact Traced.sound_pure s

theorem syncSessions_none {srcPath dstPath : String} {delete : Bool} :
    (syncSessions w srcPath dstPath delete).result = .ok none ↔ isGlob srcPath = true ∧ w.glob srcPath = .ok [] := by
  rw [← syncSources_none, syncSessions, Traced.result_bind]
  constructor
  · rintro ⟨sources, found, rest⟩
    cases sources with
    | none => exact found
    | some listed =>
      obtain ⟨dstFiles, -, rest⟩ := Traced.result_bind.mp rest
      obtain ⟨s, -, rest⟩ := Traced.result_bind.mp rest
      obtain ⟨s, -, last⟩ := Traced.result_bind.mp rest
      cases last
  · intro found
    exact ⟨none, found, rfl⟩

theorem sound_syncAcross (src srcPath dst dstPath : String) (delete : Bool) :
    (syncAcross w src srcPath dst dstPath delete).Sound := by
  refine Traced.sound_bind (Traced.sound_wait _) fun _ => ?_
  refine Traced.sound_bind (Traced.sound_wait _) fun _ => ?_
  refine Traced.sound_bind (Attempt.sound_within (sound_syncSessions _ _ _)) fun report => ?_
  cases report with
  | none => exact Traced.sound_pure _
  | some s => exact Traced.sound_pure _

theorem plain_syncAnswer (src srcPath dst dstPath method : String) (copied : List String) (skipped : Nat)
    (deleted : List String) {more : Record} (plain : more.has "error" = false) :
    Record.has (syncAnswer src srcPath dst dstPath method copied skipped deleted ++ more) "error" = false := by
  rw [Record.has] at plain ⊢
  rw [List.any_append, plain]
  simp [syncAnswer]

theorem plain_syncAcross (src srcPath dst dstPath : String) (delete : Bool) :
    (syncAcross w src srcPath dst dstPath delete).Ends PlainAnswer := by
  refine Traced.ends_bind fun _ => Traced.ends_bind fun _ => Traced.ends_bind fun report => ?_
  cases report with
  | none => exact Traced.ends_pure (plain_syncAnswer _ _ _ _ _ _ _ _ rfl)
  | some s =>
    refine Traced.ends_pure (plain_syncAnswer _ _ _ _ _ _ _ _ ?_)
    split <;> rfl

/-- A sync between servers ends without an event exactly for a pattern without matches. -/
theorem syncAcross_silent {src srcPath dst dstPath : String} {delete : Bool} :
    (∃ answer, (syncAcross w src srcPath dst dstPath delete).result = .ok (none, answer)) ↔
      w.connect src = .ok () ∧ w.connect dst = .ok () ∧ w.opens = .ok () ∧ w.closes = .ok () ∧
        isGlob srcPath = true ∧ w.glob srcPath = .ok [] := by
  simp only [syncAcross, Traced.result_bind, Attempt.result_within]
  constructor
  · rintro ⟨answer, _, src_, _, dst_, report, ⟨opens, closes, inside⟩, last⟩
    cases report with
    | none =>
      obtain ⟨pattern, found⟩ := syncSessions_none.mp inside
      exact ⟨src_, dst_, opens, closes, pattern, found⟩
    | some s => cases last
  · rintro ⟨src_, dst_, opens, closes, pattern, found⟩
    exact ⟨_, (), src_, (), dst_, none, ⟨opens, closes, syncSessions_none.mpr ⟨pattern, found⟩⟩, rfl⟩

/-- The block of a sync on one server that falls back. -/
theorem syncSameServer_fallback {src srcPath dstPath : String} {delete : Bool} {check : CommandResult}
    (connected : w.connect src = .ok ()) (checked : w.run src "which rsync 2>/dev/null || true" = .ok check)
    (missing : hasRsync check = false) : ∃ answer : Option Record × Record,
      syncSameServer w src srcPath dstPath delete =
        ⟨[(w.run src (fallbackCommand srcPath dstPath)).isOk && w.ownStatus src (fallbackCommand srcPath dstPath) = 0],
          (w.run src (fallbackCommand srcPath dstPath)).map fun _ => answer⟩ := by
  rw [syncSameServer, connected, checked, Traced.wait_ok_bind, Traced.wait_ok_bind, missing, if_neg Bool.false_ne_true]
  refine ⟨(some [("method", .text "cp-u")], syncAnswer src srcPath src dstPath "cp-u" [] 0 []), ?_⟩
  cases ran : w.run src (fallbackCommand srcPath dstPath) with
  | error e =>
    have third : (fallbackCopy w src (fallbackCommand srcPath dstPath)).result = .error e := ran
    rw [Traced.bind_error third, fallbackCopy, ran]
    rfl
  | ok result =>
    have third : (fallbackCopy w src (fallbackCommand srcPath dstPath)).result = .ok result := ran
    rw [Traced.bind_ok third, fallbackCopy, ran]
    rfl

theorem ends_syncSameServer (src srcPath dstPath : String) (delete : Bool) :
    (syncSameServer w src srcPath dstPath delete).Ends fun value => value.1.isSome = true ∧ PlainAnswer value := by
  refine Traced.ends_bind fun _ => Traced.ends_bind fun check => ?_
  split
  · refine Traced.ends_bind fun result => Traced.ends_pure ⟨rfl, ?_⟩
    exact plain_syncAnswer _ _ _ _ _ _ _ _ rfl
  · refine Traced.ends_bind fun result => Traced.ends_pure ⟨rfl, ?_⟩
    simp [PlainAnswer, Record.has, syncAnswer]

theorem sound_syncSameServer {src srcPath dstPath : String} {delete : Bool}
    (present : ∀ check, w.connect src = .ok () → w.run src "which rsync 2>/dev/null || true" = .ok check →
      hasRsync check = true) : (syncSameServer w src srcPath dstPath delete).Sound := by
  refine Traced.sound_bind_of (Traced.sound_wait _) fun _ connected => ?_
  refine Traced.sound_bind_of (Traced.sound_wait _) fun check checked => ?_
  rw [if_pos (present check connected checked)]
  exact Traced.sound_bind (sound_copyCommand _ _ _) fun _ => Traced.sound_pure _

/-- **A sync on one server hides something** exactly if it falls back and `cp` fails. -/
theorem truthful_syncSameServer_iff {tool src srcPath dstPath : String} {start : Record} {delete : Bool} :
    Truthful (bracketed tool src start (syncSameServer w src srcPath dstPath delete)) ↔
      ¬ (w.connect src = .ok () ∧ (∃ check, w.run src "which rsync 2>/dev/null || true" = .ok check ∧
        hasRsync check = false) ∧ (∃ result, w.run src (fallbackCommand srcPath dstPath) = .ok result) ∧
          w.ownStatus src (fallbackCommand srcPath dstPath) ≠ 0) := by
  have ends := @ends_syncSameServer w src srcPath dstPath delete
  by_cases falls : w.connect src = .ok () ∧ ∃ check, w.run src "which rsync 2>/dev/null || true" = .ok check ∧
      hasRsync check = false
  · obtain ⟨connected, check, checked, missing⟩ := falls
    obtain ⟨answer, block⟩ := @syncSameServer_fallback w src srcPath dstPath delete check connected checked missing
    rw [truthful_bracketed_iff fun value done => (ends value done).2]
    rw [block] at ends ⊢
    constructor
    · rintro honest ⟨-, -, ⟨result, ran⟩, failed⟩
      rw [ran] at honest
      have reported := (honest answer rfl).2 _ (List.mem_singleton_self _)
      exact failed (of_decide_eq_true (Bool.and_eq_true_iff.mp reported).2)
    · intro open_ value done
      cases ran : w.run src (fallbackCommand srcPath dstPath) with
      | error e =>
        rw [ran] at done
        cases done
      | ok result =>
        refine ⟨(ends value done).1, fun report member => ?_⟩
        have succeeded : w.ownStatus src (fallbackCommand srcPath dstPath) = 0 := by
          by_contra failed
          exact open_ ⟨connected, ⟨check, checked, missing⟩, ⟨result, ran⟩, failed⟩
        rw [List.mem_singleton.mp member, succeeded]
        rfl
  · have present : ∀ check, w.connect src = .ok () → w.run src "which rsync 2>/dev/null || true" = .ok check →
        hasRsync check = true := by
      intro check connected checked
      by_contra missing
      exact falls ⟨connected, check, checked, by simpa using missing⟩
    refine iff_of_true (truthful_of_sound (sound_syncSameServer present) ends) ?_
    rintro ⟨connected, found, -⟩
    exact falls ⟨connected, found⟩

end

/-! ## A server without rsync -/

/-- A server on which `which rsync` finds nothing and `cp` ends with this status. -/
def plainServers (status : Int) : FileServers where
  registered _ := true
  repr := id
  connect _ := .ok ()
  run _ _ := .ok ⟨some 0, some "", some ""⟩
  ownStatus _ _ := status
  scp _ _ _ := .ok ()
  opens := .ok ()
  closes := .ok ()
  glob _ := .ok []
  srcTree _ := .ok Dict.empty
  dstTree _ := .ok Dict.empty
  mkdir _ _ := .ok ()
  remove _ := .ok ()
  expandUser := id

/-- Two servers, of which one file is new and the other one fails to be copied. -/
def brokenServers : FileServers :=
  { plainServers 0 with
    scp copied _ _ := if copied = 0 then .ok () else .error ⟨.transfer, "No space left on device"⟩
    srcTree _ := .ok ((Dict.empty.insert "a" {}).insert "b" {}) }

end McpSsh
