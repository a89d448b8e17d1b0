import McpSsh.AuditTrail
import McpSsh.Base.ShellLine
import McpSsh.Launch
import McpSsh.Toml.Plain
import McpSsh.TransferAudit

/-!
# The other remote command lines

Besides the launch of a command, `session.py` and `scp_tools.py` run lines of their own on the
servers: they copy and compare files, look after processes and drive tmux. Paths, input
and commands for tmux come from the client and may hold anything.
-/

set_option autoImplicit false

namespace McpSsh

open Base

/-- A line that is run on a server, with what is put into it. -/
inductive RemoteLine where
  /-- `ssh_transfer` on one server. -/
  | transfer (recurse : Bool) (src dst : List Char)
  | whichRsync
  /-- `_sync_same_server`, with rsync and without. -/
  | rsync (delete : Bool) (src dst : List Char)
  | fallback (src dst : List Char)
  /-- `_detect_flush_wrapper`. -/
  | uname
  /-- `read_process`, `kill_process` and `check_process`. -/
  | readExit (id : ProcessId)
  | kill (signal : String) (allowed : signal ∈ allowedSignals) (pid : Int)
  | probe (pid : Int)
  | tailLog (id : ProcessId)
  | whichTmux
  /-- `start_pty`. -/
  | newSession (session : List Char) (command : Option (List Char))
  | pipePane (session : List Char) (id : ProcessId)
  /-- `pty_read`, `pty_write` and `pty_resize`. -/
  | capturePane (session : List Char)
  | hasSession (session : List Char)
  | sendKeys (session data : List Char)
  | resizeWindow (session : List Char) (cols rows : Int)
  /-- `pty_attach`. -/
  | attach (session : List Char)

namespace RemoteLine

def number (n : Int) : List Char := (toString n).toList

/-- `log_file` of `start_pty`. -/
def ptyLog (id : ProcessId) : List Char := "/tmp/mcp-pty-".toList ++ id.text ++ ".log".toList

/-- `command or '$SHELL'`. -/
def orShell : Option (List Char) → List Char
  | none => "$SHELL".toList
  | some command => if command = [] then "$SHELL".toList else command

/-- What tmux pipes a window into. -/
def pipeCommand (id : ProcessId) : List Char := "cat >> ".toList ++ ptyLog id

/-- The parts of the line, as they stand in the format string. -/
def parts : RemoteLine → List (List Char)
  | transfer recurse src dst =>
    ["cp ".toList, if recurse then "-r ".toList else [], Shell.quote src, " ".toList, Shell.quote dst]
  | whichRsync => ["which rsync 2>/dev/null || true".toList]
  | rsync delete src dst =>
    ["rsync -az ".toList, if delete then "--delete ".toList else [], Shell.quote src, " ".toList, Shell.quote dst]
  | fallback src dst => ["cp -ru ".toList, Shell.quote src, " ".toList, Shell.quote dst, " 2>&1 || true".toList]
  | uname => ["uname -s 2>/dev/null || echo _unknown_".toList]
  | readExit id => ["test -f ".toList, exitFile id, " && cat ".toList, exitFile id, " || true".toList]
  | kill signal _ pid => ["kill -".toList, signal.toList, " ".toList, number pid]
  | probe pid => ["kill -0 ".toList, number pid, " 2>/dev/null && echo alive || echo dead".toList]
  | tailLog id => ["tail -c 4096 ".toList, logFile id, " 2>/dev/null || true".toList]
  | whichTmux => ["which tmux 2>/dev/null || true".toList]
  | newSession session command =>
    ["tmux new-session -d -s ".toList, Shell.quote session, " ".toList, Shell.quote (orShell command)]
  | pipePane session id =>
    ["tmux pipe-pane -o -t ".toList, Shell.quote session, " 'cat >> ".toList, ptyLog id, "'".toList]
  | capturePane session =>
    ["tmux capture-pane -p -J -S -2000 -t ".toList, Shell.quote session, " 2>/dev/null || true".toList]
  | hasSession session =>
    ["tmux has-session -t ".toList, Shell.quote session, " 2>/dev/null && echo alive || echo dead".toList]
  | sendKeys session data => ["tmux send-keys -t ".toList, Shell.quote session, " -- ".toList, Shell.quote data]
  | resizeWindow session cols rows =>
    ["tmux resize-window -t ".toList, Shell.quote session, " -x ".toList, number cols, " -y ".toList, number rows]
  | attach session => ["tmux has-session -t ".toList, Shell.quote session, " 2>/dev/null".toList]

/-- The text of the line. -/
def text (l : RemoteLine) : List Char := l.parts.flatten

/-! ## What the lines say -/

def word (s : String) (plain : Shell.isPlain s.toList = true := by decide) : Shell.Word := .fixed s.toList plain

def calls (conn : Shell.Conn) (program : String) (words : List Shell.Word)
    (plain : Shell.isPlain program.toList = true := by decide)
    (free : Shell.reserved.contains program.toList = false := by decide) : Shell.Command :=
  ⟨conn, program.toList, words, plain, free⟩

theorem isPlain_number (n : Int) : Shell.isPlain (number n) = true := by
  have digits : ∀ m, (Nat.toDigits 10 m).all Shell.isSafe = true := by
    intro m
    refine List.all_eq_true.mpr fun c member => ?_
    have digit : c.isDigit = true := Toml.isDigit_digits member
    simp [Shell.isSafe, Char.isAlphanum, digit]
  rcases Toml.toList_toString_int n with ⟨m, -, text⟩ | ⟨m, -, text⟩
  · have filled : (Nat.toDigits 10 m).isEmpty = false := List.isEmpty_eq_false_iff.mpr Nat.toDigits_ne_nil
    rw [number, text, Shell.isPlain, filled, digits]
    rfl
  · rw [number, text, Shell.isPlain, List.all_cons, digits]
    rfl

theorem isPlain_of_safe {front back : String} (some_ : front.toList ≠ []) (safe : front.toList.all Shell.isSafe = true)
    (safe' : back.toList.all Shell.isSafe = true) (id : ProcessId) :
    Shell.isPlain (front.toList ++ id.text ++ back.toList) = true := by
  have filled : (front.toList ++ id.text ++ back.toList).isEmpty = false := by simp [some_]
  rw [Shell.isPlain, filled, Bool.not_false, Bool.true_and, List.all_append, List.all_append, safe, id.plain, safe']
  rfl

theorem isPlain_exitFile (id : ProcessId) : Shell.isPlain (exitFile id) = true :=
  isPlain_of_safe (by decide) (by decide) (by decide) id

theorem isPlain_logFile (id : ProcessId) : Shell.isPlain (logFile id) = true :=
  isPlain_of_safe (by decide) (by decide) (by decide) id

theorem isPlain_ptyLog (id : ProcessId) : Shell.isPlain (ptyLog id) = true :=
  isPlain_of_safe (by decide) (by decide) (by decide) id

theorem isPlain_signal {signal : String} (allowed : signal ∈ allowedSignals) :
    Shell.isPlain ('-' :: signal.toList) = true := by
  have each : ∀ s ∈ allowedSignals, Shell.isPlain ('-' :: s.toList) = true := by decide
  exact each signal allowed

/-- What a line runs. -/
def commands : RemoteLine → List Shell.Command
  | transfer recurse src dst =>
    [calls .seq "cp" ((if recurse then [word "-r"] else []) ++ [.arg src, .arg dst])]
  | whichRsync => [calls .seq "which" [word "rsync", .errNull], calls .or "true" []]
  | rsync delete src dst =>
    [calls .seq "rsync" (word "-az" :: (if delete then [word "--delete"] else []) ++ [.arg src, .arg dst])]
  | fallback src dst =>
    [calls .seq "cp" [word "-ru", .arg src, .arg dst, .errOut], calls .or "true" []]
  | uname => [calls .seq "uname" [word "-s", .errNull], calls .or "echo" [word "_unknown_"]]
  | readExit id =>
    [calls .seq "test" [word "-f", .fixed (exitFile id) (isPlain_exitFile id)], calls .and "cat" [.fixed (exitFile id) (isPlain_exitFile id)],
      calls .or "true" []]
  | kill signal allowed pid => [calls .seq "kill" [.fixed ('-' :: signal.toList) (isPlain_signal allowed), .fixed (number pid) (isPlain_number pid)]]
  | probe pid =>
    [calls .seq "kill" [word "-0", .fixed (number pid) (isPlain_number pid), .errNull], calls .and "echo" [word "alive"],
      calls .or "echo" [word "dead"]]
  | tailLog id =>
    [calls .seq "tail" [word "-c", word "4096", .fixed (logFile id) (isPlain_logFile id), .errNull], calls .or "true" []]
  | whichTmux => [calls .seq "which" [word "tmux", .errNull], calls .or "true" []]
  | newSession session command =>
    [calls .seq "tmux" [word "new-session", word "-d", word "-s", .arg session, .arg (orShell command)]]
  | pipePane session id =>
    [calls .seq "tmux" [word "pipe-pane", word "-o", word "-t", .arg session,
      .arg (pipeCommand id)]]
  | capturePane session =>
    [calls .seq "tmux" [word "capture-pane", word "-p", word "-J", word "-S", word "-2000",
      word "-t", .arg session, .errNull], calls .or "true" []]
  | hasSession session =>
    [calls .seq "tmux" [word "has-session", word "-t", .arg session, .errNull],
      calls .and "echo" [word "alive"], calls .or "echo" [word "dead"]]
  | sendKeys session data =>
    [calls .seq "tmux" [word "send-keys", word "-t", .arg session, word "--", .arg data]]
  | resizeWindow session cols rows =>
    [calls .seq "tmux" [word "resize-window", word "-t", .arg session, word "-x", .fixed (number cols) (isPlain_number cols),
      word "-y", .fixed (number rows) (isPlain_number rows)]]
  | attach session => [calls .seq "tmux" [word "has-session", word "-t", .arg session, .errNull]]

/-! ## The texts are the lines -/

/-- The command that tmux pipes a window into stands in quotes. -/
theorem quote_pipeCommand (id : ProcessId) :
    Shell.quote (pipeCommand id) = '\'' :: ("cat >> ".toList ++ ptyLog id) ++ ['\''] := by
  have plain := isPlain_ptyLog id
  rw [Shell.isPlain, Bool.and_eq_true, List.all_eq_true] at plain
  have blank : "cat >> ".toList.all Shell.isSafe = false := by decide
  have needed : ("cat >> ".toList ++ ptyLog id).all Shell.isSafe = false := by
    rw [List.all_append, blank, Bool.false_and]
  have apart : '\'' ∉ "cat >> ".toList ++ ptyLog id := by
    rw [List.mem_append, not_or]
    exact ⟨by decide, fun inside => Shell.isSafe_ne (plain.2 _ inside) (by decide) rfl⟩
  exact Shell.quote_apart needed apart

theorem text_eq (l : RemoteLine) : l.text = Shell.line l.commands := by
  cases l with
  | transfer recurse src dst =>
    cases recurse <;> simp [text, parts, commands, calls, word, Shell.line, Shell.Command.text]
  | rsync delete src dst =>
    cases delete <;> simp [text, parts, commands, calls, word, Shell.line, Shell.Command.text]
  | pipePane session id =>
    simp [text, parts, commands, calls, word, Shell.line, Shell.Command.text, quote_pipeCommand]
  | _ => simp [text, parts, commands, calls, word, Shell.line, Shell.Command.text, Shell.Conn.text]

/-- **A remote line is read as its commands.** Whatever paths, names, input and commands are
put into it, each of them is one argument, as it is, and nothing in it is expanded. -/
theorem readAs_commands (l : RemoteLine) : Shell.ReadAs l.text l.commands := by
  rw [text_eq]
  cases l <;> exact Shell.readAs_line rfl _

/-! ## Lines of the calls -/

theorem sendKeysCommand_eq (window data : String) :
    sendKeysCommand window data = (sendKeys window.toList data.toList).text := by
  change "tmux send-keys -t ".toList ++ Shell.quote window.toList ++ " -- ".toList ++ Shell.quote data.toList = _
  simp [text, parts]

theorem fallbackCommand_eq (src dst : String) :
    (fallbackCommand src dst).toList = (fallback src.toList dst.toList).text := by
  change ("cp -ru " ++ shellQuote src ++ " " ++ shellQuote dst ++ " 2>&1 || true").toList = _
  simp [shellQuote, text, parts]

theorem mem_send {α : Type} {value : α → Ending} {server target : String} {line sent : List Char} {ending : Ending}
    {reply : RemoteReply α} (sends : .sent server sent ending ∈ (RemoteCall.send value target line reply).trace) :
    sent = line := by
  rw [RemoteCall.send] at sends
  split at sends
  · obtain ⟨-, rfl, -⟩ := Moment.sent.inj (List.mem_singleton.mp sends)
    rfl
  · cases sends

/-- `kill_process` sends nothing but a `kill`. -/
theorem sent_killProcess {repr : String → String} {id signal : String} {w : KillOutcome} {server : String} {sent : List Char}
    {ending : Ending} (sends : .sent server sent ending ∈ (killProcess repr id signal w).trace) :
    ∃ (allowed : signal ∈ allowedSignals) (pid : Int), sent = (kill signal allowed pid).text := by
  obtain ⟨record, connection, reply, saved⟩ := w
  cases record with
  | none => cases sends
  | some record =>
    rw [killProcess] at sends
    dsimp only at sends
    split at sends
    · cases sends
    · rename_i allowed
      rw [not_not] at allowed
      rcases Traced.mem_trace_bind sends with connects | ⟨_, sends⟩
      · cases connects
      rcases Traced.mem_trace_bind sends with here | ⟨_, sends⟩
      · refine ⟨allowed, record.remotePid, (mem_send here).trans ?_⟩
        simp [text, parts, number]
      rcases Traced.mem_trace_bind sends with saves | ⟨_, sends⟩
      · cases saves
      · cases List.mem_singleton.mp sends

/-- `pty_write` sends a session without tmux its input, and tmux the input as one argument. -/
theorem sent_sendPtyWrite {repr : String → String} {id data : String} {w : PtyWriteOutcome} {server : String}
    {sent : List Char} {ending : Ending} (sends : .sent server sent ending ∈ (sendPtyWrite repr id data w).trace) :
    sent = data.toList ∨ ∃ session, sent = (sendKeys session data.toList).text := by
  obtain ⟨session, process, window, connection, input, keys⟩ := w
  cases session with
  | none => cases sends
  | some session =>
    rw [sendPtyWrite] at sends
    dsimp only at sends
    rcases Traced.mem_trace_bind sends with here | ⟨_, sends⟩
    · rw [sendPtyInput] at here
      split at here
      · split at here
        · rcases Traced.mem_trace_bind here with typed | ⟨_, nothing⟩
          · exact .inr ⟨_, (mem_send typed).trans (sendKeysCommand_eq _ data)⟩
          · cases nothing
        · cases here
      · split at here
        · exact .inl (mem_send here)
        · cases here
    · cases List.mem_singleton.mp sends

end RemoteLine

end McpSsh
