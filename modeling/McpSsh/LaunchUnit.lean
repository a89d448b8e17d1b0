import McpSsh.LaunchText

/-!
# A launched command is one unit

The text that is put in front of a command binds to its first simple command only. Where
the command is handed to a shell of its own it stays one unit; where it is spliced in as
text it does exactly when nothing of it is beyond the reach of that front.
-/

set_option autoImplicit false

namespace McpSsh

open Base

/-! ## Entering the directory -/

section

variable (w : Shell.World)

theorem run_lead (shell : Shell.ShellState) (cwd : Option (List Char)) :
    Shell.run w { shell } (leadItems (lead cwd)) = entered w shell cwd := by
  cases cwd with
  | none => rfl
  | some dir =>
    by_cases empty : dir = []
    · subst empty
      rfl
    · have here : lead (some dir) = some dir := by simp [lead, empty]
      rw [here, entered, if_neg empty]
      rfl

theorem entered_none {shell : Shell.ShellState} {cwd : Option (List Char)} (none_ : lead cwd = none) :
    entered w shell cwd = { shell } := by
  cases cwd with
  | none => rfl
  | some dir =>
    have empty : dir = [] := by simpa [lead] using none_
    rw [entered, if_pos empty]

theorem entered_some {shell : Shell.ShellState} {cwd : Option (List Char)} {dir : List Char} (some_ : lead cwd = some dir) :
    let event := shell.event ["cd".toList, Shell.quote dir]
    let went := w.chdir [] event
    entered w shell cwd =
      { shell := if went.1 = 0 then { shell with cwd := went.2 } else shell, trace := [event], status := went.1 } := by
  rw [lead, Option.filter_eq_some_iff] at some_
  have given : dir ≠ [] := by simpa using some_.2
  rw [some_.1, entered, if_neg given]
  rfl

theorem entered_alive (shell : Shell.ShellState) (cwd : Option (List Char)) :
    (entered w shell cwd).exited = false ∧ (entered w shell cwd).shell.vars = shell.vars := by
  cases leads : lead cwd with
  | none =>
    rw [entered_none w leads]
    exact ⟨rfl, rfl⟩
  | some dir =>
    rw [entered_some w leads]
    refine ⟨rfl, ?_⟩
    dsimp only
    split <;> rfl

/-- Only `cd` can fail before the command. -/
theorem leadConn_entered {shell : Shell.ShellState} {cwd : Option (List Char)} (failed : (entered w shell cwd).status ≠ 0) :
    cdPart cwd ≠ [] ∧ leadConn (lead cwd) = .and := by
  cases leads : lead cwd with
  | none =>
    rw [entered_none w leads] at failed
    exact absurd rfl failed
  | some dir =>
    refine ⟨?_, rfl⟩
    rw [Ne, cdPart_eq_nil_iff, leads]
    exact Option.some_ne_none dir

theorem leadConn_runs (l : Option (List Char)) : (leadConn l).skips 0 = false := by
  cases l <;> rfl

theorem assignments_env {env : List EnvVar} (named : Named env) :
    (env.map EnvVar.assignment).map Shell.assignment = (env.map EnvVar.binding).map some := by
  rw [List.map_map, List.map_map]
  apply List.map_congr_left
  intro e member
  show Shell.assignment (Shell.quote e.name ++ '=' :: Shell.quote e.value) = some e.binding
  rw [Shell.quote_of_isName (named e member), Shell.assignment_quote (named e member)]
  rfl

theorem loginShell_exported (home : List Char) (base : List (List Char × List Char)) :
    ∀ b ∈ (loginShell home base).vars, b.exported = true := by
  intro b member
  obtain ⟨given, -, rfl⟩ := List.mem_map.mp member
  rfl

end

/-! ## A script as text -/

/-- What a script becomes behind the front. -/
def spliced (l : Option (List Char)) (env : List EnvVar) (ts : List Shell.Token) (script : Shell.Script) : Shell.Script :=
  if env ≠ [] ∧ ts.head? = some .newline then (leadConn l, env.map EnvVar.assignment) :: script
  else
    match script with
    | [] => []
    | (_, words) :: rest => (leadConn l, env.map EnvVar.assignment ++ words) :: rest

theorem spliced_ne_nil (l : Option (List Char)) (env : List EnvVar) (ts : List Shell.Token) {script : Shell.Script}
    (some_ : script ≠ []) : spliced l env ts script ≠ [] := by
  unfold spliced
  split
  · simp
  · cases script with
    | nil => exact absurd rfl some_
    | cons item rest => simp

theorem parse_spliced (l : Option (List Char)) (env : List EnvVar) {ts : List Shell.Token} {script : Shell.Script}
    (parsed : Shell.parse ts = some script) (some_ : script ≠ []) :
    Shell.parse (leadTokens l ++ (env.map EnvVar.assignment).map .word ++ ts) =
      some (leadItems l ++ spliced l env ts script) := by
  unfold spliced
  split
  · rename_i later
    exact parse_front_newline l later.1 parsed later.2
  · rename_i same
    cases script with
    | nil => exact absurd rfl some_
    | cons item rest => exact parse_front l env parsed (fun given newline => same ⟨given, newline⟩)

variable {scriptStatus : Nat → Nat}

section

variable {command : Command} {ts : List Shell.Token}

theorem Command.parse (lexed : Shell.lex command.text = some ts) : Shell.parse ts = some command.script := by
  have parsed := command.parsed
  rw [lexed] at parsed
  exact parsed

theorem Command.lexes (command : Command) : ∃ ts, Shell.lex command.text = some ts := by
  obtain ⟨ts, lexed, -⟩ := Option.bind_eq_some_iff.mp command.parsed
  exact ⟨ts, lexed⟩

/-- The command as `ssh_exec` runs it. -/
theorem launch_exec (lexed : Shell.lex command.text = some ts) (w : Shell.World) (shell : Shell.ShellState)
    (cwd : Option (List Char)) (env : List EnvVar) :
    let y := Shell.run w (entered w shell cwd) (spliced (lead cwd) env ts command.script)
    launch scriptStatus w .exec shell cwd env command.text = some ⟨y.trace, y.status, none⟩ := by
  rw [launch, launchExec, fullCmd, lex_front, lexed, Option.map_some, Option.bind_some,
    parse_spliced (lead cwd) env (command.parse lexed) command.nonempty]
  rw [Option.map_some, Shell.run_append, run_lead]

/-- The command as `start_process` runs it without a wrapper. -/
theorem launch_none (lexed : Shell.lex command.text = some ts) (closed : Closed command) (w : Shell.World)
    (id : ProcessId) (shell : Shell.ShellState) (cwd : Option (List Char)) (env : List EnvVar) :
    let y := Shell.run w (entered w shell cwd) (spliced (lead cwd) env ts command.script)
    launch scriptStatus w (.start .none id) shell cwd env command.text =
      some ⟨y.trace, y.status, some (exitFile id, y.status)⟩ := by
  obtain ⟨⟨before, m⟩, partly, ended⟩ := Option.bind_eq_some_iff.mp lexed
  obtain ⟨last, finish, rfl⟩ := Option.map_eq_some_iff.mp ended
  have inside : Shell.lexFrom .gap (inner .none cwd env command.text) =
      some (leadTokens (lead cwd) ++ (env.map EnvVar.assignment).map .word ++ before, m) := by
    show Shell.lexFrom .gap (cdPart cwd ++ envPart env ++ command.text) = _
    rw [lexFrom_front, partly]
    rfl
  have body := parse_spliced (lead cwd) env (command.parse lexed) command.nonempty
  have some_ : leadItems (lead cwd) ++ spliced (lead cwd) env (before ++ last) command.script ≠ [] := by
    simp [spliced_ne_nil _ _ _ command.nonempty]
  rw [launch, launchStart, lex_start id inside finish (closed before m partly), Option.bind_some,
    List.append_assoc _ before, parseLaunch_eq id body some_]
  simp only [Option.bind_some, Option.map_some, Shell.run_append, run_lead, exitWritten_exitScript]

/-- A comment at the end takes the closing parenthesis with it. -/
theorem launch_none_comment (unclosed : ¬ Closed command) (w : Shell.World) (id : ProcessId)
    (shell : Shell.ShellState) (cwd : Option (List Char)) (env : List EnvVar) :
    launch scriptStatus w (.start .none id) shell cwd env command.text = none := by
  obtain ⟨before, partly⟩ : ∃ before, Shell.lexFrom .gap command.text = some (before, .comment) := by
    simp only [Closed, not_forall, not_not] at unclosed
    obtain ⟨before, m, partly, rfl⟩ := unclosed
    exact ⟨before, partly⟩
  have lexed : Shell.lex command.text = some before := by
    rw [Shell.lex, partly]
    simp [Shell.Mode.finish]
  have inside : Shell.lexFrom .gap (inner .none cwd env command.text) =
      some (leadTokens (lead cwd) ++ (env.map EnvVar.assignment).map .word ++ before, .comment) := by
    show Shell.lexFrom .gap (cdPart cwd ++ envPart env ++ command.text) = _
    rw [lexFrom_front, partly]
    rfl
  have body := parse_spliced (lead cwd) env (command.parse lexed) command.nonempty
  rw [launch, launchStart, lex_start_comment id inside, Option.bind_some, parseLaunch_unclosed (Shell.no_parens body).2]
  rfl

/-! ### Handed to a shell of its own -/

theorem runUnit_entered {w : Shell.World} {shell : Shell.ShellState} {cwd : Option (List Char)}
    (ok : (entered w shell cwd).status = 0) (env : List EnvVar) (command : Command) :
    runUnit w shell cwd env command =
      Shell.run w { shell := (entered w shell cwd).shell.child (env.map EnvVar.binding),
                    trace := (entered w shell cwd).trace } command.script :=
  if_neg (not_not.mpr ok)

theorem runUnit_failed {w : Shell.World} {shell : Shell.ShellState} {cwd : Option (List Char)}
    (failed : (entered w shell cwd).status ≠ 0) (env : List EnvVar) (command : Command) :
    runUnit w shell cwd env command = entered w shell cwd :=
  if_pos failed

theorem launcher_words {wrapper : FlushWrapper} (wraps : wrapper ≠ .none) (text : List Char) :
    Shell.splitAssignments (wrapper.launcher ++ [Shell.quote text]) = ([], wrapper.launcher ++ [Shell.quote text]) := by
  cases wrapper with
  | none => exact absurd rfl wraps
  | stdbuf => rfl
  | script => rfl

theorem launcher_unquoted (wrapper : FlushWrapper) : wrapper.launcher.map Shell.unquote = wrapper.launcher := by
  cases wrapper <;> decide

/-- The command that a wrapper makes of a script. -/
def wrapped (wrapper : FlushWrapper) (l : Option (List Char)) (env : List EnvVar) (text : List Char) :
    Shell.Conn × List (List Char) :=
  (leadConn l, env.map EnvVar.assignment ++ (wrapper.launcher ++ [Shell.quote text]))

/-- The launcher runs the whole script in its own shell, or not at all. -/
theorem runLauncher_unit {wrapper : FlushWrapper} (wraps : wrapper ≠ .none) {env : List EnvVar} (named : Named env)
    (w : Shell.World) (shell : Shell.ShellState) (cwd : Option (List Char)) (command : Command) :
    let unit := runUnit w shell cwd env command
    let y := runLauncher scriptStatus w wrapper (entered w shell cwd) (wrapped wrapper (lead cwd) env command.text)
    y.trace = unit.trace ∧
      y.status = if (entered w shell cwd).status = 0 then wrapper.relay scriptStatus unit.status else unit.status := by
  have alive := (entered_alive w shell cwd).1
  by_cases ok : (entered w shell cwd).status = 0
  · have words : Shell.splitAssignments
        (env.map EnvVar.assignment ++ (wrapper.launcher ++ [Shell.quote command.text])) =
          (env.map EnvVar.binding, wrapper.launcher ++ [Shell.quote command.text]) := by
      rw [Shell.splitAssignments_append (assignments_env named), launcher_words wraps, List.append_nil]
    dsimp only
    rw [if_pos ok, runUnit_entered ok, runLauncher, wrapped, if_neg (by simp [alive, ok, leadConn_runs])]
    simp only [words, List.map_append, launcher_unquoted, List.map_cons, List.map_nil, Shell.unquote_quote,
      List.drop_left, List.take_left, command.parsed, if_true, and_self]
  · have skipped : (leadConn (lead cwd)).skips (entered w shell cwd).status = true := by
      rw [(leadConn_entered w ok).2]
      simpa [Shell.Conn.skips] using ok
    dsimp only
    rw [if_neg ok, runUnit_failed ok, runLauncher, wrapped, if_pos (by simp [skipped])]
    exact ⟨rfl, rfl⟩

theorem launchStart_wrapped {wrapper : FlushWrapper} (wraps : wrapper ≠ .none) {w : Shell.World} {id : ProcessId}
    {shell : Shell.ShellState} {text : List Char} {before : Shell.Script} {item : Shell.Conn × List (List Char)}
    (parsed : (Shell.lex text).bind parseLaunch = some (before ++ [item], exitScript id)) :
    let y := runLauncher scriptStatus w wrapper (Shell.run w { shell } before) item
    launchStart scriptStatus w wrapper shell text = some ⟨y.trace, y.status, some (exitFile id, y.status)⟩ := by
  rw [launchStart, parsed, Option.bind_some]
  cases wrapper with
  | none => exact absurd rfl wraps
  | _ =>
    simp only [List.getLast?_concat, List.dropLast_concat, Option.map_some, exitWritten_exitScript]

/-- The command as `start_process` runs it with a wrapper. -/
theorem launch_wrapped {wrapper : FlushWrapper} (wraps : wrapper ≠ .none) (w : Shell.World) (id : ProcessId)
    (shell : Shell.ShellState) (cwd : Option (List Char)) (env : List EnvVar) (text : List Char) :
    let y := runLauncher scriptStatus w wrapper (entered w shell cwd) (wrapped wrapper (lead cwd) env text)
    launch scriptStatus w (.start wrapper id) shell cwd env text =
      some ⟨y.trace, y.status, some (exitFile id, y.status)⟩ := by
  have inside : Shell.lexFrom .gap (inner wrapper cwd env text) =
      some (leadTokens (lead cwd) ++ (env.map EnvVar.assignment).map .word ++ wrapper.launcher.map .word,
        .word (Shell.quote text) .bare) := by
    rw [inner, lexFrom_front, lexFrom_execCommand wraps]
    rfl
  have sameLine : env ≠ [] →
      (wrapper.launcher.map Shell.Token.word ++ [Shell.Token.word (Shell.quote text)]).head? ≠ some .newline := by
    intro given
    cases wrapper <;> simp [FlushWrapper.launcher]
  have body := parse_front (lead cwd) env (parse_execCommand wraps text) sameLine
  have parsed : (Shell.lex (innerWithExit wrapper id cwd env text)).bind parseLaunch =
      some (leadItems (lead cwd) ++ [wrapped wrapper (lead cwd) env text], exitScript id) := by
    rw [lex_start id inside rfl (by simp), Option.bind_some, List.append_assoc _ (wrapper.launcher.map _)]
    exact parseLaunch_eq id body (by simp)
  rw [launch, launchStart_wrapped wraps parsed, run_lead]

end

/-! ## Spliced in as text -/

/-- The spliced script does what the script does as one unit. -/
def SplicedAsUnit (cwd : Option (List Char)) (env : List EnvVar) (command : Command) (ts : List Shell.Token) : Prop :=
  ∀ (w : Shell.World) (home : List Char) (base : List (List Char × List Char)),
    let unit := runUnit w (loginShell home base) cwd env command
    let y := Shell.run w (entered w (loginShell home base) cwd) (spliced (lead cwd) env ts command.script)
    y.trace = unit.trace ∧ y.status = unit.status

/-- The first command of a script. -/
theorem Command.first {command : Command} {ts : List Shell.Token} (lexed : Shell.lex command.text = some ts) :
    ∃ words rest, command.script = (.seq, words) :: rest ∧ words ≠ [] := by
  cases script : command.script with
  | nil => exact absurd script command.nonempty
  | cons item rest =>
    have parsed := command.parse lexed
    rw [script] at parsed
    have head := Shell.parseFrom_head parsed
    exact ⟨item.2, rest, by rw [← head.1], head.2.1⟩

section

variable {cwd : Option (List Char)} {env : List EnvVar} {command : Command} {ts : List Shell.Token}
  {words : List (List Char)} {rest : Shell.Script}

/-- The front and the first command on one line. -/
theorem spliced_same (script : command.script = (.seq, words) :: rest) (sameLine : env ≠ [] → ts.head? ≠ some .newline) :
    spliced (lead cwd) env ts command.script = (leadConn (lead cwd), env.map EnvVar.assignment ++ words) :: rest := by
  unfold spliced
  rw [if_neg (fun both => sameLine both.1 both.2), script]

/-- After a `cd` that fails a flat script does nothing. -/
theorem Flat.skipped (flat : Flat cwd env command) (script : command.script = (.seq, words) :: rest)
    (front : spliced (lead cwd) env ts command.script =
      (leadConn (lead cwd), env.map EnvVar.assignment ++ words) :: rest) {w : Shell.World} {shell : Shell.ShellState}
    (failed : (entered w shell cwd).status ≠ 0) :
    Shell.run w (entered w shell cwd) (spliced (lead cwd) env ts command.script) = entered w shell cwd := by
  obtain ⟨given, conn⟩ := leadConn_entered w failed
  have joined := flat.joined given
  rw [script, List.tail_cons] at joined
  apply Shell.run_skipped
  rw [front, List.forall_mem_cons]
  constructor
  · simpa [conn, Shell.Conn.skips] using failed
  · intro item member
    rw [joined item member]
    simpa [Shell.Conn.skips] using failed

theorem Flat.plain_bindings (flat : Flat cwd env command) (script : command.script = (.seq, words) :: rest)
    (given : env ≠ []) : ∀ word ∈ (Shell.splitAssignments words).2, ∀ b ∈ env.map EnvVar.binding,
      b.name ∉ Shell.reads word := by
  intro word member b bound
  obtain ⟨e, listed, rfl⟩ := List.mem_map.mp bound
  have reads := flat.plain given word
  simp only [script, List.head_cons] at reads
  exact reads member e listed

/-- Flat scripts are spliced in as they are. -/
theorem splicedAsUnit_of_flat (lexed : Shell.lex command.text = some ts) (named : Named env)
    (flat : Flat cwd env command) : SplicedAsUnit cwd env command ts := by
  intro w home base
  obtain ⟨words, rest, script, -⟩ := command.first lexed
  have front := @spliced_same cwd env command ts words rest script (fun given => flat.sameLine given ts lexed)
  obtain ⟨alive, vars⟩ := entered_alive w (loginShell home base) cwd
  by_cases ok : (entered w (loginShell home base) cwd).status = 0
  · have exported : ∀ b ∈ (entered w (loginShell home base) cwd).shell.vars, b.exported = true := by
      rw [vars]
      exact loginShell_exported home base
    have runs : (leadConn (lead cwd)).skips (entered w (loginShell home base) cwd).status = false := by
      rw [ok]
      exact leadConn_runs _
    dsimp only
    rw [runUnit_entered ok, Shell.ShellState.child_of_exported exported, front, script, Shell.run_cons, Shell.run_cons,
      Shell.runItem_runs alive runs, Shell.runItem_runs rfl rfl]
    generalize entered w (loginShell home base) cwd = x at ok alive
    obtain ⟨shell, trace, status, exited⟩ := x
    cases ok
    cases alive
    by_cases none_ : env = []
    · subst none_
      simp
    · have single : rest = [] := by simpa [script] using flat.single none_
      subst single
      exact Shell.runSimple_front (assignments_env named) (flat.plain_bindings script none_) _
  · dsimp only
    rw [flat.skipped script front ok, runUnit_failed ok]
    exact ⟨rfl, rfl⟩

end

/-! ### Commands that see the difference -/

/-- After `skip` commands every command ends with `status`; before, `cd` is fine. -/
def steadyWorld (skip status : Nat) : Shell.World where
  chdir before _ := (if before.length < skip then 0 else status, [])
  exec _ _ := ⟨status, false, id⟩

section

variable {skip status : Nat}

theorem runSimple_steady {x : Shell.Exec} (late : skip ≤ x.trace.length) (words : List (List Char)) :
    let y := Shell.runSimple (steadyWorld skip status) x words
    y.status = status ∧ (x.exited = false → y.exited = false) ∧
      y.shell.vars = if (Shell.splitAssignments words).2 = [] then
        (Shell.splitAssignments words).1.foldl Shell.assign x.shell.vars else x.shell.vars := by
  have past : ¬ x.trace.length < skip := by omega
  unfold Shell.runSimple
  dsimp only
  split
  · rename_i cd
    have some_ : (Shell.splitAssignments words).2 ≠ [] := by
      intro none_
      simp [none_] at cd
    rw [if_neg some_]
    refine ⟨by simp [steadyWorld, past], fun alive => alive, ?_⟩
    split <;> rfl
  · refine ⟨rfl, fun alive => rfl, ?_⟩
    show (if _ then _ else _ : Shell.ShellState).vars = _
    split <;> rfl

/-- A run of steady commands ends with their status. -/
theorem run_steady {x : Shell.Exec} (late : skip ≤ x.trace.length) (alive : x.exited = false) (same : x.status = status)
    (script : Shell.Script) : (Shell.run (steadyWorld skip status) x script).status = status := by
  induction script generalizing x with
  | nil => exact same
  | cons item script ih =>
    rw [Shell.run_cons]
    by_cases skipped : item.1.skips x.status = true
    · rw [Shell.runItem, if_pos (by simp [skipped])]
      exact ih late alive same
    · obtain ⟨ends, still, -⟩ := @runSimple_steady skip status x late item.2
      have here := @Shell.runItem_runs (steadyWorld skip status) x item.1 alive (by simpa using skipped) item.2
      rw [show (item.1, item.2) = item from rfl] at here
      rw [here]
      apply ih _ (still alive) ends
      rw [Shell.trace_runSimple, List.length_append]
      omega

end

/-! ### What they see -/

/-- Only the `cd` in front is fine whatever the status. -/
def probeWorld (cwd : Option (List Char)) (status : Nat) : Shell.World := steadyWorld (leadItems (lead cwd)).length status

/-- Where the spliced text begins. -/
def probeEntered (cwd : Option (List Char)) (status : Nat) : Shell.Exec :=
  entered (probeWorld cwd status) (loginShell [] []) cwd

/-- Where the script as one unit begins. -/
def probeUnit (cwd : Option (List Char)) (env : List EnvVar) (status : Nat) : Shell.Exec where
  shell := (probeEntered cwd status).shell.child (env.map EnvVar.binding)
  trace := (probeEntered cwd status).trace

theorem probeEntered_facts (cwd : Option (List Char)) (status : Nat) :
    (probeEntered cwd status).status = 0 ∧ (probeEntered cwd status).shell.vars = [] ∧
      (probeEntered cwd status).trace.length = (leadItems (lead cwd)).length := by
  unfold probeEntered probeWorld
  cases leads : lead cwd with
  | none =>
    rw [entered_none _ leads]
    exact ⟨rfl, rfl, rfl⟩
  | some dir =>
    rw [entered_some _ leads]
    exact ⟨rfl, rfl, rfl⟩

theorem probeEntered_alive (cwd : Option (List Char)) (status : Nat) : (probeEntered cwd status).exited = false :=
  (entered_alive _ _ _).1

theorem probeUnit_vars (cwd : Option (List Char)) (env : List EnvVar) (status : Nat) :
    (probeUnit cwd env status).shell.vars = env.map EnvVar.binding := by
  rw [probeUnit, Shell.ShellState.child, (probeEntered_facts cwd status).2.1]
  rfl

/-- What the script as one unit sees has all of `env`. -/
theorem named_of_event {cwd : Option (List Char)} {env : List EnvVar} {status : Nat} {e : EnvVar} (given : e ∈ env)
    {vars : List Shell.Binding} (valid : ∀ b ∈ vars, Shell.isName b.name = true) (words : List (List Char))
    (same : vars = ((probeUnit cwd env status).shell.event words).vars) : Shell.isName e.name = true := by
  apply valid e.binding
  rw [same, Shell.ShellState.event, probeUnit_vars]
  exact List.mem_append_left _ (List.mem_map_of_mem given)

/-- In a failing world `cd` fails too. -/
theorem entered_fails {cwd : Option (List Char)} (given : cdPart cwd ≠ []) :
    (entered (steadyWorld 0 1) (loginShell [] []) cwd).status ≠ 0 := by
  cases leads : lead cwd with
  | none => exact absurd ((cdPart_eq_nil_iff cwd).mpr leads) given
  | some dir =>
    rw [entered_some _ leads]
    exact Nat.one_ne_zero

section

variable {cwd : Option (List Char)} {env : List EnvVar} {command : Command} {ts : List Shell.Token}
  {front words : List (List Char)} {more rest : Shell.Script}

/-- Under a directory nothing may stand outside the reach of `cd`. -/
theorem SplicedAsUnit.joined (unit : SplicedAsUnit cwd env command ts) (given : cdPart cwd ≠ []) :
    ∀ item ∈ spliced (lead cwd) env ts command.script, item.1 = .and := by
  intro item member
  apply by_contra
  intro loose
  have failed := entered_fails given
  have traces := (unit (steadyWorld 0 1) [] []).1
  rw [runUnit_failed failed] at traces
  exact Shell.trace_run_ne (entered_alive _ _ _).1 failed member loose traces

theorem SplicedAsUnit.probe (unit : SplicedAsUnit cwd env command ts) (status : Nat) :
    (Shell.run (probeWorld cwd status) (probeEntered cwd status) (spliced (lead cwd) env ts command.script)).trace =
      (Shell.run (probeWorld cwd status) (probeUnit cwd env status) command.script).trace := by
  have traces := (unit (probeWorld cwd status) [] []).1
  rw [runUnit_entered (probeEntered_facts cwd status).1] at traces
  exact traces

/-- The first command of both runs sees the same. -/
theorem SplicedAsUnit.first_event (unit : SplicedAsUnit cwd env command ts)
    (splices : spliced (lead cwd) env ts command.script = (leadConn (lead cwd), front) :: more)
    (script : command.script = (.seq, words) :: rest) (status : Nat) :
    (probeEntered cwd status).shell.event front = (probeUnit cwd env status).shell.event words := by
  have traces := unit.probe status
  have runs : (leadConn (lead cwd)).skips (probeEntered cwd status).status = false := by
    rw [(probeEntered_facts cwd status).1]
    exact leadConn_runs _
  obtain ⟨after, text⟩ := @Shell.trace_first (probeWorld cwd status) _ _ (probeEntered_alive cwd status) runs front more
  obtain ⟨after', whole⟩ := @Shell.trace_first (probeWorld cwd status) (probeUnit cwd env status) .seq rfl rfl words rest
  rw [splices, script, text, whole] at traces
  exact (List.cons.inj (List.append_cancel_left traces)).1

/-- A name that the shell cannot assign to is not applied. -/
theorem SplicedAsUnit.named (unit : SplicedAsUnit cwd env command ts) (lexed : Shell.lex command.text = some ts) :
    Named env := by
  intro e given
  obtain ⟨words, rest, script, -⟩ := command.first lexed
  obtain ⟨front, more, splices⟩ : ∃ front more,
      spliced (lead cwd) env ts command.script = (leadConn (lead cwd), front) :: more := by
    unfold spliced
    split
    · exact ⟨_, _, rfl⟩
    · rw [script]
      exact ⟨_, _, rfl⟩
  have vars := congrArg Shell.Event.vars (unit.first_event splices script 0)
  apply named_of_event given _ words vars
  intro b member
  rw [Shell.ShellState.event, (probeEntered_facts cwd 0).2.1, List.nil_append] at member
  exact Shell.isName_of_mem_splitAssignments member

/-- The assignments are part of the first command. -/
theorem SplicedAsUnit.sameLine (unit : SplicedAsUnit cwd env command ts) (lexed : Shell.lex command.text = some ts)
    (given : env ≠ []) : ts.head? ≠ some .newline := by
  intro later
  have named := unit.named lexed
  obtain ⟨words, rest, script, some_⟩ := command.first lexed
  have splices : spliced (lead cwd) env ts command.script =
      (leadConn (lead cwd), env.map EnvVar.assignment) :: command.script := if_pos ⟨given, later⟩
  have same := unit.first_event splices script 0
  have front := Shell.splitAssignments_append (assignments_env named) []
  rw [List.append_nil] at front
  rw [Shell.ShellState.event, Shell.ShellState.event, probeUnit_vars, (probeEntered_facts cwd 0).2.1, front,
    Shell.Event.mk.injEq] at same
  obtain ⟨none_, vars, -⟩ := same
  have bindings : (Shell.splitAssignments words).1 = [] := by
    simpa [Shell.splitAssignments] using vars
  have others : (Shell.splitAssignments words).2 = [] := by
    simpa [Shell.splitAssignments] using none_
  exact some_ (Shell.splitAssignments_nil bindings others)

/-- The assignments are not there yet when the first command is expanded. -/
theorem SplicedAsUnit.plain (unit : SplicedAsUnit cwd env command ts) (named : Named env)
    (splices : spliced (lead cwd) env ts command.script =
      (leadConn (lead cwd), env.map EnvVar.assignment ++ words) :: rest)
    (script : command.script = (.seq, words) :: rest) :
    ∀ word ∈ (Shell.splitAssignments words).2, ∀ e ∈ env, e.name ∉ Shell.reads word := by
  intro word member e given reads
  have same := unit.first_event splices script 0
  rw [Shell.ShellState.event, Shell.ShellState.event, probeUnit_vars, (probeEntered_facts cwd 0).2.1,
    Shell.splitAssignments_append (assignments_env named), Shell.Event.mk.injEq] at same
  have used := List.map_inj_left.mp same.1 word member
  have seen : Shell.seen [] e.name = Shell.seen (env.map EnvVar.binding) e.name :=
    List.map_inj_left.mp (Prod.mk.inj used).2 e.name reads
  have some_ : Shell.seen (env.map EnvVar.binding) e.binding.name ≠ [] :=
    Shell.seen_ne_nil (List.mem_map_of_mem given)
  exact some_ seen.symm

/-- The assignments reach the first command only. -/
theorem SplicedAsUnit.single (unit : SplicedAsUnit cwd env command ts) (named : Named env) (given : env ≠ [])
    (splices : spliced (lead cwd) env ts command.script =
      (leadConn (lead cwd), env.map EnvVar.assignment ++ words) :: rest)
    (script : command.script = (.seq, words) :: rest) : rest = [] := by
  cases rest with
  | nil => rfl
  | cons second rest =>
    obtain ⟨conn, words'⟩ := second
    -- A status after which the second command runs.
    obtain ⟨status, runs⟩ : ∃ status, conn.skips status = false := by
      cases conn with
      | or => exact ⟨1, rfl⟩
      | _ => exact ⟨0, rfl⟩
    have traces := unit.probe status
    obtain ⟨ok, none_, length⟩ := probeEntered_facts cwd status
    have enters : (leadConn (lead cwd)).skips (probeEntered cwd status).status = false := by
      rw [ok]
      exact leadConn_runs _
    obtain ⟨ends, alive, vars⟩ := @runSimple_steady (leadItems (lead cwd)).length status (probeEntered cwd status)
      length.ge (env.map EnvVar.assignment ++ words)
    obtain ⟨ends', alive', vars'⟩ := @runSimple_steady (leadItems (lead cwd)).length status (probeUnit cwd env status)
      length.ge words
    obtain ⟨after, text⟩ := @Shell.trace_second (probeWorld cwd status) _ _ conn _ (probeEntered_alive cwd status) enters
      (alive (probeEntered_alive cwd status)) ((congrArg conn.skips ends).trans runs) words' rest
    obtain ⟨after', whole⟩ := @Shell.trace_second (probeWorld cwd status) (probeUnit cwd env status) .seq conn words rfl
      rfl (alive' rfl) ((congrArg conn.skips ends').trans runs) words' rest
    rw [splices, script, text, whole] at traces
    have events := List.cons.inj (List.cons.inj (List.append_cancel_left traces)).2
    have same := List.append_cancel_right (congrArg Shell.Event.vars events.1)
    rw [probeWorld, vars, vars', probeUnit_vars, none_, Shell.splitAssignments_append (assignments_env named)] at same
    exfalso
    split at same
    · -- Assignments alone: an `env` variable comes from outside, and is exported.
      cases env with
      | nil => exact given rfl
      | cons e env =>
        obtain ⟨some_, text⟩ := Shell.foldl_assign_prefix (Shell.assign [] e.binding)
          (env.map EnvVar.binding ++ (Shell.splitAssignments words).1)
        obtain ⟨others, unit⟩ := Shell.foldl_assign_prefix (e.binding :: env.map EnvVar.binding)
          (Shell.splitAssignments words).1
        rw [List.map_cons, List.cons_append, List.foldl_cons, text, unit] at same
        have heads := (List.cons.inj same).1
        exact Bool.false_ne_true (congrArg Shell.Binding.exported heads)
    · exact given (List.map_eq_nil_iff.mp same.symm)

theorem SplicedAsUnit.flat (unit : SplicedAsUnit cwd env command ts) (lexed : Shell.lex command.text = some ts) :
    Flat cwd env command := by
  obtain ⟨words, rest, script, -⟩ := command.first lexed
  have splices := @spliced_same cwd env command ts words rest script (fun given => unit.sameLine lexed given)
  constructor
  · intro given item member
    have bound := unit.joined given item
    rw [splices] at bound
    rw [script, List.tail_cons] at member
    exact bound (List.mem_cons_of_mem _ member)
  · intro given
    rw [script, List.tail_cons]
    exact unit.single (unit.named lexed) given splices script
  · intro given others lexed'
    obtain rfl := Option.some.inj (lexed.symm.trans lexed')
    exact unit.sameLine lexed given
  · intro given
    simp only [script, List.head_cons]
    exact unit.plain (unit.named lexed) splices script

/-- **Text in front leaves a script one unit** exactly when it is flat. -/
theorem splicedAsUnit_iff (lexed : Shell.lex command.text = some ts) :
    SplicedAsUnit cwd env command ts ↔ Named env ∧ Flat cwd env command :=
  ⟨fun unit => ⟨unit.named lexed, unit.flat lexed⟩, fun both => splicedAsUnit_of_flat lexed both.1 both.2⟩

/-- A script can end with any status. -/
theorem runUnit_probe (cwd : Option (List Char)) (env : List EnvVar) (command : Command) (status : Nat) :
    (entered (probeWorld cwd status) (loginShell [] []) cwd).status = 0 ∧
      (runUnit (probeWorld cwd status) (loginShell [] []) cwd env command).status = status := by
  have ok := (probeEntered_facts cwd status).1
  obtain ⟨ts, lexed⟩ := command.lexes
  obtain ⟨words, rest, script, -⟩ := command.first lexed
  have late : (leadItems (lead cwd)).length ≤ (probeUnit cwd env status).trace.length :=
    (probeEntered_facts cwd status).2.2.ge
  obtain ⟨ends, alive, -⟩ := @runSimple_steady _ status (probeUnit cwd env status) late words
  refine ⟨ok, ?_⟩
  rw [runUnit_entered ok, script, Shell.run_cons]
  show (Shell.run (probeWorld cwd status)
    (Shell.runItem (probeWorld cwd status) (probeUnit cwd env status) (.seq, words)) rest).status = status
  rw [Shell.runItem_runs rfl rfl]
  apply run_steady _ (alive rfl) ends
  rw [Shell.trace_runSimple, List.length_append]
  omega

end

/-! ## Every form -/

/-- What the script of a wrapper sees first has names that the shell can assign to. -/
theorem runLauncher_first (wrapper : FlushWrapper) (cwd : Option (List Char)) (env : List EnvVar) (text : List Char)
    (status : Nat) :
    let x := probeEntered cwd status
    let y := runLauncher scriptStatus (probeWorld cwd status) wrapper x (wrapped wrapper (lead cwd) env text)
    y.trace = x.trace ∨
      ∃ event more, y.trace = x.trace ++ event :: more ∧ ∀ b ∈ event.vars, Shell.isName b.name = true := by
  obtain ⟨ok, none_, -⟩ := probeEntered_facts cwd status
  have alive := probeEntered_alive cwd status
  dsimp only
  rw [runLauncher, wrapped, if_neg (by simp [alive, ok, leadConn_runs])]
  dsimp only
  split
  · rename_i inner_ handed
    split
    · exact .inl rfl
    · rename_i script parsed
      cases script with
      | nil => exact .inl rfl
      | cons item rest =>
        obtain ⟨ts, -, parsed⟩ := Option.bind_eq_some_iff.mp parsed
        obtain ⟨conn, words⟩ := item
        obtain rfl := (Shell.parseFrom_head parsed).1
        obtain ⟨more, trace⟩ := @Shell.trace_first (probeWorld cwd status)
          { shell := (probeEntered cwd status).shell.child (Shell.splitAssignments (env.map EnvVar.assignment ++
              (wrapper.launcher ++ [Shell.quote text]))).1,
            trace := (probeEntered cwd status).trace } .seq rfl rfl words rest
        refine .inr ⟨_, more, trace, ?_⟩
        intro b member
        rw [Shell.ShellState.event, Shell.ShellState.child, none_, List.mem_append] at member
        exact member.elim Shell.isName_of_mem_splitAssignments Shell.isName_of_mem_splitAssignments
  · refine .inr ⟨_, [], Shell.trace_runSimple _ _, ?_⟩
    intro b member
    rw [Shell.ShellState.event, none_] at member
    exact Shell.isName_of_mem_splitAssignments member

theorem named_of_wrapped {wrapper : FlushWrapper} (wraps : wrapper ≠ .none) {id : ProcessId} {cwd : Option (List Char)}
    {env : List EnvVar} {command : Command} (runs : RunsAsUnit scriptStatus (.start wrapper id) cwd env command) :
    Named env := by
  intro e given
  have launched := runs (probeWorld cwd 0) [] []
  dsimp only at launched
  rw [launch_wrapped wraps, runUnit_entered (probeEntered_facts cwd 0).1] at launched
  have traces := congrArg Launched.trace (Option.some.inj launched)
  obtain ⟨ts, lexed⟩ := command.lexes
  obtain ⟨words, rest, script, -⟩ := command.first lexed
  obtain ⟨after, unit⟩ := @Shell.trace_first (probeWorld cwd 0) (probeUnit cwd env 0) .seq rfl rfl words rest
  rw [script] at traces
  have first := @runLauncher_first scriptStatus wrapper cwd env command.text 0
  have same := traces.trans unit
  rcases first with nothing | ⟨event, more, text, valid⟩
  · have clash := nothing.symm.trans same
    exact absurd (List.self_eq_append_right.mp clash) (List.cons_ne_nil _ _)
  · have both := text.symm.trans same
    have vars := congrArg Shell.Event.vars (List.cons.inj (List.append_cancel_left both)).1
    exact named_of_event given valid words vars

section

variable {cwd : Option (List Char)} {env : List EnvVar} {command : Command} {id : ProcessId}

theorem runsAsUnit_exec_iff : RunsAsUnit scriptStatus .exec cwd env command ↔ Named env ∧ Flat cwd env command := by
  obtain ⟨ts, lexed⟩ := command.lexes
  rw [← splicedAsUnit_iff lexed]
  apply forall_congr'
  intro w
  apply forall_congr'
  intro home
  apply forall_congr'
  intro base
  rw [launch_exec lexed]
  simp

theorem runsAsUnit_none_iff :
    RunsAsUnit scriptStatus (.start .none id) cwd env command ↔ Named env ∧ Flat cwd env command ∧ Closed command := by
  obtain ⟨ts, lexed⟩ := command.lexes
  rw [← and_assoc, ← splicedAsUnit_iff lexed]
  constructor
  · intro runs
    have closed : Closed command := by
      apply by_contra
      intro unclosed
      have launched := runs (probeWorld cwd 0) [] []
      dsimp only at launched
      rw [launch_none_comment unclosed] at launched
      cases launched
    refine ⟨fun w home base => ?_, closed⟩
    have launched := runs w home base
    dsimp only at launched
    rw [launch_none lexed closed] at launched
    have same := Option.some.inj launched
    exact ⟨congrArg Launched.trace same, congrArg Launched.status same⟩
  · rintro ⟨unit, closed⟩ w home base
    obtain ⟨trace, status⟩ := unit w home base
    rw [launch_none lexed closed, trace, status]

theorem runsAsUnit_stdbuf_iff : RunsAsUnit scriptStatus (.start .stdbuf id) cwd env command ↔ Named env := by
  refine ⟨fun runs => named_of_wrapped (by decide) runs, fun named w home base => ?_⟩
  obtain ⟨trace, status⟩ := @runLauncher_unit scriptStatus .stdbuf (by decide) env named w (loginShell home base) cwd
    command
  rw [launch_wrapped (by decide), trace, status]
  simp [FlushWrapper.relay]

/-- `script(1)` has to pass on any status, since a script can end with any. -/
theorem runsAsUnit_script_iff : RunsAsUnit scriptStatus (.start .script id) cwd env command ↔
    Named env ∧ ∀ status, scriptStatus status = status := by
  constructor
  · intro runs
    have named := named_of_wrapped (by decide) runs
    refine ⟨named, fun status => ?_⟩
    have launched := runs (probeWorld cwd status) [] []
    obtain ⟨ok, ends⟩ := runUnit_probe cwd env command status
    obtain ⟨-, relayed⟩ := @runLauncher_unit scriptStatus .script (by decide) env named (probeWorld cwd status)
      (loginShell [] []) cwd command
    dsimp only at launched
    rw [launch_wrapped (by decide)] at launched
    have same := congrArg Launched.status (Option.some.inj launched)
    rw [relayed, if_pos ok, ends] at same
    exact same
  · rintro ⟨named, relays⟩ w home base
    obtain ⟨trace, status⟩ := @runLauncher_unit scriptStatus .script (by decide) env named w (loginShell home base) cwd
      command
    rw [launch_wrapped (by decide), trace, status]
    simp [FlushWrapper.relay, relays]

end

/-- `foo; bar` under a directory that is not there: `bar` runs. -/
def looseCommand : Command where
  text := "foo; bar".toList
  script := [(.seq, ["foo".toList]), (.seq, ["bar".toList])]
  parsed := by decide +kernel
  nonempty := by decide

end McpSsh
