import McpSsh.Base.ShellRun

/-!
# Launching commands

The shell text that `ssh_exec` and `start_process` build around a command, and what the
remote shell makes of it. `cwd` and `env` are the effective ones; an exit file is named
after the process id.
-/

set_option autoImplicit false

namespace McpSsh

open Base

/-- A variable of `env`. -/
structure EnvVar where
  name : List Char
  value : List Char

/-- A UUID, as it is written into file names. -/
structure ProcessId where
  text : List Char
  plain : text.all Shell.isSafe = true

/-- `_detect_flush_wrapper`. -/
inductive FlushWrapper where
  | stdbuf
  | script
  | none
deriving DecidableEq

/-- How a command is launched. -/
inductive LaunchForm where
  | exec
  | start (wrapper : FlushWrapper) (id : ProcessId)

/-! ## The text -/

/-- `f"{shlex.quote(k)}={shlex.quote(v)}"`. -/
def EnvVar.assignment (e : EnvVar) : List Char := Shell.quote e.name ++ '=' :: Shell.quote e.value

def envExports (env : List EnvVar) : List Char := [' '].intercalate (env.map EnvVar.assignment)

/-- `cd_part`. -/
def cdPart (cwd : Option (List Char)) : List Char :=
  match cwd with
  | none => []
  | some dir => if dir = [] then [] else "cd ".toList ++ Shell.quote dir ++ " && ".toList

def envPart (env : List EnvVar) : List Char := if envExports env = [] then [] else envExports env ++ [' ']

/-- `full_cmd` of `ssh_exec`. -/
def fullCmd (cwd : Option (List Char)) (env : List EnvVar) (command : List Char) : List Char :=
  cdPart cwd ++ envPart env ++ command

def execCommand (wrapper : FlushWrapper) (command : List Char) : List Char :=
  match wrapper with
  | .stdbuf => "stdbuf -oL -eL bash -c ".toList ++ Shell.quote command
  | .script => "script -q /dev/null -c ".toList ++ Shell.quote command
  | .none => command

def inner (wrapper : FlushWrapper) (cwd : Option (List Char)) (env : List EnvVar) (command : List Char) : List Char :=
  cdPart cwd ++ envPart env ++ execCommand wrapper command

def logFile (id : ProcessId) : List Char := "/tmp/mcp-".toList ++ id.text ++ ".log".toList

def exitFile (id : ProcessId) : List Char := "/tmp/mcp-".toList ++ id.text ++ ".exit".toList

/-- `inner_with_exit`. -/
def innerWithExit (wrapper : FlushWrapper) (id : ProcessId) (cwd : Option (List Char)) (env : List EnvVar)
    (command : List Char) : List Char :=
  "(".toList ++ inner wrapper cwd env command ++ "); echo $? > ".toList ++ exitFile id

/-- `remote_cmd`. -/
def remoteCmd (wrapper : FlushWrapper) (id : ProcessId) (cwd : Option (List Char)) (env : List EnvVar)
    (command : List Char) : List Char :=
  "nohup bash -c ".toList ++ Shell.quote (innerWithExit wrapper id cwd env command) ++ " > ".toList ++ logFile id ++
    " 2>&1 & echo $!".toList

/-! ## What the shell makes of it -/

/-- What the commands of a launch saw, the status, and the exit file if one is written. -/
structure Launched where
  trace : List Shell.Event
  status : Nat
  exit : Option (List Char × Nat)

/-- `( list ) ; list`. -/
def parseLaunch (ts : List Shell.Token) : Option (Shell.Script × Shell.Script) :=
  match ts with
  | .lparen :: ts =>
    match ts.dropWhile (· ≠ .rparen) with
    | .rparen :: .semi :: rest =>
      (Shell.parse (ts.takeWhile (· ≠ .rparen))).bind fun body =>
        if body = [] then none else (Shell.parse rest).map fun after => (body, after)
    | _ => none
  | _ => none

/-- The commands after the list in parentheses: `echo $? > file`. -/
def exitWritten (after : Shell.Script) (status : Nat) : Option (List Char × Nat) :=
  match after with
  | [(_, [echo, last, into, file])] =>
    if echo = "echo".toList ∧ last = "$?".toList ∧ into = ">".toList then some (Shell.unquote file, status) else none
  | _ => none

/-- The words that hand a script to a new shell. -/
def FlushWrapper.launcher : FlushWrapper → List (List Char)
  | stdbuf => ["stdbuf".toList, "-oL".toList, "-eL".toList, "bash".toList, "-c".toList]
  | script => ["script".toList, "-q".toList, "/dev/null".toList, "-c".toList]
  | none => []

/-- The status that the launcher ends with; `script(1)` need not pass on its command's. -/
def FlushWrapper.relay (scriptStatus : Nat → Nat) : FlushWrapper → Nat → Nat
  | script => scriptStatus
  | _ => id

/-- A login shell. -/
def loginShell (home : List Char) (base : List (List Char × List Char)) : Shell.ShellState :=
  ⟨home, base.map fun b => ⟨b.1, .text b.2, true⟩⟩

section

variable (scriptStatus : Nat → Nat) (w : Shell.World)

/-- The command that hands a script to a new shell; a script that does not parse ends
with status 2. What is no launcher is a command like any other. -/
def runLauncher (wrapper : FlushWrapper) (x : Shell.Exec) (item : Shell.Conn × List (List Char)) : Shell.Exec :=
  if x.exited || item.1.skips x.status then x
  else
    let words := (Shell.splitAssignments item.2).2.map Shell.unquote
    match if words.take wrapper.launcher.length = wrapper.launcher then words.drop wrapper.launcher.length else [] with
    | [text] =>
      match (Shell.lex text).bind Shell.parse with
      | none => { x with status := wrapper.relay scriptStatus 2 }
      | some script =>
        let y := Shell.run w { shell := x.shell.child (Shell.splitAssignments item.2).1, trace := x.trace } script
        { x with trace := y.trace, status := wrapper.relay scriptStatus y.status }
    | _ => Shell.runSimple w x item.2

/-- The text is run as the commands of a shell. -/
def launchExec (shell : Shell.ShellState) (text : List Char) : Option Launched :=
  ((Shell.lex text).bind Shell.parse).map fun script =>
    let y := Shell.run w { shell } script
    ⟨y.trace, y.status, none⟩

/-- The text is run by `bash -c`, with the launcher as its last command if there is one. -/
def launchStart (wrapper : FlushWrapper) (shell : Shell.ShellState) (text : List Char) : Option Launched :=
  ((Shell.lex text).bind parseLaunch).bind fun parsed =>
    let ran :=
      match wrapper with
      | .none => some (Shell.run w { shell } parsed.1)
      | _ => parsed.1.getLast?.map (runLauncher scriptStatus w wrapper (Shell.run w { shell } parsed.1.dropLast))
    ran.map fun y => ⟨y.trace, y.status, exitWritten parsed.2 y.status⟩

/-- What a launch does. -/
def launch (form : LaunchForm) (shell : Shell.ShellState) (cwd : Option (List Char)) (env : List EnvVar)
    (command : List Char) : Option Launched :=
  match form with
  | .exec => launchExec w shell (fullCmd cwd env command)
  | .start wrapper id => launchStart scriptStatus w wrapper shell (innerWithExit wrapper id cwd env command)

end

/-! ## A command as one unit -/

/-- A valid script: at least one simple command. -/
structure Command where
  text : List Char
  script : Shell.Script
  parsed : (Shell.lex text).bind Shell.parse = some script
  nonempty : script ≠ []

def EnvVar.binding (e : EnvVar) : Shell.Binding := ⟨e.name, .text e.value, true⟩

/-- The shell in which the command is to run: in `cwd`, if there is one and `cd` does
not fail. -/
def entered (w : Shell.World) (shell : Shell.ShellState) (cwd : Option (List Char)) : Shell.Exec :=
  match cwd with
  | none => { shell }
  | some dir => if dir = [] then { shell } else Shell.runSimple w { shell } ["cd".toList, Shell.quote dir]

/-- The whole script runs in `cwd` with `env` applied, or not at all. -/
def runUnit (w : Shell.World) (shell : Shell.ShellState) (cwd : Option (List Char)) (env : List EnvVar)
    (command : Command) : Shell.Exec :=
  let x := entered w shell cwd
  if x.status ≠ 0 then x
  else Shell.run w { shell := x.shell.child (env.map EnvVar.binding), trace := x.trace } command.script

/-- The launch runs the script as one unit, and writes its status to the exit file. -/
def RunsAsUnit (scriptStatus : Nat → Nat) (form : LaunchForm) (cwd : Option (List Char)) (env : List EnvVar)
    (command : Command) : Prop :=
  ∀ (w : Shell.World) (home : List Char) (base : List (List Char × List Char)),
    let unit := runUnit w (loginShell home base) cwd env command
    launch scriptStatus w form (loginShell home base) cwd env command.text = some ⟨unit.trace, unit.status,
      match form with
      | .exec => none
      | .start _ id => some (exitFile id, unit.status)⟩

/-- Nothing stands between the script and its shell that binds to a part of it: under a
`cwd` all commands are joined by `&&`; an `env` has one command, on the first line, that
expands none of its variables. -/
structure Flat (cwd : Option (List Char)) (env : List EnvVar) (command : Command) : Prop where
  joined : cdPart cwd ≠ [] → ∀ item ∈ command.script.tail, item.1 = .and
  single : env ≠ [] → command.script.tail = []
  sameLine : env ≠ [] → ∀ ts, Shell.lex command.text = some ts → ts.head? ≠ some .newline
  plain : env ≠ [] → ∀ word ∈ (Shell.splitAssignments (command.script.head command.nonempty).2).2,
    ∀ e ∈ env, e.name ∉ Shell.reads word

/-- The text does not end inside a comment. -/
def Closed (command : Command) : Prop := ∀ ts m, Shell.lexFrom .gap command.text = some (ts, m) → m ≠ .comment

/-- Every variable has a name that the shell can assign to. -/
def Named (env : List EnvVar) : Prop := ∀ e ∈ env, Shell.isName e.name = true

/-- When a launch form runs the command as one unit. -/
def UnitWhen (scriptStatus : Nat → Nat) (form : LaunchForm) (cwd : Option (List Char)) (env : List EnvVar)
    (command : Command) : Prop :=
  Named env ∧ match form with
    | .exec => Flat cwd env command
    | .start .stdbuf _ => True
    | .start .script _ => ∀ status, scriptStatus status = status
    | .start .none _ => Flat cwd env command ∧ Closed command

end McpSsh
