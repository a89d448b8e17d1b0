import McpSsh.Launch

/-!
# The text of a launch

What the text that is put in front of a command and behind it is to the remote shell. The
front binds to the first command on its line; a comment swallows what comes behind it.
-/

set_option autoImplicit false

namespace McpSsh

open Base

/-! ## The text in front -/

/-- The directory to change to, if there is one. -/
def lead (cwd : Option (List Char)) : Option (List Char) := cwd.filter (· ≠ [])

def leadTokens : Option (List Char) → List Shell.Token
  | none => []
  | some dir => [.word "cd".toList, .word (Shell.quote dir), .andIf]

def leadItems : Option (List Char) → Shell.Script
  | none => []
  | some dir => [(.seq, ["cd".toList, Shell.quote dir])]

/-- What stands before the command that follows. -/
def leadConn : Option (List Char) → Shell.Conn
  | none => .seq
  | some _ => .and

theorem cdPart_eq_nil_iff (cwd : Option (List Char)) : cdPart cwd = [] ↔ lead cwd = none := by
  cases cwd with
  | none => simp [cdPart, lead]
  | some dir => by_cases empty : dir = [] <;> simp [cdPart, lead, empty]

theorem lexFrom_cdPart (cwd : Option (List Char)) :
    Shell.lexFrom .gap (cdPart cwd) = some (leadTokens (lead cwd), .gap) := by
  cases cwd with
  | none => rfl
  | some dir =>
    by_cases empty : dir = []
    · subst empty
      rfl
    · have here : lead (some dir) = some dir := by
        simp [lead, empty]
      have cd : Shell.lexFrom .gap "cd ".toList = some ([.word "cd".toList], .gap) := by decide
      have joins : ∀ raw, Shell.lexFrom (.word raw .bare) " && ".toList = some ([.word raw, .andIf], .gap) := by
        intro raw
        simp [Shell.lexFrom, Shell.lexStep, Shell.wordStep, Shell.bareStep, Shell.isBlank]
      rw [cdPart, if_neg empty, List.append_assoc, Shell.lexFrom_trans cd,
        Shell.lexFrom_trans (Shell.lexFrom_gap_quote dir), joins, here]
      rfl

theorem lexFrom_assignment (e : EnvVar) :
    Shell.lexFrom .gap (e.assignment ++ [' ']) = some ([.word e.assignment], .gap) := by
  have equals : ∀ raw, Shell.lexFrom (.word raw .bare) ['='] = some ([], .word (raw ++ ['=']) .bare) := by
    intro raw
    simp [Shell.lexFrom, Shell.lexStep, Shell.wordStep, Shell.bareStep, Shell.isBlank]
  have ends : ∀ raw, Shell.lexFrom (.word raw .bare) [' '] = some ([.word raw], .gap) := by
    intro raw
    simp [Shell.lexFrom, Shell.lexStep, Shell.wordStep, Shell.bareStep, Shell.isBlank]
  have whole : e.assignment ++ [' '] = Shell.quote e.name ++ (['='] ++ (Shell.quote e.value ++ [' '])) := by
    simp [EnvVar.assignment]
  rw [whole, Shell.lexFrom_trans (Shell.lexFrom_gap_quote e.name), Shell.lexFrom_trans (equals _),
    Shell.lexFrom_trans (Shell.lexFrom_quote e.value _), ends]
  simp [EnvVar.assignment]

/-- Every assignment is followed by a blank. -/
theorem envPart_eq (env : List EnvVar) : envPart env = env.flatMap fun e => e.assignment ++ [' '] := by
  have joined : ∀ env : List EnvVar, env ≠ [] →
      envExports env ++ [' '] = env.flatMap fun e => e.assignment ++ [' '] := by
    intro env some_
    induction env with
    | nil => exact absurd rfl some_
    | cons e env ih =>
      cases env with
      | nil => simp [envExports, List.intercalate]
      | cons f env =>
        rw [List.flatMap_cons, ← ih (by simp)]
        simp [envExports, List.intercalate]
  cases env with
  | nil => rfl
  | cons e env =>
    have some_ : envExports (e :: env) ≠ [] := by
      intro none_
      have whole := joined (e :: env) (by simp)
      have equals : '=' ∈ (e :: env).flatMap fun e => e.assignment ++ [' '] := by
        simp [EnvVar.assignment]
      rw [← whole, none_] at equals
      exact absurd equals (by decide)
    rw [envPart, if_neg some_, joined (e :: env) (by simp)]

theorem lexFrom_envPart (env : List EnvVar) :
    Shell.lexFrom .gap (envPart env) = some (env.map fun e => .word e.assignment, .gap) := by
  rw [envPart_eq]
  induction env with
  | nil => rfl
  | cons e env ih =>
    rw [List.flatMap_cons, Shell.lexFrom_trans (lexFrom_assignment e), ih]
    rfl

/-- **The text in front is tokens of its own.** -/
theorem lexFrom_front (cwd : Option (List Char)) (env : List EnvVar) (text : List Char) :
    Shell.lexFrom .gap (cdPart cwd ++ envPart env ++ text) = (Shell.lexFrom .gap text).map fun r =>
      (leadTokens (lead cwd) ++ (env.map EnvVar.assignment).map .word ++ r.1, r.2) := by
  rw [List.append_assoc, Shell.lexFrom_trans (lexFrom_cdPart cwd), Shell.lexFrom_trans (lexFrom_envPart env)]
  simp [Option.map_map, Function.comp_def]

theorem parseFrom_tokens (conn : Shell.Conn) (words more : List (List Char)) (ts : List Shell.Token) :
    Shell.parseFrom conn words (more.map .word ++ ts) = Shell.parseFrom conn (words ++ more) ts := by
  induction more generalizing words with
  | nil => simp
  | cons v more ih =>
    rw [List.map_cons, List.cons_append, Shell.parseFrom, ih]
    simp

theorem parse_lead (l : Option (List Char)) (ts : List Shell.Token) :
    Shell.parse (leadTokens l ++ ts) = (Shell.parseFrom (leadConn l) [] ts).map fun script => leadItems l ++ script := by
  cases l with
  | none => simp [leadTokens, leadConn, leadItems, Shell.parse]
  | some dir =>
    have ended : ∀ others, Shell.endCommand .seq ["cd".toList, Shell.quote dir] others =
        others.map ((.seq, ["cd".toList, Shell.quote dir]) :: ·) := fun others => rfl
    show Shell.endCommand .seq ["cd".toList, Shell.quote dir] (Shell.parseFrom .and [] ts) = _
    rw [ended]
    rfl

/-- An assignment starts no compound command. -/
theorem assignment_not_reserved (env : List EnvVar) :
    (env.map EnvVar.assignment).head?.any Shell.reserved.contains = false := by
  cases env with
  | nil => rfl
  | cons e env =>
    have none_ : ∀ v ∈ Shell.reserved, '=' ∉ v := by decide
    have some_ : '=' ∈ e.assignment := by simp [EnvVar.assignment]
    rw [List.map_cons, List.head?_cons, Option.any_some, List.contains_eq_mem, decide_eq_false_iff_not]
    exact fun member => none_ _ member some_

/-- **The front binds to the first command of the line it stands on.** -/
theorem parse_front (l : Option (List Char)) (env : List EnvVar) {ts : List Shell.Token} {c : Shell.Conn}
    {words : List (List Char)} {rest : Shell.Script} (parsed : Shell.parse ts = some ((c, words) :: rest))
    (sameLine : env ≠ [] → ts.head? ≠ some .newline) :
    Shell.parse (leadTokens l ++ (env.map EnvVar.assignment).map .word ++ ts) =
      some (leadItems l ++ (leadConn l, env.map EnvVar.assignment ++ words) :: rest) := by
  have first := (Shell.parseFrom_head parsed).1
  subst first
  have moved := Shell.parseFrom_conn parsed (leadConn l)
  rw [List.append_assoc, parse_lead, parseFrom_tokens, List.nil_append]
  by_cases none_ : env = []
  · subst none_
    rw [List.map_nil, moved]
    rfl
  · have spliced := Shell.parseFrom_words (assignment_not_reserved env) (by simpa using none_) moved
      (.inr (sameLine none_))
    rw [List.append_nil] at spliced
    rw [spliced]
    rfl

/-- A command that starts on a later line is none of the front's. -/
theorem parse_front_newline (l : Option (List Char)) {env : List EnvVar} (some_ : env ≠ []) {ts : List Shell.Token}
    {script : Shell.Script} (parsed : Shell.parse ts = some script) (later : ts.head? = some .newline) :
    Shell.parse (leadTokens l ++ (env.map EnvVar.assignment).map .word ++ ts) =
      some (leadItems l ++ (leadConn l, env.map EnvVar.assignment) :: script) := by
  obtain ⟨rest, rfl⟩ : ∃ rest, ts = .newline :: rest := by
    cases ts with
    | nil => cases later
    | cons t rest => exact ⟨rest, by rw [Option.some.inj later]⟩
  rw [Shell.parse, Shell.parseFrom, if_pos rfl] at parsed
  have ended : Shell.endCommand (leadConn l) (env.map EnvVar.assignment) (some script) =
      some ((leadConn l, env.map EnvVar.assignment) :: script) :=
    Shell.endCommand_eq_some.mpr ⟨assignment_not_reserved env, _, rfl, rfl⟩
  rw [List.append_assoc, parse_lead, parseFrom_tokens, List.nil_append, Shell.parseFrom, if_neg (by simpa using some_),
    parsed, ended]
  rfl

theorem lex_front (cwd : Option (List Char)) (env : List EnvVar) (text : List Char) :
    Shell.lex (cdPart cwd ++ envPart env ++ text) = (Shell.lex text).map fun ts =>
      leadTokens (lead cwd) ++ (env.map EnvVar.assignment).map .word ++ ts := by
  rw [Shell.lex, Shell.lex, lexFrom_front]
  cases Shell.lexFrom .gap text with
  | none => rfl
  | some r =>
    rw [Option.map_some, Option.bind_some, Option.bind_some, Option.map_map]
    congr 1
    funext last
    simp

/-! ## The text behind -/

/-- Outside a comment the text behind ends the list in parentheses. -/
theorem lexFrom_close {m : Shell.Mode} {last : List Shell.Token} (finish : m.finish = some last)
    (open_ : m ≠ .comment) : Shell.lexFrom m "); echo $? > ".toList =
      some (last ++ [.rparen, .semi, .word "echo".toList, .word "$?".toList, .word ">".toList], .gap) := by
  have gap : Shell.lexFrom .gap "; echo $? > ".toList =
      some ([.semi, .word "echo".toList, .word "$?".toList, .word ">".toList], .gap) := by
    decide +kernel
  have step : Shell.lexStep m ')' = some (last ++ [.rparen], .gap) := by
    cases m with
    | gap =>
      cases finish
      rfl
    | comment => exact absurd rfl open_
    | amp => cases finish
    | bar => cases finish
    | word raw q =>
      have bare : Shell.bareStep raw ')' = some ([.word raw, .rparen], .gap) := rfl
      cases q with
      | bare =>
        cases finish
        exact bare
      | dollar =>
        cases finish
        rw [Shell.lexStep, Shell.wordStep, if_neg (by decide), if_neg (by decide), bare]
        rfl
      | redirect =>
        cases finish
        rw [Shell.lexStep, Shell.wordStep, if_neg (by decide), if_neg (by simp), if_neg (by decide), bare]
        rfl
      | _ => cases finish
  show Shell.lexFrom m (')' :: "; echo $? > ".toList) = _
  rw [Shell.lexFrom, step, Option.bind_some, gap]
  simp

/-- A comment goes on to the end of its line. -/
theorem lexFrom_comment {text : List Char} (line : '\n' ∉ text) : Shell.lexFrom .comment text = some ([], .comment) := by
  induction text with
  | nil => rfl
  | cons c text ih =>
    rw [List.mem_cons, not_or] at line
    rw [Shell.lexFrom, Shell.lexStep, if_neg (Ne.symm line.1), Option.bind_some, ih line.2]
    rfl

theorem exitFile_safe (id : ProcessId) : (exitFile id).all Shell.isSafe = true := by
  have before : "/tmp/mcp-".toList.all Shell.isSafe = true := by decide
  have after : ".exit".toList.all Shell.isSafe = true := by decide
  show ("/tmp/mcp-".toList ++ id.text ++ ".exit".toList).all Shell.isSafe = true
  simp only [List.all_append, before, id.plain, after, Bool.and_self]

theorem quote_exitFile (id : ProcessId) : Shell.quote (exitFile id) = exitFile id := by
  have some_ : exitFile id ≠ [] := by
    show "/tmp/mcp-".toList ++ id.text ++ ".exit".toList ≠ []
    simp
  rw [Shell.quote, if_neg some_, if_pos (exitFile_safe id)]

/-- The tokens of the command that writes the exit file. -/
def exitTokens (id : ProcessId) : List Shell.Token :=
  [.word "echo".toList, .word "$?".toList, .word ">".toList, .word (exitFile id)]

/-- **The list in parentheses and the command behind it are read apart.** -/
theorem lex_start {wrapper : FlushWrapper} {cwd : Option (List Char)} {env : List EnvVar} {command : List Char}
    {ts last : List Shell.Token} {m : Shell.Mode} (id : ProcessId)
    (inside : Shell.lexFrom .gap (inner wrapper cwd env command) = some (ts, m)) (finish : m.finish = some last)
    (open_ : m ≠ .comment) : Shell.lex (innerWithExit wrapper id cwd env command) =
      some (.lparen :: (ts ++ last ++ .rparen :: .semi :: exitTokens id)) := by
  have opens : Shell.lexFrom .gap "(".toList = some ([.lparen], .gap) := by decide
  have file : Shell.lexFrom .gap (exitFile id) = some ([], .word (exitFile id) .bare) := by
    rw [← quote_exitFile]
    exact Shell.lexFrom_gap_quote _
  show Shell.lex ("(".toList ++ inner wrapper cwd env command ++ "); echo $? > ".toList ++ exitFile id) = _
  rw [Shell.lex, List.append_assoc, List.append_assoc, Shell.lexFrom_trans opens, Shell.lexFrom_trans inside,
    Shell.lexFrom_trans (lexFrom_close finish open_), file]
  simp [Shell.Mode.finish, exitTokens]

/-- In a comment the text behind is part of it. -/
theorem lex_start_comment {wrapper : FlushWrapper} {cwd : Option (List Char)} {env : List EnvVar} {command : List Char}
    {ts : List Shell.Token} (id : ProcessId)
    (inside : Shell.lexFrom .gap (inner wrapper cwd env command) = some (ts, .comment)) :
    Shell.lex (innerWithExit wrapper id cwd env command) = some (.lparen :: ts) := by
  have opens : Shell.lexFrom .gap "(".toList = some ([.lparen], .gap) := by decide
  have line : '\n' ∉ "); echo $? > ".toList ++ exitFile id := by
    intro member
    rcases List.mem_append.mp member with glue | file
    · exact absurd glue (by decide)
    · have safe := List.all_eq_true.mp (exitFile_safe id) _ file
      exact absurd safe (by decide)
  show Shell.lex ("(".toList ++ inner wrapper cwd env command ++ "); echo $? > ".toList ++ exitFile id) = _
  rw [Shell.lex, List.append_assoc, List.append_assoc, Shell.lexFrom_trans opens, Shell.lexFrom_trans inside,
    lexFrom_comment line]
  simp [Shell.Mode.finish]

/-- The command that writes the exit file. -/
def exitScript (id : ProcessId) : Shell.Script :=
  [(.seq, ["echo".toList, "$?".toList, ">".toList, exitFile id])]

theorem exitWritten_exitScript (id : ProcessId) (status : Nat) :
    exitWritten (exitScript id) status = some (exitFile id, status) := by
  have file : Shell.unquote (exitFile id) = exitFile id := by
    rw [← quote_exitFile, Shell.unquote_quote, quote_exitFile]
  rw [exitScript, exitWritten, if_pos ⟨rfl, rfl, rfl⟩, file]

theorem parseLaunch_eq {ts : List Shell.Token} {body : Shell.Script} (id : ProcessId)
    (parsed : Shell.parse ts = some body) (some_ : body ≠ []) :
    parseLaunch (.lparen :: (ts ++ .rparen :: .semi :: exitTokens id)) = some (body, exitScript id) := by
  have inside : ∀ t ∈ ts, decide (t ≠ .rparen) = true := by
    rintro t member
    apply decide_eq_true
    rintro rfl
    exact (Shell.no_parens parsed).2 member
  have rest : (ts ++ .rparen :: .semi :: exitTokens id).dropWhile (· ≠ .rparen) =
      .rparen :: .semi :: exitTokens id := by
    rw [List.dropWhile_append_of_pos inside]
    rfl
  have first : (ts ++ .rparen :: .semi :: exitTokens id).takeWhile (· ≠ .rparen) = ts := by
    rw [List.takeWhile_append_of_pos inside]
    simp
  have after : Shell.parse (exitTokens id) = some (exitScript id) := rfl
  rw [parseLaunch]
  simp only [rest, first, parsed, after, Option.bind_some, if_neg some_, Option.map_some]

/-- Without its closing parenthesis the text is no list of commands. -/
theorem parseLaunch_unclosed {ts : List Shell.Token} (none_ : .rparen ∉ ts) : parseLaunch (.lparen :: ts) = none := by
  have all : ts.dropWhile (· ≠ .rparen) = [] := by
    rw [List.dropWhile_eq_nil_iff]
    rintro t member
    apply decide_eq_true
    rintro rfl
    exact none_ member
  rw [parseLaunch]
  simp only [all]

/-! ## A command of its own shell -/

theorem lexFrom_execCommand {wrapper : FlushWrapper} (wraps : wrapper ≠ .none) (text : List Char) :
    Shell.lexFrom .gap (execCommand wrapper text) =
      some (wrapper.launcher.map .word, .word (Shell.quote text) .bare) := by
  have words : Shell.lexFrom .gap "stdbuf -oL -eL bash -c ".toList =
      some (FlushWrapper.stdbuf.launcher.map .word, .gap) := by decide +kernel
  have script : Shell.lexFrom .gap "script -q /dev/null -c ".toList =
      some (FlushWrapper.script.launcher.map .word, .gap) := by decide +kernel
  cases wrapper with
  | none => exact absurd rfl wraps
  | stdbuf =>
    show Shell.lexFrom .gap ("stdbuf -oL -eL bash -c ".toList ++ Shell.quote text) = _
    rw [Shell.lexFrom_trans words, Shell.lexFrom_gap_quote, Option.map_some, List.append_nil]
  | script =>
    show Shell.lexFrom .gap ("script -q /dev/null -c ".toList ++ Shell.quote text) = _
    rw [Shell.lexFrom_trans script, Shell.lexFrom_gap_quote, Option.map_some, List.append_nil]

theorem parse_execCommand {wrapper : FlushWrapper} (wraps : wrapper ≠ .none) (text : List Char) :
    Shell.parse (wrapper.launcher.map .word ++ [.word (Shell.quote text)]) =
      some [(.seq, wrapper.launcher ++ [Shell.quote text])] := by
  cases wrapper with
  | none => exact absurd rfl wraps
  | stdbuf => rfl
  | script => rfl

end McpSsh
