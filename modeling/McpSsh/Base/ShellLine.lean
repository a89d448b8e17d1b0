import McpSsh.Base.ShellText

/-!
# Command lines with quoted arguments

Simple commands whose words are arguments and redirections of the error output. If every
argument is quoted, the shell reads the line as these commands with these arguments,
whatever the arguments are.
-/

set_option autoImplicit false

namespace McpSsh.Base.Shell

/-! ## Arguments -/

def redirectsFrom : Quoting → List Char → Bool
  | _, [] => false
  | q, c :: raw => (q = .bare && (c = '<' || c = '>')) || redirectsFrom (quoteStep q c).2 raw

/-- The word is a redirection. -/
def isRedirection (raw : List Char) : Bool := redirectsFrom .bare raw

/-- What a command is called with. -/
def arguments (raws : List (List Char)) : List (List Char) := (raws.filter fun raw => !isRedirection raw).map unquote

theorem redirectsFrom_append_single (s rest : List Char) :
    redirectsFrom .single ((s.flatMap fun c => if c = '\'' then ['\'', '"', '\'', '"', '\''] else [c]) ++ rest) =
      redirectsFrom .single rest := by
  induction s with
  | nil => rfl
  | cons c s ih =>
    rw [List.flatMap_cons, List.append_assoc]
    by_cases apostrophe : c = '\''
    · rw [if_pos apostrophe]
      simp [redirectsFrom, quoteStep, ih]
    · rw [if_neg apostrophe]
      simp [redirectsFrom, quoteStep, apostrophe, ih]

/-- **A quoted string is no redirection.** -/
theorem isRedirection_quote (s : List Char) : isRedirection (quote s) = false := by
  unfold quote isRedirection
  split
  · rfl
  split
  · rename_i some_ safe
    clear some_
    induction s with
    | nil => rfl
    | cons c s ih =>
      rw [List.all_cons, Bool.and_eq_true] at safe
      have less := isSafe_ne safe.1 (show isSafe '<' = false by decide)
      have greater := isSafe_ne safe.1 (show isSafe '>' = false by decide)
      rw [redirectsFrom, quoteStep_safe safe.1, ih safe.2]
      simp [less, greater]
  · have opens : quoteStep .bare '\'' = ([], .single) := rfl
    rw [List.cons_append, redirectsFrom, opens, redirectsFrom_append_single]
    simp [redirectsFrom]

/-- A text that needs no quotes. -/
def isPlain (s : List Char) : Bool := !s.isEmpty && s.all isSafe

theorem quote_plain {s : List Char} (plain : isPlain s = true) : quote s = s := by
  rw [isPlain, Bool.and_eq_true, Bool.not_eq_true', List.isEmpty_eq_false_iff] at plain
  rw [quote, if_neg plain.1, if_pos plain.2]

/-- A text that needs quotes, and has none. -/
theorem quote_apart {s : List Char} (needed : s.all isSafe = false) (apart : '\'' ∉ s) : quote s = '\'' :: s ++ ['\''] := by
  have some_ : s ≠ [] := by
    rintro rfl
    cases needed
  have same : ∀ t : List Char, '\'' ∉ t →
      t.flatMap (fun c => if c = '\'' then ['\'', '"', '\'', '"', '\''] else [c]) = t := by
    intro t free
    induction t with
    | nil => rfl
    | cons c t ih =>
      rw [List.mem_cons, not_or] at free
      rw [List.flatMap_cons, if_neg (Ne.symm free.1), ih free.2]
      rfl
  rw [quote, if_neg some_, if_neg (Bool.eq_false_iff.mp needed), same s apart]

/-! ## Words -/

/-- A word of a command line. -/
inductive Word where
  | fixed (text : List Char) (plain : isPlain text = true)
  | arg (value : List Char)
  /-- `2>/dev/null` -/
  | errNull
  /-- `2>&1` -/
  | errOut

namespace Word

def raw : Word → List Char
  | fixed text _ => text
  | arg value => quote value
  | errNull => "2>/dev/null".toList
  | errOut => "2>&1".toList

@[simp] theorem raw_fixed (text : List Char) (plain : isPlain text = true) : (fixed text plain).raw = text := rfl

@[simp] theorem raw_arg (value : List Char) : (arg value).raw = quote value := rfl

@[simp] theorem raw_errNull : errNull.raw = "2>/dev/null".toList := rfl

@[simp] theorem raw_errOut : errOut.raw = "2>&1".toList := rfl

def value : Word → Option (List Char)
  | fixed text _ => some text
  | arg value => some value
  | _ => none

theorem lexFrom_raw (w : Word) : lexFrom .gap w.raw = some ([], .word w.raw .bare) := by
  cases w with
  | fixed text plain =>
    have word := lexFrom_gap_quote text
    rw [quote_plain plain] at word
    exact word
  | arg value => exact lexFrom_gap_quote value
  | errNull => decide
  | errOut => decide

theorem reads_raw (w : Word) : reads w.raw = [] := by
  cases w with
  | fixed text plain =>
    have none_ := reads_quote text
    rw [quote_plain plain] at none_
    exact none_
  | arg value => exact reads_quote value
  | errNull => decide
  | errOut => decide

theorem arguments_cons_quote (s : List Char) (raws : List (List Char)) : arguments (quote s :: raws) = s :: arguments raws := by
  rw [arguments, List.filter_cons, isRedirection_quote, Bool.not_false, if_pos rfl, List.map_cons, unquote_quote, arguments]

theorem arguments_raw (words : List Word) : arguments (words.map raw) = words.filterMap value := by
  induction words with
  | nil => rfl
  | cons w words ih =>
    cases w with
    | fixed text plain =>
      have kept := arguments_cons_quote text (words.map raw)
      rw [quote_plain plain, ih] at kept
      exact kept
    | arg v => exact (arguments_cons_quote v _).trans (congrArg (v :: ·) ih)
    | errNull => exact ih
    | errOut => exact ih

/-- Words behind a word. -/
theorem lexFrom_words (words : List Word) (first : List Char) : ∃ ts last,
    lexFrom (.word first .bare) (words.flatMap fun w => ' ' :: w.raw) = some (ts, .word last .bare) ∧
      ts ++ [.word last] = (first :: words.map raw).map Token.word := by
  induction words generalizing first with
  | nil => exact ⟨[], first, rfl, rfl⟩
  | cons w words ih =>
    obtain ⟨ts, last, later, same⟩ := ih w.raw
    have blank : lexFrom (.word first .bare) [' '] = some ([.word first], .gap) := by
      simp [lexFrom, lexStep, wordStep, bareStep, isBlank]
    refine ⟨.word first :: ts, last, ?_, ?_⟩
    · rw [List.flatMap_cons, List.cons_append, ← List.singleton_append, lexFrom_trans blank,
        lexFrom_trans w.lexFrom_raw, later]
      rfl
    · rw [List.cons_append, same]
      rfl

end Word

/-! ## Commands -/

/-- A command, with what stands before it. The program is no word of the grammar. -/
structure Command where
  conn : Conn
  program : List Char
  words : List Word
  plain : isPlain program = true
  free : reserved.contains program = false

namespace Command

/-- All words. -/
def all (c : Command) : List Word := .fixed c.program c.plain :: c.words

def raws (c : Command) : List (List Char) := c.all.map Word.raw

/-- What the command is called with. -/
def argv (c : Command) : List (List Char) := c.all.filterMap Word.value

def text (c : Command) : List Char := c.program ++ c.words.flatMap fun w => ' ' :: w.raw

theorem lexFrom_text (c : Command) : ∃ ts last, lexFrom .gap c.text = some (ts, .word last .bare) ∧
    ts ++ [.word last] = c.raws.map Token.word := by
  obtain ⟨ts, last, behind, same⟩ := Word.lexFrom_words c.words c.program
  have program : lexFrom .gap c.program = some ([], .word c.program .bare) := (Word.fixed c.program c.plain).lexFrom_raw
  exact ⟨ts, last, by rw [text, lexFrom_trans program, behind]; rfl, same⟩

end Command

/-! ## Lines -/

def Conn.text : Conn → List Char
  | seq => "; ".toList
  | and => " && ".toList
  | or => " || ".toList

def Conn.token : Conn → Token
  | seq => .semi
  | and => .andIf
  | or => .orIf

/-- Commands on one line. What stands before the first one is not written. -/
def line : List Command → List Char
  | [] => []
  | [c] => c.text
  | c :: next :: rest => c.text ++ next.conn.text ++ line (next :: rest)

def lineTokens : List Command → List Token
  | [] => []
  | [c] => c.raws.map .word
  | c :: next :: rest => c.raws.map .word ++ next.conn.token :: lineTokens (next :: rest)

theorem lexFrom_conn (conn : Conn) (raw : List Char) :
    lexFrom (.word raw .bare) conn.text = some ([.word raw, conn.token], .gap) := by
  cases conn <;> simp [Conn.text, Conn.token, lexFrom, lexStep, wordStep, bareStep, isBlank]

theorem lex_line (commands : List Command) : lex (line commands) = some (lineTokens commands) := by
  suffices all : ∀ c rest, ∃ ts last, lexFrom .gap (line (c :: rest)) = some (ts, .word last .bare) ∧
      ts ++ [.word last] = lineTokens (c :: rest) by
    cases commands with
    | nil => rfl
    | cons c rest =>
      obtain ⟨ts, last, whole, same⟩ := all c rest
      rw [lex, whole, ← same]
      rfl
  intro c rest
  induction rest generalizing c with
  | nil => exact c.lexFrom_text
  | cons next rest ih =>
    obtain ⟨ts, last, here, same⟩ := c.lexFrom_text
    obtain ⟨ts', last', later, same'⟩ := ih next
    refine ⟨ts ++ (.word last :: next.conn.token :: ts'), last', ?_, ?_⟩
    · rw [line, List.append_assoc, lexFrom_trans here, lexFrom_trans (lexFrom_conn next.conn last), later]
      rfl
    · rw [lineTokens, ← same, ← same']
      simp

/-- The words of a command are read up to its end. -/
theorem parseFrom_raws (conn : Conn) (words raws : List (List Char)) (ts : List Token) :
    parseFrom conn words (raws.map Token.word ++ ts) = parseFrom conn (words ++ raws) ts := by
  induction raws generalizing words with
  | nil => rw [List.map_nil, List.nil_append, List.append_nil]
  | cons raw raws ih => rw [List.map_cons, List.cons_append, parseFrom, ih, List.append_assoc, List.singleton_append]

theorem parseFrom_line (c : Command) (rest : List Command) :
    parseFrom c.conn [] (lineTokens (c :: rest)) = some ((c :: rest).map fun c => (c.conn, c.raws)) := by
  have some_ : ∀ c : Command, c.raws ≠ [] := fun c => List.cons_ne_nil _ _
  have named : ∀ c : Command, c.raws.head?.any reserved.contains = false := fun c => c.free
  induction rest generalizing c with
  | nil =>
    have whole := parseFrom_raws c.conn [] c.raws []
    rw [List.append_nil, List.nil_append] at whole
    rw [lineTokens, whole, parseFrom, if_neg (some_ c)]
    exact endCommand_eq_some.mpr ⟨named c, [], rfl, rfl⟩
  | cons next rest ih =>
    have ended : endCommand c.conn c.raws (parseFrom next.conn [] (lineTokens (next :: rest))) =
        some ((c :: next :: rest).map fun c => (c.conn, c.raws)) :=
      endCommand_eq_some.mpr ⟨named c, _, ih next, rfl⟩
    rw [lineTokens, parseFrom_raws, List.nil_append]
    cases conn : next.conn <;> rw [conn] at ended <;> rw [Conn.token, parseFrom, if_neg (some_ c), ended]

/-- What the shell makes of a line. -/
structure ReadAs (text : List Char) (commands : List Command) : Prop where
  parsed : (lex text).bind parse = some (commands.map fun c => (c.conn, c.raws))
  argv : ∀ c ∈ commands, arguments c.raws = c.argv
  expands : ∀ c ∈ commands, ∀ raw ∈ c.raws, reads raw = []

/-- **A line is read as its commands**, with their arguments as they are. -/
theorem readAs_line {c : Command} (first : c.conn = .seq) (rest : List Command) : ReadAs (line (c :: rest)) (c :: rest) where
  parsed := by
    rw [lex_line, Option.bind_some, parse, ← first, parseFrom_line]
  argv d _ := Word.arguments_raw d.all
  expands d _ raw member := by
    obtain ⟨w, -, rfl⟩ := List.mem_map.mp member
    exact w.reads_raw

end McpSsh.Base.Shell
