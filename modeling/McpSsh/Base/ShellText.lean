import Mathlib.Data.List.Basic

/-!
# The text of shell scripts

The POSIX shell's tokens, its quoting, and lists of simple commands joined by `;`, `&&`,
`||` and newlines. A word keeps its quotes; its redirections are words too. Command
substitution, here-documents, pipelines, and quotes or braces in the braces of a parameter
are outside this grammar, and so is what POSIX leaves open.
-/

set_option autoImplicit false

namespace McpSsh.Base.Shell

/-! ## Tokens -/

inductive Token where
  | word (raw : List Char)
  | semi
  | andIf
  | orIf
  | newline
  | lparen
  | rparen
deriving DecidableEq

/-- Where in a word the lexer is; `dollar` and `redirect` come after an unquoted `$`,
or `<` or `>`, and the escaped ones after a backslash there. -/
inductive Quoting where
  | bare
  | dollar
  | dollarEscaped
  | redirect
  | redirectEscaped
  | escaped
  | brace
  | single
  | double
  | doubleDollar
  | doubleDollarEscaped
  | doubleEscaped
  | doubleBrace
deriving DecidableEq

inductive Mode where
  | gap
  /-- After one `&`. -/
  | amp
  /-- After one `|`. -/
  | bar
  | comment
  | word (raw : List Char) (q : Quoting)
deriving DecidableEq

def isBlank (c : Char) : Bool := c = ' ' || c = '\t'

/-- A character outside quotes, in a word. -/
def bareStep (raw : List Char) (c : Char) : Option (List Token × Mode) :=
  if isBlank c then some ([.word raw], .gap)
  else if c = '\n' then some ([.word raw, .newline], .gap)
  else if c = ';' then some ([.word raw, .semi], .gap)
  else if c = '&' then some ([.word raw], .amp)
  else if c = '|' then some ([.word raw], .bar)
  else if c = ')' then some ([.word raw, .rparen], .gap)
  else if c = '(' ∨ c = '\x60' then none
  else if c = '\\' then some ([], .word raw .escaped)
  else some ([], .word (raw ++ [c])
    (if c = '\'' then .single else if c = '"' then .double else if c = '$' then .dollar
      else if c = '<' ∨ c = '>' then .redirect else .bare))

/-- A character in double quotes. -/
def doubleStep (raw : List Char) (c : Char) : Option (List Token × Mode) :=
  if c = '\x60' then none
  else if c = '\\' then some ([], .word raw .doubleEscaped)
  else some ([], .word (raw ++ [c]) (if c = '"' then .bare else if c = '$' then .doubleDollar else .double))

def isNameChar (c : Char) : Bool := c.isAlphanum || c = '_'

/-- The name of a parameter, or the digits or the special character. -/
def parameterOf (content : List Char) : List Char :=
  let name := content.takeWhile isNameChar
  if name ≠ [] then name else (content.take 1).filter fun c => c ∈ ['@', '*', '#', '?', '-', '!', '$']

/-- An operator in braces, behind the parameter. -/
def startsOperator : List Char → Bool
  | [] => true
  | ':' :: c :: _ => c ∈ ['-', '=', '?', '+']
  | c :: _ => c ∈ ['-', '=', '?', '+', '%', '#']

/-- What may stand between `${` and its closing brace: a parameter, alone or with an operator,
or its length. -/
def isParameter (content : List Char) : Bool :=
  let name := parameterOf content
  (name ≠ [] && startsOperator (content.drop name.length)) ||
    (content.head? = some '#' && parameterOf content.tail ≠ [] && parameterOf content.tail = content.tail)

/-- A character in braces. Words in them may expand variables; quotes, and braces in them, are
outside the grammar. -/
def braceStep (raw : List Char) (c : Char) (inside outside : Quoting) : Option (List Token × Mode) :=
  if c ∈ ['\'', '"', '\\', '\x60', '{'] then none
  else if c = '~' ∧ inside = .brace then none
  else if raw.getLast? = some '$' ∧ (c = '(' ∨ c = '[') then none
  else if c = '}' then
    if isParameter (raw.reverse.takeWhile (· ≠ '{')).reverse then some ([], .word (raw ++ [c]) outside) else none
  else some ([], .word (raw ++ [c]) inside)

/-- A character of a word. A backslash before a newline joins the lines. -/
def wordStep (raw : List Char) (q : Quoting) (c : Char) : Option (List Token × Mode) :=
  match q with
  | .bare => bareStep raw c
  | .dollar =>
    if c = '{' then some ([], .word (raw ++ [c]) .brace)
    else if c ∈ ['\'', '"', '['] then none
    else if c = '\\' then some ([], .word raw .dollarEscaped)
    else bareStep raw c
  | .dollarEscaped =>
    if c = '\n' then some ([], .word raw .dollar) else some ([], .word (raw ++ ['\\', c]) .bare)
  | .redirect =>
    if c = '&' ∨ c = '|' then some ([], .word (raw ++ [c]) .bare)
    else if c = '<' ∧ raw.getLast? = some '<' then none
    else if c = '\\' then some ([], .word raw .redirectEscaped)
    else bareStep raw c
  | .redirectEscaped =>
    if c = '\n' then some ([], .word raw .redirect) else some ([], .word (raw ++ ['\\', c]) .bare)
  | .escaped =>
    if c = '\n' then some ([], if raw = [] then .gap else .word raw .bare)
    else some ([], .word (raw ++ ['\\', c]) .bare)
  | .brace => braceStep raw c .brace .bare
  | .single => some ([], .word (raw ++ [c]) (if c = '\'' then .bare else .single))
  | .double => doubleStep raw c
  | .doubleDollar =>
    if c = '(' ∨ c = '[' then none
    else if c = '{' then some ([], .word (raw ++ [c]) .doubleBrace)
    else if c = '\\' then some ([], .word raw .doubleDollarEscaped)
    else doubleStep raw c
  | .doubleDollarEscaped =>
    if c = '\n' then some ([], .word raw .doubleDollar) else some ([], .word (raw ++ ['\\', c]) .double)
  | .doubleEscaped => some ([], .word (if c = '\n' then raw else raw ++ ['\\', c]) .double)
  | .doubleBrace => braceStep raw c .doubleBrace .double

/-- A character: the tokens it ends, and where the lexer is after it. -/
def lexStep (m : Mode) (c : Char) : Option (List Token × Mode) :=
  match m with
  | .gap =>
    if isBlank c then some ([], .gap)
    else if c = '\n' then some ([.newline], .gap)
    else if c = ';' then some ([.semi], .gap)
    else if c = '&' then some ([], .amp)
    else if c = '|' then some ([], .bar)
    else if c = '(' then some ([.lparen], .gap)
    else if c = ')' then some ([.rparen], .gap)
    else if c = '#' then some ([], .comment)
    else bareStep [] c
  | .amp => if c = '&' then some ([.andIf], .gap) else none
  | .bar => if c = '|' then some ([.orIf], .gap) else none
  | .comment => if c = '\n' then some ([.newline], .gap) else some ([], .comment)
  | .word raw q => wordStep raw q c

def lexFrom : Mode → List Char → Option (List Token × Mode)
  | m, [] => some ([], m)
  | m, c :: text => (lexStep m c).bind fun head => (lexFrom head.2 text).map fun rest => (head.1 ++ rest.1, rest.2)

/-- What the end of the text ends. -/
def Mode.finish : Mode → Option (List Token)
  | gap => some []
  | comment => some []
  | word raw .bare => some [.word raw]
  | word raw .dollar => some [.word raw]
  | word raw .redirect => some [.word raw]
  | _ => none

/-- The tokens of a text. -/
def lex (text : List Char) : Option (List Token) :=
  (lexFrom .gap text).bind fun r => r.2.finish.map fun last => r.1 ++ last

theorem lexFrom_append (m : Mode) (a b : List Char) : lexFrom m (a ++ b) =
    (lexFrom m a).bind fun head => (lexFrom head.2 b).map fun rest => (head.1 ++ rest.1, rest.2) := by
  induction a generalizing m with
  | nil => cases h : lexFrom m b <;> simp [lexFrom, h]
  | cons c a ih =>
    rw [List.cons_append, lexFrom, lexFrom]
    cases lexStep m c with
    | none => rfl
    | some head =>
      simp only [Option.bind_some, ih]
      cases lexFrom head.2 a with
      | none => rfl
      | some mid => simp [Function.comp_def]

/-- Texts lexed one after the other. -/
theorem lexFrom_trans {m n : Mode} {a b : List Char} {ts : List Token} (first : lexFrom m a = some (ts, n)) :
    lexFrom m (a ++ b) = (lexFrom n b).map fun rest => (ts ++ rest.1, rest.2) := by
  rw [lexFrom_append, first, Option.bind_some]

/-! ## Quoting -/

/-- A character that needs no quotes. -/
def isSafe (c : Char) : Bool := c.isAlphanum || c ∈ ['_', '@', '%', '+', '=', ':', ',', '.', '/', '-']

/-- `shlex.quote`. -/
def quote (s : List Char) : List Char :=
  if s = [] then ['\'', '\'']
  else if s.all isSafe then s
  else '\'' :: (s.flatMap fun c => if c = '\'' then ['\'', '"', '\'', '"', '\''] else [c]) ++ ['\'']

/-- A character of a word: what it stands for when the quotes are taken away. -/
def quoteStep (q : Quoting) (c : Char) : List Char × Quoting :=
  match q with
  | .single => if c = '\'' then ([], .bare) else ([c], .single)
  | .double => if c = '"' then ([], .bare) else if c = '\\' then ([], .doubleEscaped) else ([c], .double)
  | .doubleEscaped => (if c ∈ ['$', '\x60', '"', '\\'] then [c] else ['\\', c], .double)
  | .escaped => ([c], .bare)
  | _ =>
    if c = '\'' then ([], .single) else if c = '"' then ([], .double) else if c = '\\' then ([], .escaped)
    else ([c], .bare)

def unquoteFrom : Quoting → List Char → List Char
  | _, [] => []
  | q, c :: raw => (quoteStep q c).1 ++ unquoteFrom (quoteStep q c).2 raw

/-- Quote removal. -/
def unquote (raw : List Char) : List Char := unquoteFrom .bare raw

/-- A name of the shell. -/
def isName (n : List Char) : Bool := n.all isNameChar && n.head?.any fun c => !c.isDigit

/-- The variable named after a `$`. -/
def varName (raw : List Char) : List (List Char) :=
  let raw := if raw.head? = some '{' then (if raw.tail.head? = some '#' then raw.tail.tail else raw.tail) else raw
  let name := raw.takeWhile isNameChar
  if isName name then [name] else []

/-- `HOME`, if the text behind a tilde ends its tilde-prefix: another one is a login name.
`colon` tells whether `:` ends one. -/
def homeOf (colon : Bool) (raw : List Char) : List (List Char) :=
  if raw.head?.all fun c => c = '/' || c = '<' || c = '>' || (colon && c = ':') then ["HOME".toList] else []

/-- `prefixes` tells whether a tilde that comes next starts a tilde-prefix. -/
def readsFrom (colon : Bool) : Bool → Quoting → List Char → List (List Char)
  | _, _, [] => []
  | prefixes, q, c :: raw =>
    (if c = '$' ∧ (q = .bare ∨ q = .double) then varName raw
      else if c = '~' ∧ q = .bare ∧ prefixes then homeOf colon raw else []) ++
      readsFrom colon (q = .bare && (c = '<' || c = '>' || (colon && c = ':'))) (quoteStep q c).2 raw

/-- The variables that the expansion of a word reads. In a word that looks like an assignment
tildes are expanded behind its `=` and every `:`. -/
def reads (raw : List Char) : List (List Char) :=
  if isName (raw.takeWhile (· ≠ '=')) ∧ '=' ∈ raw then readsFrom true true .bare (raw.dropWhile (· ≠ '=')).tail
  else readsFrom false true .bare raw

/-! ### Quoted strings -/

theorem isSafe_ne {c : Char} (safe : isSafe c = true) {d : Char} (unsafe_ : isSafe d = false) : c ≠ d := by
  rintro rfl
  rw [safe] at unsafe_
  cases unsafe_

theorem isBlank_safe {c : Char} (safe : isSafe c = true) : isBlank c = false := by
  have space := isSafe_ne safe (show isSafe ' ' = false by decide)
  have tab := isSafe_ne safe (show isSafe '\t' = false by decide)
  simp [isBlank, space, tab]

/-- A safe character just joins a word. -/
theorem bareStep_safe {c : Char} (safe : isSafe c = true) (raw : List Char) :
    bareStep raw c = some ([], .word (raw ++ [c]) .bare) := by
  have other : ∀ d : Char, isSafe d = false → c ≠ d := fun d => isSafe_ne safe
  simp [bareStep, isBlank_safe safe, other '\n' (by decide), other ';' (by decide), other '&' (by decide),
    other '|' (by decide), other ')' (by decide), other '(' (by decide), other '\x60' (by decide), other '\\' (by decide),
    other '\'' (by decide), other '"' (by decide), other '$' (by decide), other '<' (by decide), other '>' (by decide)]

theorem lexFrom_safe {s : List Char} (safe : s.all isSafe = true) (raw : List Char) :
    lexFrom (.word raw .bare) s = some ([], .word (raw ++ s) .bare) := by
  induction s generalizing raw with
  | nil => simp [lexFrom]
  | cons c s ih =>
    rw [List.all_cons, Bool.and_eq_true] at safe
    rw [lexFrom, lexStep, wordStep, bareStep_safe safe.1, Option.bind_some, ih safe.2]
    simp

theorem lexFrom_quoted (s raw : List Char) :
    lexFrom (.word raw .single) (s.flatMap fun c => if c = '\'' then ['\'', '"', '\'', '"', '\''] else [c]) =
      some ([], .word (raw ++ s.flatMap fun c => if c = '\'' then ['\'', '"', '\'', '"', '\''] else [c]) .single) := by
  induction s generalizing raw with
  | nil => simp [lexFrom]
  | cons c s ih =>
    rw [List.flatMap_cons]
    by_cases apostrophe : c = '\''
    · have here : lexFrom (.word raw .single) ['\'', '"', '\'', '"', '\''] =
          some ([], .word (raw ++ ['\'', '"', '\'', '"', '\'']) .single) := by
        simp [lexFrom, lexStep, wordStep, bareStep, doubleStep, isBlank]
      rw [if_pos apostrophe, lexFrom_trans here, ih]
      simp
    · have here : lexFrom (.word raw .single) [c] = some ([], .word (raw ++ [c]) .single) := by
        simp [lexFrom, lexStep, wordStep, apostrophe]
      rw [if_neg apostrophe, lexFrom_trans here, ih]
      simp

/-- **A quoted string is part of one word.** -/
theorem lexFrom_quote (s raw : List Char) :
    lexFrom (.word raw .bare) (quote s) = some ([], .word (raw ++ quote s) .bare) := by
  unfold quote
  split
  · simp [lexFrom, lexStep, wordStep, bareStep, isBlank]
  split
  · rename_i safe
    exact lexFrom_safe safe raw
  · have opened : lexFrom (.word raw .bare) ['\''] = some ([], .word (raw ++ ['\'']) .single) := by
      simp [lexFrom, lexStep, wordStep, bareStep, isBlank]
    have closed : ∀ raw, lexFrom (.word raw .single) ['\''] = some ([], .word (raw ++ ['\'']) .bare) := by
      intro raw
      simp [lexFrom, lexStep, wordStep]
    rw [List.cons_append, ← List.singleton_append, lexFrom_trans opened, lexFrom_trans (lexFrom_quoted s _), closed]
    simp

theorem quote_ne_nil (s : List Char) : quote s ≠ [] := by
  unfold quote
  split
  · simp
  split
  · assumption
  · simp

/-- The first character of a quoted string starts a word. -/
theorem lexStep_gap_quote {s : List Char} {c : Char} {rest : List Char} (whole : quote s = c :: rest) :
    lexStep .gap c = bareStep [] c := by
  have kind : isSafe c = true ∨ c = '\'' := by
    unfold quote at whole
    split at whole
    · exact .inr (List.cons.inj whole).1.symm
    split at whole
    · rename_i safe
      rw [whole, List.all_cons, Bool.and_eq_true] at safe
      exact .inl safe.1
    · exact .inr (List.cons.inj whole).1.symm
  rcases kind with safe | rfl
  · have other : ∀ d : Char, isSafe d = false → c ≠ d := fun d => isSafe_ne safe
    simp [lexStep, isBlank_safe safe, other '\n' (by decide), other ';' (by decide), other '&' (by decide),
      other '|' (by decide), other ')' (by decide), other '(' (by decide), other '#' (by decide)]
  · decide

/-- **A quoted string is a word.** -/
theorem lexFrom_gap_quote (s : List Char) : lexFrom .gap (quote s) = some ([], .word (quote s) .bare) := by
  obtain ⟨c, rest, whole⟩ := List.exists_cons_of_ne_nil (quote_ne_nil s)
  have word := lexFrom_quote s []
  rw [whole] at word ⊢
  rw [lexFrom, lexStep_gap_quote whole]
  exact word

theorem unquoteFrom_append_single (s rest : List Char) :
    unquoteFrom .single ((s.flatMap fun c => if c = '\'' then ['\'', '"', '\'', '"', '\''] else [c]) ++ rest) =
      s ++ unquoteFrom .single rest := by
  induction s with
  | nil => rfl
  | cons c s ih =>
    rw [List.flatMap_cons, List.append_assoc]
    by_cases apostrophe : c = '\''
    · rw [if_pos apostrophe, apostrophe]
      simp [unquoteFrom, quoteStep, ih]
    · rw [if_neg apostrophe]
      simp [unquoteFrom, quoteStep, apostrophe, ih]

/-- A safe character stands for itself. -/
theorem quoteStep_safe {c : Char} (safe : isSafe c = true) : quoteStep .bare c = ([c], .bare) := by
  have other : ∀ d : Char, isSafe d = false → c ≠ d := fun d => isSafe_ne safe
  simp [quoteStep, other '\'' (by decide), other '"' (by decide), other '\\' (by decide)]

/-- **Quote removal gives a quoted string back.** -/
theorem unquote_quote (s : List Char) : unquote (quote s) = s := by
  unfold quote unquote
  split
  · rename_i empty
    rw [empty]
    rfl
  split
  · rename_i safe
    induction s with
    | nil => rfl
    | cons c s ih =>
      rw [List.all_cons, Bool.and_eq_true] at safe
      rw [unquoteFrom, quoteStep_safe safe.1]
      by_cases last : s = []
      · rw [last]
        rfl
      · rw [ih last safe.2]
        rfl
  · have opens : quoteStep .bare '\'' = ([], .single) := rfl
    rw [List.cons_append, unquoteFrom, opens, List.nil_append, unquoteFrom_append_single]
    simp [unquoteFrom, quoteStep]

theorem readsFrom_append_single (colon prefixes : Bool) (s : List Char) :
    readsFrom colon prefixes .single
      ((s.flatMap fun c => if c = '\'' then ['\'', '"', '\'', '"', '\''] else [c]) ++ ['\'']) = [] := by
  induction s generalizing prefixes with
  | nil => rfl
  | cons c s ih =>
    rw [List.flatMap_cons, List.append_assoc]
    by_cases apostrophe : c = '\''
    · rw [if_pos apostrophe]
      simp [readsFrom, quoteStep, ih]
    · rw [if_neg apostrophe]
      simp [readsFrom, quoteStep, apostrophe, ih]

theorem readsFrom_safe {s : List Char} (safe : s.all isSafe = true) (colon prefixes : Bool) :
    readsFrom colon prefixes .bare s = [] := by
  induction s generalizing prefixes with
  | nil => rfl
  | cons c s ih =>
    rw [List.all_cons, Bool.and_eq_true] at safe
    have dollar := isSafe_ne safe.1 (show isSafe '$' = false by decide)
    have tilde := isSafe_ne safe.1 (show isSafe '~' = false by decide)
    rw [readsFrom, quoteStep_safe safe.1, ih safe.2, if_neg (fun h => dollar h.1), if_neg (fun h => tilde h.1)]
    rfl

theorem readsFrom_quote (colon prefixes : Bool) (s : List Char) : readsFrom colon prefixes .bare (quote s) = [] := by
  unfold quote
  split
  · simp [readsFrom, quoteStep]
  split
  · rename_i safe
    exact readsFrom_safe safe colon prefixes
  · have opens : quoteStep .bare '\'' = ([], .single) := rfl
    rw [List.cons_append, readsFrom, opens, readsFrom_append_single]
    simp

/-- **A quoted string reads no variable.** -/
theorem reads_quote (s : List Char) : reads (quote s) = [] := by
  by_cases safe : s ≠ [] ∧ s.all isSafe = true
  · rw [quote, if_neg safe.1, if_pos safe.2, reads]
    split
    · refine readsFrom_safe (List.all_eq_true.mpr fun c member => ?_) true true
      exact List.all_eq_true.mp safe.2 c ((List.dropWhile_sublist _).subset (List.mem_of_mem_tail member))
    · exact readsFrom_safe safe.2 false true
  · -- the quotes in front are no part of a name
    obtain ⟨rest, whole⟩ : ∃ rest, quote s = '\'' :: rest := by
      unfold quote
      split
      · exact ⟨_, rfl⟩
      · rename_i some_
        rw [if_neg fun all => safe ⟨some_, all⟩]
        exact ⟨_, rfl⟩
    have other : isName ((quote s).takeWhile (· ≠ '=')) = false := by
      rw [whole, List.takeWhile_cons_of_pos (by decide), isName, List.all_cons]
      rfl
    rw [reads, if_neg fun both => Bool.false_ne_true (other.symm.trans both.1)]
    exact readsFrom_quote false true s

/-! ## Lists of simple commands -/

/-- What stands before a command: the start, `;` or a newline; `&&`; `||`. -/
inductive Conn where
  | seq
  | and
  | or
deriving DecidableEq

/-- Simple commands, each with what stands before it. -/
abbrev Script := List (Conn × List (List Char))

/-- The words that start a compound command, in POSIX or in a shell that knows more of them. -/
def reserved : List (List Char) :=
  ["!".toList, "\x7b".toList, "\x7d".toList, "case".toList, "do".toList, "done".toList, "elif".toList, "else".toList,
    "esac".toList, "fi".toList, "for".toList, "if".toList, "in".toList, "then".toList, "until".toList, "while".toList,
    "[[".toList, "]]".toList, "coproc".toList, "function".toList, "select".toList, "time".toList]

/-- A command that has ended, before the rest. -/
def endCommand (conn : Conn) (words : List (List Char)) (rest : Option Script) : Option Script :=
  if words.head?.any reserved.contains then none else rest.map ((conn, words) :: ·)

/-- The list of commands in some tokens, with the words of the first one read so far. -/
def parseFrom (conn : Conn) (words : List (List Char)) : List Token → Option Script
  | [] =>
    if words = [] then (if conn = .seq then some [] else none) else endCommand conn words (some [])
  | .word w :: ts => parseFrom conn (words ++ [w]) ts
  | .newline :: ts => if words = [] then parseFrom conn [] ts else endCommand conn words (parseFrom .seq [] ts)
  | .semi :: ts => if words = [] then none else endCommand conn words (parseFrom .seq [] ts)
  | .andIf :: ts => if words = [] then none else endCommand conn words (parseFrom .and [] ts)
  | .orIf :: ts => if words = [] then none else endCommand conn words (parseFrom .or [] ts)
  | .lparen :: _ => none
  | .rparen :: _ => none

def parse (ts : List Token) : Option Script := parseFrom .seq [] ts

theorem endCommand_eq_some {conn : Conn} {words : List (List Char)} {rest : Option Script} {script : Script} :
    endCommand conn words rest = some script ↔
      words.head?.any reserved.contains = false ∧ ∃ more, rest = some more ∧ script = (conn, words) :: more := by
  unfold endCommand
  split
  · rename_i bad
    simp [bad]
  · rename_i good
    rw [Option.map_eq_some_iff]
    simp only [Bool.not_eq_true] at good
    simp [good, eq_comm]

/-- There are no parentheses in a list of simple commands. -/
theorem no_parens {conn : Conn} {words : List (List Char)} {ts : List Token} {script : Script}
    (parsed : parseFrom conn words ts = some script) : .lparen ∉ ts ∧ .rparen ∉ ts := by
  induction ts generalizing conn words script with
  | nil => simp
  | cons t ts ih =>
    cases t with
    | word w => simpa using ih parsed
    | newline =>
      rw [parseFrom] at parsed
      split at parsed
      · simpa using ih parsed
      · obtain ⟨-, more, rest, -⟩ := endCommand_eq_some.mp parsed
        simpa using ih rest
    | lparen => cases parsed
    | rparen => cases parsed
    | _ =>
      rw [parseFrom] at parsed
      split at parsed
      · cases parsed
      · obtain ⟨-, more, rest, -⟩ := endCommand_eq_some.mp parsed
        simpa using ih rest

/-- What stands before the first command is part of nothing else. -/
theorem parseFrom_conn {conn : Conn} {words w : List (List Char)} {ts : List Token} {rest : Script}
    (parsed : parseFrom conn words ts = some ((conn, w) :: rest)) (other : Conn) :
    parseFrom other words ts = some ((other, w) :: rest) := by
  induction ts generalizing words with
  | nil =>
    rw [parseFrom] at parsed ⊢
    split at parsed
    · split at parsed <;> cases parsed
    · rename_i some_
      obtain ⟨good, more, same, whole⟩ := endCommand_eq_some.mp parsed
      cases same
      cases whole
      rw [if_neg some_]
      exact endCommand_eq_some.mpr ⟨good, [], rfl, rfl⟩
  | cons t ts ih =>
    cases t with
    | word v => exact ih parsed
    | newline =>
      rw [parseFrom] at parsed ⊢
      split at parsed
      · rename_i none_
        rw [if_pos none_]
        exact ih parsed
      · rename_i some_
        obtain ⟨good, more, same, whole⟩ := endCommand_eq_some.mp parsed
        cases whole
        rw [if_neg some_]
        exact endCommand_eq_some.mpr ⟨good, _, same, rfl⟩
    | lparen => cases parsed
    | rparen => cases parsed
    | _ =>
      rw [parseFrom] at parsed ⊢
      split at parsed
      · cases parsed
      · rename_i some_
        obtain ⟨good, more, same, whole⟩ := endCommand_eq_some.mp parsed
        cases whole
        rw [if_neg some_]
        exact endCommand_eq_some.mpr ⟨good, _, same, rfl⟩

theorem endCommand_head {conn c : Conn} {words w : List (List Char)} {others : Option Script} {rest : Script}
    (some_ : words ≠ []) (ended : endCommand conn words others = some ((c, w) :: rest)) :
    c = conn ∧ w ≠ [] ∧ w.head?.any reserved.contains = false ∧ ∃ more, w = words ++ more := by
  obtain ⟨good, more, -, whole⟩ := endCommand_eq_some.mp ended
  cases whole
  exact ⟨rfl, some_, good, [], by simp⟩

/-- The first command begins with the words read so far. -/
theorem parseFrom_head {conn c : Conn} {words w : List (List Char)} {ts : List Token} {rest : Script}
    (parsed : parseFrom conn words ts = some ((c, w) :: rest)) :
    c = conn ∧ w ≠ [] ∧ w.head?.any reserved.contains = false ∧ ∃ more, w = words ++ more := by
  induction ts generalizing words with
  | nil =>
    rw [parseFrom] at parsed
    split at parsed
    · split at parsed <;> cases parsed
    · rename_i some_
      exact endCommand_head some_ parsed
  | cons t ts ih =>
    cases t with
    | word v =>
      obtain ⟨same, some_, good, more, whole⟩ := ih parsed
      exact ⟨same, some_, good, v :: more, by rw [whole]; simp⟩
    | newline =>
      rw [parseFrom] at parsed
      split at parsed
      · rename_i none_
        rw [none_]
        exact ih parsed
      · rename_i some_
        exact endCommand_head some_ parsed
    | lparen => cases parsed
    | rparen => cases parsed
    | _ =>
      rw [parseFrom] at parsed
      split at parsed
      · cases parsed
      · rename_i some_
        exact endCommand_head some_ parsed

theorem endCommand_words {conn : Conn} {front words w : List (List Char)} {others : Option Script} {rest : Script}
    (plain : front.head?.any reserved.contains = false) (some_ : front ≠ [])
    (ended : endCommand conn words others = some ((conn, w) :: rest)) :
    endCommand conn (front ++ words) others = some ((conn, front ++ w) :: rest) := by
  obtain ⟨-, more, same, split⟩ := endCommand_eq_some.mp ended
  cases split
  exact endCommand_eq_some.mpr ⟨by rw [List.head?_append_of_ne_nil _ some_]; exact plain, _, same, rfl⟩

/-- Words put in front of a list on the same line are words of its first command. -/
theorem parseFrom_words {conn : Conn} {front words w : List (List Char)} {ts : List Token} {rest : Script}
    (plain : front.head?.any reserved.contains = false) (some_ : front ≠ [])
    (parsed : parseFrom conn words ts = some ((conn, w) :: rest))
    (sameLine : words ≠ [] ∨ ts.head? ≠ some .newline) :
    parseFrom conn (front ++ words) ts = some ((conn, front ++ w) :: rest) := by
  have whole : front ++ words ≠ [] := by simp [some_]
  induction ts generalizing words with
  | nil =>
    rw [parseFrom] at parsed ⊢
    split at parsed
    · split at parsed <;> cases parsed
    · rw [if_neg whole]
      exact endCommand_words plain some_ parsed
  | cons t ts ih =>
    cases t with
    | word v =>
      have joined := @ih (words ++ [v]) parsed (.inl (by simp)) (by simp)
      rw [parseFrom, List.append_assoc]
      exact joined
    | newline =>
      have inside : words ≠ [] := sameLine.resolve_right (by simp)
      rw [parseFrom, if_neg inside] at parsed
      rw [parseFrom, if_neg whole]
      exact endCommand_words plain some_ parsed
    | lparen => cases parsed
    | rparen => cases parsed
    | _ =>
      rw [parseFrom] at parsed ⊢
      split at parsed
      · cases parsed
      · rw [if_neg whole]
        exact endCommand_words plain some_ parsed

end McpSsh.Base.Shell
