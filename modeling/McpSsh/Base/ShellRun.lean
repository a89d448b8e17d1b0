import McpSsh.Base.ShellText
import Mathlib.Data.List.TakeWhile

/-!
# Running shell scripts

Lists of simple commands run one after the other, as `;`, `&&` and `||` say. What a
command does is up to the world: it sees its words, the variables and the directory it
runs in, and everything that ran before. The run is the list of what the commands saw.
-/

set_option autoImplicit false

namespace McpSsh.Base.Shell

/-! ## What a command sees -/

/-- An assigned value: a text, or a word that is still to be expanded. -/
inductive BindValue where
  | text (s : List Char)
  | word (raw : List Char)
deriving DecidableEq

/-- A variable was assigned. -/
structure Binding where
  name : List Char
  value : BindValue
  exported : Bool
deriving DecidableEq

structure ShellState where
  cwd : List Char
  /-- The assignments so far; a later one hides an earlier one of its name. -/
  vars : List Binding
deriving DecidableEq

/-- What a command sees: each word with the variables it reads, the variables with its
own assignments, and the directory. -/
structure Event where
  words : List (List Char × List (List Binding))
  vars : List Binding
  cwd : List Char
deriving DecidableEq

/-- How a command ends: its status, whether it ends the shell, and what it changes there. -/
structure Outcome where
  status : Nat
  exits : Bool
  shell : ShellState → ShellState

/-- What commands do, after the commands that ran before. -/
structure World where
  /-- `cd`: its status, and the new directory if that is zero. -/
  chdir : List Event → Event → Nat × List Char
  exec : List Event → Event → Outcome

/-- The value of a variable: the assignments up to the last one of its name. -/
def seen (vars : List Binding) (name : List Char) : List Binding :=
  (vars.reverse.dropWhile fun b => b.name ≠ name).reverse

/-- A word, with what it reads. -/
def use (vars : List Binding) (raw : List Char) : List Char × List (List Binding) := (raw, (reads raw).map (seen vars))

/-- `name=value`. -/
def assignment (raw : List Char) : Option Binding :=
  let name := raw.takeWhile (· ≠ '=')
  let value := (raw.dropWhile (· ≠ '=')).tail
  if isName name ∧ '=' ∈ raw then
    some ⟨name, if reads raw = [] then .text (unquote value) else .word value, true⟩
  else none

/-- The assignments before the words of a simple command. -/
def splitAssignments : List (List Char) → List Binding × List (List Char)
  | [] => ([], [])
  | w :: ws =>
    match assignment w with
    | some b => (b :: (splitAssignments ws).1, (splitAssignments ws).2)
    | none => ([], w :: ws)

/-- A variable stays exported when it is assigned again. -/
def assign (vars : List Binding) (b : Binding) : List Binding :=
  vars ++ [{ b with exported := vars.any fun old => old.name = b.name && old.exported }]

/-! ## Runs -/

/-- A shell on its way: its state, what has run, and the last status. -/
structure Exec where
  shell : ShellState
  trace : List Event := []
  status : Nat := 0
  exited : Bool := false

variable (w : World)

/-- What a simple command sees. -/
def ShellState.event (s : ShellState) (words : List (List Char)) : Event :=
  ⟨(splitAssignments words).2.map (use s.vars), s.vars ++ (splitAssignments words).1, s.cwd⟩

/-- A simple command. -/
def runSimple (x : Exec) (words : List (List Char)) : Exec :=
  let bs := (splitAssignments words).1
  let rest := (splitAssignments words).2
  let event := x.shell.event words
  if rest.head?.map unquote = some "cd".toList then
    let went := w.chdir x.trace event
    { x with
      trace := x.trace ++ [event], status := went.1
      shell := if went.1 = 0 then { x.shell with cwd := went.2 } else x.shell }
  else
    let outcome := w.exec x.trace event
    let shell := if rest = [] then { x.shell with vars := bs.foldl assign x.shell.vars } else x.shell
    { shell := outcome.shell shell, trace := x.trace ++ [event], status := outcome.status, exited := outcome.exits }

/-- The command does not run after this status. -/
def Conn.skips : Conn → Nat → Bool
  | seq, _ => false
  | and, status => status ≠ 0
  | or, status => status = 0

def runItem (x : Exec) (item : Conn × List (List Char)) : Exec :=
  if x.exited || item.1.skips x.status then x else runSimple w x item.2

/-- A list of commands. -/
def run (x : Exec) (script : Script) : Exec := script.foldl (runItem w) x

/-- A shell that a process starts: it has the exported variables. -/
def ShellState.child (s : ShellState) (bs : List Binding) : ShellState :=
  { s with vars := s.vars.filter Binding.exported ++ bs }

variable {w}

theorem run_cons (x : Exec) (item : Conn × List (List Char)) (script : Script) :
    run w x (item :: script) = run w (runItem w x item) script := rfl

theorem run_append (x : Exec) (a b : Script) : run w x (a ++ b) = run w (run w x a) b := List.foldl_append

/-- What has run stays in the trace. -/
theorem trace_runItem (x : Exec) (item : Conn × List (List Char)) :
    ∃ more, (runItem w x item).trace = x.trace ++ more := by
  unfold runItem runSimple
  split
  · exact ⟨[], by simp⟩
  · dsimp only
    split
    · exact ⟨_, rfl⟩
    · exact ⟨_, rfl⟩

theorem trace_run (x : Exec) (script : Script) : ∃ more, (run w x script).trace = x.trace ++ more := by
  induction script generalizing x with
  | nil => exact ⟨[], by simp [run]⟩
  | cons item script ih =>
    obtain ⟨first, here⟩ := @trace_runItem w x item
    obtain ⟨more, later⟩ := ih (runItem w x item)
    rw [run_cons, later, here]
    exact ⟨first ++ more, by simp⟩

/-- A command that runs adds what it saw. -/
theorem trace_runSimple (x : Exec) (words : List (List Char)) :
    (runSimple w x words).trace = x.trace ++ [x.shell.event words] := by
  unfold runSimple
  dsimp only
  split <;> rfl

theorem status_runSimple (x : Exec) (words : List (List Char)) :
    (runSimple w x words).status =
      if (splitAssignments words).2.head?.map unquote = some "cd".toList then (w.chdir x.trace (x.shell.event words)).1
      else (w.exec x.trace (x.shell.event words)).status := by
  unfold runSimple
  dsimp only
  split <;> rfl

/-- A command that a status does not skip runs first. -/
theorem runItem_runs {x : Exec} {conn : Conn} (alive : x.exited = false) (runs : conn.skips x.status = false)
    (words : List (List Char)) : runItem w x (conn, words) = runSimple w x words := by
  rw [runItem, if_neg (by simp [alive, runs])]

theorem trace_first {x : Exec} {conn : Conn} (alive : x.exited = false) (runs : conn.skips x.status = false)
    (words : List (List Char)) (rest : Script) :
    ∃ more, (run w x ((conn, words) :: rest)).trace = x.trace ++ x.shell.event words :: more := by
  obtain ⟨more, later⟩ := @trace_run w (runSimple w x words) rest
  rw [run_cons, runItem_runs alive runs, later, trace_runSimple]
  exact ⟨more, by simp⟩

theorem trace_second {x : Exec} {conn conn' : Conn} {words : List (List Char)} (alive : x.exited = false)
    (runs : conn.skips x.status = false) (alive' : (runSimple w x words).exited = false)
    (runs' : conn'.skips (runSimple w x words).status = false) (words' : List (List Char)) (rest : Script) :
    ∃ more, (run w x ((conn, words) :: (conn', words') :: rest)).trace =
      x.trace ++ x.shell.event words :: (runSimple w x words).shell.event words' :: more := by
  obtain ⟨more, later⟩ := trace_first alive' runs' words' rest
  rw [run_cons, runItem_runs alive runs, later, trace_runSimple]
  exact ⟨more, by simp⟩

/-- After a failure something that does not stand behind `&&` still runs. -/
theorem trace_run_ne {x : Exec} {script : Script} (alive : x.exited = false) (failed : x.status ≠ 0)
    {item : Conn × List (List Char)} (member : item ∈ script) (loose : item.1 ≠ .and) :
    (run w x script).trace ≠ x.trace := by
  induction script with
  | nil => cases member
  | cons first rest ih =>
    by_cases skipped : first.1.skips x.status = true
    · have bound : first.1 = .and := by
        cases conn : first.1 with
        | and => rfl
        | seq => simp [conn, Conn.skips] at skipped
        | or => exact absurd (by simpa [conn, Conn.skips] using skipped) failed
      have later : item ∈ rest := by
        apply (List.mem_cons.mp member).resolve_left
        rintro rfl
        exact loose bound
      rw [run_cons, runItem, if_pos (by simp [skipped])]
      exact ih later
    · obtain ⟨more, longer⟩ := @trace_first w x first.1 alive (by simpa using skipped) first.2 rest
      intro same
      rw [show (first.1, first.2) = first from rfl] at longer
      rw [longer] at same
      simp at same

/-- A list that a status skips does nothing. -/
theorem run_skipped {x : Exec} {script : Script} (skips : ∀ item ∈ script, item.1.skips x.status = true) :
    run w x script = x := by
  induction script with
  | nil => rfl
  | cons item script ih =>
    obtain ⟨first, later⟩ := List.forall_mem_cons.mp skips
    rw [run_cons, runItem, if_pos (by simp [first])]
    exact ih later

/-- Later assignments of other names are not seen. -/
theorem seen_append {vars bs : List Binding} {name : List Char} (other : ∀ b ∈ bs, b.name ≠ name) :
    seen (vars ++ bs) name = seen vars name := by
  unfold seen
  rw [List.reverse_append, List.dropWhile_append_of_pos]
  intro b member
  simpa using other b (List.mem_reverse.mp member)

/-- A variable that is assigned is seen. -/
theorem seen_ne_nil {vars : List Binding} {b : Binding} (member : b ∈ vars) : seen vars b.name ≠ [] := by
  intro none_
  have all : vars.reverse.dropWhile (fun c => decide (c.name ≠ b.name)) = [] := by
    simpa [seen] using none_
  have clash := List.dropWhile_eq_nil_iff.mp all b (List.mem_reverse.mpr member)
  simp at clash

/-! ## Assignments in front of a command -/

theorem isName_not_assign {name : List Char} (valid : isName name = true) : ∀ c ∈ name, c ≠ '=' := by
  rw [isName, Bool.and_eq_true, List.all_eq_true] at valid
  rintro c member rfl
  exact absurd (valid.1 _ member) (by decide)

/-- An assignment of a quoted value. -/
theorem assignment_quote {name : List Char} (valid : isName name = true) (value : List Char) :
    assignment (name ++ '=' :: quote value) = some ⟨name, .text value, true⟩ := by
  have before := isName_not_assign valid
  have taken : (name ++ '=' :: quote value).takeWhile (· ≠ '=') = name := by
    have whole : name.takeWhile (· ≠ '=') = name :=
      List.takeWhile_eq_self_iff.mpr fun c member => by simpa using before c member
    rw [List.takeWhile_append, whole, if_pos rfl]
    simp
  have dropped : (name ++ '=' :: quote value).dropWhile (· ≠ '=') = '=' :: quote value := by
    have none_ : name.dropWhile (· ≠ '=') = [] :=
      List.dropWhile_eq_nil_iff.mpr fun c member => by simpa using before c member
    rw [List.dropWhile_append, none_]
    simp
  have nothing : reads (name ++ '=' :: quote value) = [] := by
    rw [reads, taken, dropped, if_pos ⟨valid, by simp⟩]
    exact readsFrom_quote true true value
  rw [assignment]
  simp only [taken, dropped, nothing, List.tail_cons, unquote_quote, if_true]
  rw [if_pos ⟨valid, by simp⟩]

/-- Only names are assigned to. -/
theorem isName_of_assignment {raw : List Char} {b : Binding} (assigned : assignment raw = some b) :
    isName b.name = true := by
  obtain ⟨⟨valid, -⟩, ⟨⟩⟩ := Option.ite_none_right_eq_some.mp assigned
  exact valid

theorem isName_of_mem_splitAssignments {words : List (List Char)} {b : Binding}
    (member : b ∈ (splitAssignments words).1) : isName b.name = true := by
  induction words with
  | nil => cases member
  | cons v words ih =>
    rw [splitAssignments] at member
    cases assigned : assignment v with
    | none => simp [assigned] at member
    | some first =>
      simp only [assigned, List.mem_cons] at member
      rcases member with rfl | later
      · exact isName_of_assignment assigned
      · exact ih later

/-- A name needs no quotes. -/
theorem quote_of_isName {name : List Char} (valid : isName name = true) : quote name = name := by
  rw [isName, Bool.and_eq_true] at valid
  have some_ : name ≠ [] := by
    intro none_
    simp [none_] at valid
  have safe : name.all isSafe = true := by
    rw [List.all_eq_true] at valid ⊢
    intro c member
    have char := valid.1 c member
    simp only [isNameChar, Bool.or_eq_true, decide_eq_true_eq] at char
    rcases char with alpha | under
    · simp [isSafe, alpha]
    · simp [isSafe, under]
  rw [quote, if_neg some_, if_pos safe]

theorem splitAssignments_append {front : List (List Char)} {bs : List Binding}
    (assigns : front.map assignment = bs.map some) (words : List (List Char)) :
    splitAssignments (front ++ words) = (bs ++ (splitAssignments words).1, (splitAssignments words).2) := by
  induction front generalizing bs with
  | nil =>
    cases bs with
    | nil => simp
    | cons b bs => simp at assigns
  | cons w front ih =>
    cases bs with
    | nil => simp at assigns
    | cons b bs =>
      rw [List.map_cons, List.map_cons, List.cons.injEq] at assigns
      rw [List.cons_append, splitAssignments, assigns.1]
      simp [ih assigns.2]

/-- Words that are nothing at all. -/
theorem splitAssignments_nil {words : List (List Char)} (bindings : (splitAssignments words).1 = [])
    (rest : (splitAssignments words).2 = []) : words = [] := by
  cases words with
  | nil => rfl
  | cons v words =>
    rw [splitAssignments] at bindings rest
    cases assigned : assignment v with
    | none => simp [assigned] at rest
    | some b => simp [assigned] at bindings

theorem foldl_assign_prefix (vars bs : List Binding) : ∃ more, bs.foldl assign vars = vars ++ more := by
  induction bs generalizing vars with
  | nil => exact ⟨[], by simp⟩
  | cons b bs ih =>
    obtain ⟨more, whole⟩ := ih (assign vars b)
    exact ⟨_, by rw [List.foldl_cons, whole, assign, List.append_assoc]⟩

/-- **Assignments in front of a command are as good as variables of its shell**, when it
expands none of them. -/
theorem event_front {front : List (List Char)} {bs : List Binding} (assigns : front.map assignment = bs.map some)
    {words : List (List Char)} (plain : ∀ word ∈ (splitAssignments words).2, ∀ b ∈ bs, b.name ∉ reads word)
    (s : ShellState) : s.event (front ++ words) = { s with vars := s.vars ++ bs }.event words := by
  have same : (splitAssignments words).2.map (use s.vars) = (splitAssignments words).2.map (use (s.vars ++ bs)) := by
    rw [List.map_inj_left]
    intro word member
    have values : (reads word).map (seen s.vars) = (reads word).map (seen (s.vars ++ bs)) := by
      rw [List.map_inj_left]
      intro name named
      refine (seen_append fun b assigned clash => plain word member b assigned ?_).symm
      rwa [clash]
    rw [use, use, values]
  rw [ShellState.event, ShellState.event, splitAssignments_append assigns]
  simp [same]

theorem runSimple_front {front : List (List Char)} {bs : List Binding} (assigns : front.map assignment = bs.map some)
    {words : List (List Char)} (plain : ∀ word ∈ (splitAssignments words).2, ∀ b ∈ bs, b.name ∉ reads word)
    (x : Exec) :
    let y : Exec := { x with shell := { x.shell with vars := x.shell.vars ++ bs } }
    (runSimple w x (front ++ words)).trace = (runSimple w y words).trace ∧
      (runSimple w x (front ++ words)).status = (runSimple w y words).status := by
  have event := event_front assigns plain x.shell
  constructor
  · rw [trace_runSimple, trace_runSimple, event]
  · rw [status_runSimple, status_runSimple, splitAssignments_append assigns, event]

/-- A shell whose variables are all exported hands them all on. -/
theorem ShellState.child_of_exported {s : ShellState} (exported : ∀ b ∈ s.vars, b.exported = true) (bs : List Binding) :
    s.child bs = { s with vars := s.vars ++ bs } := by
  rw [ShellState.child, List.filter_eq_self.mpr exported]

end McpSsh.Base.Shell
