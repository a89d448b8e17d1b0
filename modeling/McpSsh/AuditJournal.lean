import Mathlib.Data.List.Nodup
import McpSsh.Audit
import McpSsh.Json.Torn
import McpSsh.Process

/-!
# The audit file

`AuditLog` of `audit.py`: every event is appended to a file as one line of JSON. The process
may end while a line is being written, and then some bytes of it are in the file; the next
process appends behind them. Who reads the file line by line afterwards gets every event
back but the ones that stand behind such a start of a line.
-/

set_option autoImplicit false

namespace McpSsh

open Base Base.Utf8 Json

/-! ## Events -/

/-- `AuditEvent` of `models.py`. The detail is what JSON can say. -/
structure StampedEvent where
  ts : String
  tool : String
  server : Option String := none
  command : Option String := none
  processId : Option String := none
  sessionId : Option String := none
  proxyId : Option String := none
  outcome : String
  detail : List (PyString × Value) := []
  distinct : (detail.map Prod.fst).Nodup
  keys : ∀ f ∈ detail, ∃ k, f.1 = ofString k
  values : ∀ f ∈ detail, Dumpable f.2

def optionalText : Option String → Value
  | none => .null
  | some s => .str (ofString s)

theorem dumpable_optionalText (s : Option String) : Dumpable (optionalText s) := by
  cases s with
  | none => exact .null
  | some s => exact .str s

namespace StampedEvent

/-- The members behind the time stamp, in the order of the model. -/
def fields (e : StampedEvent) : List (PyString × Value) :=
  [(ofString "tool", .str (ofString e.tool)), (ofString "server", optionalText e.server),
    (ofString "command", optionalText e.command), (ofString "process_id", optionalText e.processId),
    (ofString "session_id", optionalText e.sessionId), (ofString "proxy_id", optionalText e.proxyId),
    (ofString "outcome", .str (ofString e.outcome)), (ofString "detail", .obj e.detail)]

def value (e : StampedEvent) : Value := .obj ((ofString "ts", .str (ofString e.ts)) :: e.fields)

theorem dumpable_value (e : StampedEvent) : Dumpable e.value := by
  have distinct : (((ofString "ts", .str (ofString e.ts)) :: e.fields).map Prod.fst).Nodup := by
    simp only [fields, List.map_cons, List.map_nil]
    decide
  refine .obj distinct ?_ ?_
  · simp only [fields, List.forall_mem_cons]
    exact ⟨⟨_, rfl⟩, ⟨_, rfl⟩, ⟨_, rfl⟩, ⟨_, rfl⟩, ⟨_, rfl⟩, ⟨_, rfl⟩, ⟨_, rfl⟩, ⟨_, rfl⟩, ⟨_, rfl⟩, by simp⟩
  · simp only [fields, List.forall_mem_cons]
    exact ⟨.str _, .str _, dumpable_optionalText _, dumpable_optionalText _, dumpable_optionalText _,
      dumpable_optionalText _, dumpable_optionalText _, .str _, .obj e.distinct e.keys e.values, by simp⟩

/-- `event.model_dump_json()`. -/
def dumpJson (escape : Char → List Char) (e : StampedEvent) : List Char := compact escape e.value

end StampedEvent

/-- A value in the detail of an event. -/
def Datum.value : Datum → Value
  | .none => .null
  | .bool b => .bool b
  | .int n => .int n
  | .float x => .float x.literal
  | .text s => .str (ofString s)
  | .texts l => .arr (l.map fun s => .str (ofString s))

theorem Datum.dumpable_value (d : Datum) : Dumpable d.value := by
  cases d with
  | none => exact .null
  | bool b => exact .bool b
  | int n => exact .int n
  | float x => exact .float x.shape
  | text s => exact .str s
  | texts l =>
    refine .arr fun v member => ?_
    obtain ⟨s, -, rfl⟩ := List.mem_map.mp member
    exact .str s

theorem ofString_injective : Function.Injective ofString := fun _ _ same =>
  String.toList_inj.mp (List.map_injective_iff.mpr (fun _ _ => CodePoint.char.inj) same)

/-- An event of a tool at a time. -/
def AuditEvent.stamped (e : AuditEvent) (ts : String) (distinct : (e.detail.map Prod.fst).Nodup) : StampedEvent where
  ts := ts
  tool := e.tool
  server := e.server
  command := e.command
  processId := e.processId
  sessionId := e.sessionId
  outcome := e.outcome
  detail := e.detail.map fun f => (ofString f.1, f.2.value)
  distinct := by
    have keys := List.Nodup.map ofString_injective distinct
    rw [List.map_map] at keys ⊢
    exact keys
  keys f member := by
    obtain ⟨g, -, rfl⟩ := List.mem_map.mp member
    exact ⟨g.1, rfl⟩
  values f member := by
    obtain ⟨g, -, rfl⟩ := List.mem_map.mp member
    exact g.2.dumpable_value

/-! ## Writing -/

/-- What happens to the file. -/
inductive JournalEvent where
  /-- `log` returns. -/
  | logged (event : StampedEvent)
  /-- The process ends in `log`, and this many bytes at most are in the file. The line feed
  is not. -/
  | torn (event : StampedEvent) (bytes : Nat)

section

variable (escape : Char → List Char)

/-- The bytes that are appended. -/
def JournalEvent.bytes : JournalEvent → List UInt8
  | .logged event => encode (event.dumpJson escape ++ ['\n'])
  | .torn event bytes => (encode (event.dumpJson escape)).take bytes

/-- The file after some events. It is opened in append mode. -/
def journal (file : List UInt8) (events : List JournalEvent) : List UInt8 :=
  events.foldl (fun file event => file ++ event.bytes escape) file

end

/-! ## Reading -/

/-- `json.loads` of a line; `none` where it is no UTF-8 or no JSON. -/
def readLine (line : List UInt8) : Option Value :=
  (DecodeErrors.strict.decode line).bind fun text => loads (String.ofList text)

/-- The lines of the file that can be read. What stands behind the last line feed is no line. -/
def readJournal (file : List UInt8) : List Value := (file.splitOnP (· = 10)).dropLast.filterMap readLine

/-- The events that are read back: a line that was cut short takes the next one with it. -/
def recovered : Bool → List JournalEvent → List StampedEvent
  | _, [] => []
  | cut, .torn _ bytes :: events => recovered (cut || bytes ≠ 0) events
  | false, .logged event :: events => event :: recovered false events
  | true, .logged _ :: events => recovered false events

/-! ## Lines -/

/-- A line ends here. -/
def EndsLine (file : List UInt8) : Prop := file = [] ∨ ∃ front, file = front ++ [10]

theorem readJournal_append {file : List UInt8} (ends : EndsLine file) (more : List UInt8) :
    readJournal (file ++ more) = readJournal file ++ readJournal more := by
  obtain rfl | ⟨front, rfl⟩ := ends
  · simp [readJournal]
  · have last : (more.splitOnP (· = (10 : UInt8))) ≠ [] := List.splitOnP_ne_nil _ _
    rw [readJournal, readJournal, readJournal, List.append_assoc, List.singleton_append,
      List.splitOnP_append_cons front more (by simp), List.splitOnP_append_cons front [] (by simp),
      List.dropLast_append_of_ne_nil last]
    simp

section

variable {part : List UInt8} (line : (10 : UInt8) ∉ part)

include line

theorem splitOnP_line : part.splitOnP (· = 10) = [part] := by
  refine List.splitOnP_eq_singleton fun b member => ?_
  rw [Bool.eq_false_iff, ne_eq, decide_eq_true_eq]
  rintro rfl
  exact line member

theorem readJournal_open : readJournal part = [] := by
  rw [readJournal, splitOnP_line line]
  rfl

theorem readJournal_line : readJournal (part ++ [10]) = (readLine part).toList := by
  rw [readJournal, List.splitOnP_append_cons part [] (by simp), splitOnP_line line]
  cases read : readLine part <;> simp [read]

end

theorem readLine_encode (text : List Char) : readLine (encode text) = loads (String.ofList text) := by
  have valid : ∀ c : Char, (Piece.char c).valid = true := fun _ => rfl
  have char : ∀ c : Char, (Piece.char c).replaced = c := fun _ => rfl
  simp [readLine, DecodeErrors.decode, pieces_encode, valid, Function.comp_def, char]

/-- A line with a malformed piece is not read. -/
theorem readLine_malformed {line : List UInt8} {k : Nat} (broken : .malformed k ∈ pieces line) : readLine line = none := by
  have refused : ¬ ((pieces line).all fun p => p.valid) = true := by
    rw [List.all_eq_true]
    intro valid
    cases valid _ broken
  rw [readLine, DecodeErrors.decode, if_neg refused]
  rfl

/-! ## Lines that were cut short -/

section

variable {escape : Char → List Char} (escapes : Escapes escape)

include escapes

theorem opensObject_dumpJson (e : StampedEvent) : OpensObject (e.dumpJson escape) :=
  opensObject_compact escapes (k := "ts") rfl (by decide) (by decide) _ _

/-- A text that a record begins with. -/
def Fragment (escape : Char → List Char) (bytes : List UInt8) : Prop :=
  ∃ (e : StampedEvent) (n : Nat), n ≠ 0 ∧ bytes = (encode (e.dumpJson escape)).take n

theorem line_dumpJson (e : StampedEvent) : (10 : UInt8) ∉ encode (e.dumpJson escape) := by
  intro member
  exact (writes_compact escapes e.dumpable_value).line (mem_of_mem_encode (by decide) member)

theorem Fragment.line {bytes : List UInt8} (fragment : Fragment escape bytes) : (10 : UInt8) ∉ bytes := by
  obtain ⟨e, n, -, rfl⟩ := fragment
  exact fun member => line_dumpJson escapes e (List.mem_of_mem_take member)

/-- The texts of objects start with an ASCII byte. -/
theorem Fragment.opens {bytes : List UInt8} (fragment : Fragment escape bytes) : ∃ tail, bytes = 0x7b :: tail := by
  obtain ⟨e, n, some_, rfl⟩ := fragment
  obtain ⟨c, tail, text, -⟩ := opensObject_dumpJson escapes e
  obtain ⟨n, rfl⟩ := Nat.exists_eq_succ_of_ne_zero some_
  rw [text, encode_cons]
  exact ⟨_, rfl⟩

theorem flatten_opens {parts : List (List UInt8)} (each : ∀ part ∈ parts, Fragment escape part) {w : List Char}
    (follows : Follows w) : ∃ tail, parts.flatten ++ encode w = 0x7b :: tail := by
  cases parts with
  | nil =>
    obtain ⟨_, _, _, rfl, -⟩ := follows.opens
    exact ⟨_, rfl⟩
  | cons part parts =>
    obtain ⟨tail, rfl⟩ := (List.forall_mem_cons.mp each).1.opens escapes
    exact ⟨_, rfl⟩

/-- A record behind starts of records: some character was cut, or all of it is a text that
is not read. -/
theorem pieces_fragments {parts : List (List UInt8)} (each : ∀ part ∈ parts, Fragment escape part) {w : List Char}
    (follows : Follows w) :
    (∃ k, .malformed k ∈ pieces (parts.flatten ++ encode w)) ∨
    ∃ text, parts.flatten ++ encode w = encode text ∧ Follows text ∧
      (parts ≠ [] → loads (String.ofList text) = none) := by
  induction parts with
  | nil => exact .inr ⟨w, rfl, follows, fun some_ => absurd rfl some_⟩
  | cons part parts ih =>
    obtain ⟨here, each⟩ := List.forall_mem_cons.mp each
    obtain ⟨tail, opens⟩ := flatten_opens escapes each follows
    have fresh : ∀ c ∈ (parts.flatten ++ encode w).head?, isTail c.toNat = false := by
      rw [opens]
      rintro c ⟨⟩
      decide
    rw [List.flatten_cons, List.append_assoc]
    obtain ⟨k, broken⟩ | ⟨text, same, follows', -⟩ := ih each
    · exact .inl ⟨k, by rw [pieces_append part fresh]; exact List.mem_append_right _ broken⟩
    · obtain ⟨first, start⟩ := here.opens escapes
      obtain ⟨e, n, -, taken⟩ := here
      obtain ⟨q, r, whole, char⟩ | ⟨k, broken⟩ := take_encode_cases (e.dumpJson escape) n
      · have inside : q ≠ [] := by
          rintro rfl
          rw [← taken, start] at char
          cases char
        have opens := opensObject_dumpJson escapes e
        have torn := torn_compact escapes follows' e.dumpable_value
        refine .inr ⟨q ++ text, ?_, follows'.cut torn opens whole inside, fun _ => ?_⟩
        · rw [same, taken, char, encode_append]
        · exact loads_torn follows' torn opens whole inside
      · rw [← taken] at broken
        exact .inl ⟨k, by rw [pieces_append part fresh]; exact List.mem_append_left _ broken⟩

/-- **A record behind starts of records is not read**, and neither is one of these. -/
theorem readLine_fragments {parts : List (List UInt8)} (each : ∀ part ∈ parts, Fragment escape part)
    (some_ : parts ≠ []) (e : StampedEvent) : readLine (parts.flatten ++ encode (e.dumpJson escape)) = none := by
  have follows := (writes_compact escapes e.dumpable_value).follows (opensObject_dumpJson escapes e)
  obtain ⟨k, broken⟩ | ⟨text, same, -, refused⟩ := pieces_fragments escapes each follows
  · exact readLine_malformed broken
  · rw [StampedEvent.dumpJson, same, readLine_encode]
    exact refused some_

/-! ## Runs -/

omit escapes in
theorem journal_eq (file : List UInt8) (events : List JournalEvent) :
    journal escape file events = file ++ events.flatMap (JournalEvent.bytes escape) := by
  induction events generalizing file with
  | nil => rw [journal, List.foldl_nil, List.flatMap_nil, List.append_nil]
  | cons event events ih =>
    rw [List.flatMap_cons, ← List.append_assoc, ← ih]
    rfl

theorem line_fragments {parts : List (List UInt8)} (each : ∀ part ∈ parts, Fragment escape part) :
    (10 : UInt8) ∉ parts.flatten := by
  intro member
  obtain ⟨part, listed, inside⟩ := List.mem_flatten.mp member
  exact (each part listed).line escapes inside

/-- One more record, behind starts of records. -/
theorem readJournal_logged {file : List UInt8} (ends : EndsLine file) {parts : List (List UInt8)}
    (each : ∀ part ∈ parts, Fragment escape part) (e : StampedEvent) :
    readJournal (file ++ (parts.flatten ++ (JournalEvent.logged e).bytes escape)) =
      readJournal file ++ if parts = [] then [e.value] else [] := by
  have line : (10 : UInt8) ∉ parts.flatten ++ encode (e.dumpJson escape) := by
    rw [List.mem_append, not_or]
    exact ⟨line_fragments escapes each, line_dumpJson escapes e⟩
  have bytes : (JournalEvent.logged e).bytes escape = encode (e.dumpJson escape) ++ [10] := encode_append _ _
  rw [bytes, ← List.append_assoc parts.flatten, readJournal_append ends, readJournal_line line]
  congr 1
  split
  · rename_i none_
    rw [none_, List.flatten_nil, List.nil_append, readLine_encode, StampedEvent.dumpJson,
      loads_compact escapes e.dumpable_value]
    rfl
  · rename_i some_
    rw [readLine_fragments escapes each some_]
    rfl

/-- Starts of records at the end of the file, and then some events. -/
theorem readJournal_events {file : List UInt8} (ends : EndsLine file) {parts : List (List UInt8)}
    (each : ∀ part ∈ parts, Fragment escape part) (events : List JournalEvent) :
    readJournal (file ++ (parts.flatten ++ events.flatMap (JournalEvent.bytes escape))) =
      readJournal file ++ (recovered (parts ≠ []) events).map StampedEvent.value := by
  induction events generalizing file parts with
  | nil =>
    rw [List.flatMap_nil, List.append_nil, readJournal_append ends, readJournal_open (line_fragments escapes each)]
    rfl
  | cons event events ih =>
    cases event with
    | logged e =>
      -- the line ends, and nothing of it stands behind
      have line := readJournal_logged escapes ends each e
      have ends' : EndsLine (file ++ (parts.flatten ++ (JournalEvent.logged e).bytes escape)) := by
        refine .inr ⟨file ++ (parts.flatten ++ encode (e.dumpJson escape)), ?_⟩
        rw [JournalEvent.bytes, encode_append, List.append_assoc, List.append_assoc]
        rfl
      have later := @ih _ ends' [] fun _ member => absurd member List.not_mem_nil
      rw [line, List.flatten_nil, List.nil_append, List.append_assoc, List.append_assoc] at later
      rw [List.flatMap_cons, later, List.append_assoc]
      congr 1
      by_cases none_ : parts = []
      · subst none_
        rfl
      · rw [if_neg none_, decide_eq_true none_]
        rfl
    | torn e n =>
      rw [List.flatMap_cons]
      by_cases nothing : n = 0
      · have bytes : (JournalEvent.torn e n).bytes escape = [] := by rw [nothing]; rfl
        rw [bytes, List.nil_append, ih ends each, recovered, nothing]
        simp
      · have more : ∀ part ∈ parts ++ [(JournalEvent.torn e n).bytes escape], Fragment escape part := by
          intro part member
          rcases List.mem_append.mp member with old | new
          · exact each part old
          · exact ⟨e, n, nothing, List.mem_singleton.mp new⟩
        have later := ih ends more
        rw [List.flatten_append, List.flatten_singleton, List.append_assoc] at later
        rw [later, recovered]
        simp [nothing]

/-- **Whatever ends the process, a line that was cut short costs the event behind it at most.**
Every other event is read back, in order, and nothing that was not logged. -/
theorem readJournal_journal {before : List UInt8} (ends : EndsLine before) (events : List JournalEvent) :
    readJournal (journal escape before events) =
      readJournal before ++ (recovered false events).map StampedEvent.value := by
  rw [journal_eq]
  exact @readJournal_events _ escapes _ ends [] (fun _ member => absurd member List.not_mem_nil) events

end

/-- An event of a tool, with a server whose name is not ASCII. -/
def sampleEvent (tool : String) : StampedEvent :=
  let event : AuditEvent := { tool, server := some "b\u00fcro", outcome := "success", detail := [("exit_code", .int 0)] }
  event.stamped "2026-01-01T12:00:00Z" (by simp [event])

/-- Twice the process ends before a line does. -/
def sampleEvents : List JournalEvent :=
  [.logged (sampleEvent "ssh_exec"), .torn (sampleEvent "scp_upload") 61, .torn (sampleEvent "rsync_sync") 1,
    .logged (sampleEvent "ssh_show_known_host"), .logged (sampleEvent "ssh_kill_process")]

theorem readJournal_journal_sample : readJournal (journal escapeControl [] sampleEvents) =
    [(sampleEvent "ssh_exec").value, (sampleEvent "ssh_kill_process").value] :=
  readJournal_journal escapes_escapeControl (.inl rfl) sampleEvents

end McpSsh
