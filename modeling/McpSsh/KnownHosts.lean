import McpSsh.Models
import McpSsh.Base.Text
import McpSsh.Base.Trace

/-!
# The known_hosts file

How the pool and `ssh_add_known_host` record a presented host key. What the lines
of the file mean follows the OpenSSH grammar: an optional marker, a list of host
names, a key type and a key.
-/

set_option autoImplicit false

namespace McpSsh

open Base

/-- What opening and reading the file gives. -/
inductive HostsFile where
  /-- `open` raises `OSError`. -/
  | missing
  | text (content : List Char)
  /-- The decoder fails after the lines in `delivered`. -/
  | undecodable (delivered : List Char)
deriving DecidableEq

/-- The exceptions of the scanner and of the recorder. -/
inductive HostsError where
  | index
  | unicodeDecode
  | os
deriving DecidableEq

/-- A presented host key, as `export_public_key` writes it. -/
structure HostKey where
  algorithm : List Char
  blob : List Char
  wordAlgorithm : Word algorithm
  wordBlob : Word blob

/-- `key_line`. -/
def HostKey.line (key : HostKey) : List Char := key.algorithm ++ ' ' :: key.blob

/-! ## The file's entries -/

/-- The words of one line make an entry, unless the line is blank or a comment. -/
def isEntry (ws : List (List Char)) : Bool :=
  match ws with
  | [] => false
  | w :: _ => w.head? ≠ some '#'

/-- The words of every line that is neither blank nor a comment. -/
def entryWords (content : List Char) : List (List (List Char)) := ((lines content).map words).filter isEntry

structure HostEntry where
  marker : Option (List Char)
  hosts : List (List Char)
  key : List (List Char)
deriving DecidableEq

/-- A first word that starts with `@` is a marker. -/
def isMarker (w : List Char) : Bool := w.head? = some '@'

/-- The entry that the words of a line make. -/
def entryOf (ws : List (List Char)) : HostEntry :=
  match ws with
  | [] => ⟨none, [], []⟩
  | w :: ws =>
    if isMarker w then
      match ws with
      | [] => ⟨some w, [], []⟩
      | hosts :: key => ⟨some w, hosts.splitOn ',', key⟩
    else ⟨none, w.splitOn ',', ws⟩

/-- The entries of the file, line by line. -/
def entries (content : List Char) : List HostEntry := (entryWords content).map entryOf

/-! ## Recording a host key -/

/-- `host_entry`. -/
def hostEntry (host : List Char) (key : HostKey) : List Char := host ++ ' ' :: key.line ++ ['\n']

/-- `_append_host_key`, from the key the connection reports. `appends` tells
whether the file can be opened for appending. -/
def appendHostKey (appends : Bool) (file : HostsFile) (host : List Char) (serverKey : Option HostKey) :
    Except HostsError HostsFile :=
  match serverKey with
  | none => .ok file
  | some key =>
    let append (existing : List Char) : Except HostsError HostsFile :=
      if appends then .ok (.text (existing ++ hostEntry host key)) else .error .os
    match file with
    | .text existing => if key.line <:+: existing then .ok file else append existing
    | .missing => append []
    | .undecodable _ => .error .unicodeDecode

/-- The answer of `ssh_add_known_host`. -/
inductive AddOutcome where
  | noHostKey
  | recorded (alreadyKnown : Bool) (file : HostsFile)
deriving DecidableEq

/-- `async_ssh_add_known_host`, once the pool has returned a connection to `host`. -/
def addKnownHost (appends : Bool) (file : HostsFile) (host : List Char) (serverKey : Option HostKey) :
    Except HostsError AddOutcome :=
  match serverKey with
  | none => .ok .noHostKey
  | some key =>
    match file with
    | .undecodable _ => .error .unicodeDecode
    | .text existing =>
      if key.line <:+: existing then .ok (.recorded true file)
      else if appends then .ok (.recorded false (.text (existing ++ hostEntry host key))) else .error .os
    | .missing => if appends then .ok (.recorded false (.text (hostEntry host key))) else .error .os

/-! ## What is recorded -/

/-- The file has an entry for the pair: a line without marker that names `host`
and carries `key`. -/
def Lists (content host : List Char) (key : HostKey) : Prop :=
  ∃ e ∈ entries content, e.marker = none ∧ host ∈ e.hosts ∧ e.key.take 2 = [key.algorithm, key.blob]

instance (content host : List Char) (key : HostKey) : Decidable (Lists content host key) :=
  inferInstanceAs (Decidable (∃ e ∈ entries content, _))

/-- The entry of one host and one key. -/
def pairEntry (host : List Char) (key : HostKey) : HostEntry := ⟨none, [host], [key.algorithm, key.blob]⟩

/-- `after` has the entries of `before`, and the entry of the pair if it was absent. -/
def RecordsExactly (before after host : List Char) (key : HostKey) : Prop :=
  entries after = entries before ++ if Lists before host key then [] else [pairEntry host key]

/-- A single host name as it may stand at the start of a line. -/
structure HostToken (host : List Char) : Prop where
  word : Word host
  single : ',' ∉ host
  noComment : host.head? ≠ some '#'
  noMarker : host.head? ≠ some '@'

/-- The text after the last line end. -/
def lastLine (content : List Char) : List Char := (lines content).getLastD []

/-- The line that the entry of the pair would end up in. -/
def extendedLine (content host : List Char) (key : HostKey) : List Char :=
  lastLine content ++ (host ++ ' ' :: key.line)

/-- When recording is exact. If the key's text occurs in the file, the pair is
listed. If it does not occur and the pair is not listed, the host is a single name
and the file does not end inside a line. If the pair is listed in another spacing,
the new text only prolongs a comment. -/
def Recordable (content host : List Char) (key : HostKey) : Prop :=
  if key.line <:+: content then Lists content host key
  else if Lists content host key then (strip (extendedLine content host key)).head? = some '#'
  else HostToken host ∧ Blank (lastLine content)

/-! ## Entries of an extended file -/

theorem entryWords_append_cons (a b : List Char) {sep : Char} (ends : isLineEnd sep = true) :
    entryWords (a ++ sep :: b) = entryWords a ++ entryWords b := by
  simp [entryWords, lines_append_cons a b ends]

theorem entryWords_line {line : List Char} (solid : ∀ c ∈ line, isLineEnd c = false) :
    entryWords line = [words line].filter isEntry := by
  simp [entryWords, lines_line solid]

theorem lastLine_append_cons {front tail : List Char} {sep : Char} (ends : isLineEnd sep = true)
    (solid : ∀ c ∈ tail, isLineEnd c = false) : lastLine (front ++ sep :: tail) = tail := by
  rw [lastLine, lines_append_cons front tail ends, lines_line solid]
  simp

theorem lastLine_line {line : List Char} (solid : ∀ c ∈ line, isLineEnd c = false) : lastLine line = line := by
  simp [lastLine, lines_line solid]

/-- The entries of a file split into those before its last line and that line's. -/
theorem exists_lastLine (content : List Char) :
    ∃ before, (∀ c ∈ lastLine content, isLineEnd c = false) ∧
      ∀ more, entryWords (content ++ more) = before ++ entryWords (lastLine content ++ more) := by
  obtain ⟨tail, solid, rfl | ⟨front, sep, ends, rfl⟩⟩ := last_piece (p := isLineEnd) content
  · exact ⟨[], by rwa [lastLine_line solid], fun more => by rw [lastLine_line solid, List.nil_append]⟩
  · rw [lastLine_append_cons ends solid]
    refine ⟨entryWords front, solid, fun more => ?_⟩
    rw [List.append_assoc, List.cons_append, entryWords_append_cons _ _ ends]

theorem words_hostEntry {host : List Char} (word : Word host) (key : HostKey) :
    words (host ++ ' ' :: key.line) = [host, key.algorithm, key.blob] := by
  rw [words_append_cons _ _ (by decide), words_word word, HostKey.line, words_append_cons _ _ (by decide),
    words_word key.wordAlgorithm, words_word key.wordBlob]
  rfl

theorem lineEnd_not_mem_word {w : List Char} (word : Word w) : ∀ c ∈ w, isLineEnd c = false := by
  intro c member
  by_contra ends
  have space := isSpace_of_isLineEnd (by simpa using ends)
  rw [word.solid c member] at space
  cases space

theorem lineEnd_not_mem_hostEntry {host : List Char} (word : Word host) (key : HostKey) :
    ∀ c ∈ host ++ ' ' :: key.line, isLineEnd c = false := by
  intro c member
  simp only [HostKey.line, List.mem_append, List.mem_cons] at member
  rcases member with inHost | rfl | inAlgorithm | rfl | inBlob
  · exact lineEnd_not_mem_word word c inHost
  · decide
  · exact lineEnd_not_mem_word key.wordAlgorithm c inAlgorithm
  · decide
  · exact lineEnd_not_mem_word key.wordBlob c inBlob

/-- The entry's words behind an unfinished line. -/
theorem entryWords_append_hostEntry {tail : List Char} (solid : ∀ c ∈ tail, isLineEnd c = false) {host : List Char}
    (word : Word host) (key : HostKey) :
    entryWords (tail ++ hostEntry host key) = [words (tail ++ (host ++ ' ' :: key.line))].filter isEntry := by
  have line : ∀ c ∈ tail ++ (host ++ ' ' :: key.line), isLineEnd c = false := by
    intro c member
    rcases List.mem_append.mp member with inTail | inEntry
    · exact solid c inTail
    · exact lineEnd_not_mem_hostEntry word key c inEntry
  have shape : tail ++ hostEntry host key = (tail ++ (host ++ ' ' :: key.line)) ++ '\n' :: [] := by
    simp [hostEntry]
  rw [shape, entryWords_append_cons _ _ (by decide), entryWords_line line]
  simp [entryWords, lines, words_nil, isEntry]

/-- A line that is not blank stays one entry, or one comment, whatever is added to it. -/
theorem length_filter_isEntry {tail : List Char} (visible : ¬ Blank tail) (more : List Char) :
    ([words (tail ++ more)].filter isEntry).length = ([words tail].filter isEntry).length := by
  obtain ⟨blank, c, rest, spaces, solid, rfl⟩ := words_cons_of_not_blank visible
  obtain ⟨w, ws, first⟩ := head_words solid rest
  obtain ⟨w', ws', first'⟩ := head_words solid (rest ++ more)
  rw [List.append_assoc, words_blank_append spaces, words_blank_append spaces, List.cons_append, first, first']
  by_cases comment : c = '#' <;> simp [isEntry, comment]

theorem entryOf_pair {host : List Char} (token : HostToken host) (key : HostKey) :
    entryOf [host, key.algorithm, key.blob] = pairEntry host key := by
  simp [entryOf, isMarker, token.noMarker, pairEntry, List.splitOn_eq_singleton token.single]

/-- Only the words of a single host name make the entry of the pair. -/
theorem hostToken_of_entryOf {ws : List (List Char)} (solid : ∀ w ∈ ws, Word w) (visible : isEntry ws = true)
    {host : List Char} {key : HostKey} (same : entryOf ws = pairEntry host key) : HostToken host := by
  cases ws with
  | nil => cases same
  | cons w ws =>
    cases marker : isMarker w with
    | true =>
      simp only [entryOf, marker, if_true] at same
      cases ws <;> cases same
    | false =>
      simp only [entryOf, marker, pairEntry, HostEntry.mk.injEq, Bool.false_eq_true, if_false, true_and] at same
      obtain ⟨split, -⟩ := same
      have joined : [','].intercalate (w.splitOn ',') = w := List.intercalate_splitOn ','
      rw [split, List.intercalate_singleton] at joined
      subst joined
      refine ⟨solid host (by simp), ?_, by simpa [isEntry] using visible, by simpa [isMarker] using marker⟩
      intro comma
      have piece : host ∈ host.splitOnP (· == ',') := by
        rw [← List.splitOn_eq_splitOnP, split]
        simp
      have absent := not_mem_of_mem_splitOnP piece ',' comma
      simp at absent

theorem mem_entries {content : List Char} {e : HostEntry} (member : e ∈ entries content) :
    ∃ ws, (∀ w ∈ ws, Word w) ∧ isEntry ws = true ∧ entryOf ws = e := by
  simp only [entries, entryWords, List.mem_map, List.mem_filter] at member
  obtain ⟨ws, ⟨⟨line, -, rfl⟩, visible⟩, rfl⟩ := member
  exact ⟨words line, fun w => mem_words, visible, rfl⟩

/-- **Appending the entry adds exactly that entry** if and only if the host is a
single name and the file does not end inside a line. -/
theorem entries_append_hostEntry (content host : List Char) (key : HostKey) :
    entries (content ++ hostEntry host key) = entries content ++ [pairEntry host key] ↔
      HostToken host ∧ Blank (lastLine content) := by
  obtain ⟨before, solid, split⟩ := exists_lastLine content
  have whole := split []
  rw [List.append_nil, List.append_nil, entryWords_line solid] at whole
  constructor
  · intro exact_
    have member : pairEntry host key ∈ entries (content ++ hostEntry host key) := by
      rw [exact_]
      simp
    obtain ⟨ws, words_, visible, same⟩ := mem_entries member
    have token := hostToken_of_entryOf words_ visible same
    refine ⟨token, ?_⟩
    by_contra unfinished
    have count := congrArg List.length exact_
    simp only [entries, split, whole, entryWords_append_hostEntry solid token.word, List.length_map,
      List.length_append, List.length_singleton, length_filter_isEntry unfinished] at count
    omega
  · rintro ⟨token, finished⟩
    have comment : isEntry [host, key.algorithm, key.blob] = true := by simpa [isEntry] using token.noComment
    rw [entries, entries, split, whole, entryWords_append_hostEntry solid token.word, words_blank_append finished,
      words_hostEntry token.word, words_blank finished]
    rw [List.filter_cons_of_pos comment, List.filter_cons_of_neg (by decide)]
    simp [entryOf_pair token]

/-- The words an entry was read from. -/
def HostEntry.words (e : HostEntry) : List (List Char) :=
  let hosts := [','].intercalate e.hosts
  match e.marker with
  | none => hosts :: e.key
  | some m => if e.hosts = [] then [m] else m :: hosts :: e.key

theorem words_entryOf {ws : List (List Char)} (nonempty : ws ≠ []) : (entryOf ws).words = ws := by
  obtain ⟨w, ws, rfl⟩ := List.exists_cons_of_ne_nil nonempty
  cases marker : isMarker w with
  | false => simp [entryOf, marker, HostEntry.words, List.intercalate_splitOn]
  | true =>
    cases ws with
    | nil => simp [entryOf, marker, HostEntry.words]
    | cons hosts key => simp [entryOf, marker, HostEntry.words, List.intercalate_splitOn]

/-- A listed host holds no white space. -/
theorem solid_of_lists {content host : List Char} {key : HostKey} (listed : Lists content host key) :
    ∀ c ∈ host, isSpace c = false := by
  obtain ⟨e, member, unmarked, inHosts, -⟩ := listed
  obtain ⟨ws, solid, -, rfl⟩ := mem_entries member
  cases ws with
  | nil => simp [entryOf] at inHosts
  | cons w ws =>
    cases marker : isMarker w with
    | true => cases ws <;> simp [entryOf, marker] at unmarked
    | false =>
      simp only [entryOf, marker, Bool.false_eq_true, if_false] at inHosts
      intro c inHost
      have inWord : c ∈ [','].intercalate (w.splitOn ',') := mem_intercalate inHosts inHost
      rw [List.intercalate_splitOn] at inWord
      exact (solid w (by simp)).solid c inWord

theorem head_strip_eq_hash {line : List Char} (visible : ¬ Blank line) :
    (strip line).head? = some '#' ↔ isEntry (words line) = false := by
  obtain ⟨blank, c, rest, spaces, solid, rfl⟩ := words_cons_of_not_blank visible
  obtain ⟨tail, stripped⟩ := strip_visible spaces solid rest
  obtain ⟨w, ws, first⟩ := head_words solid rest
  rw [stripped, words_blank_append spaces, first]
  simp [isEntry]

section

variable {content host : List Char} {key : HostKey}

theorem extendedLine_solid (tail : ∀ c ∈ lastLine content, isLineEnd c = false) (inHost : ∀ c ∈ host, isSpace c = false) :
    ∀ c ∈ extendedLine content host key, isLineEnd c = false := by
  intro c member
  simp only [extendedLine, HostKey.line, List.mem_append, List.mem_cons] at member
  rcases member with inTail | inHost_ | rfl | inAlgorithm | rfl | inBlob
  · exact tail c inTail
  · by_contra ends
    have space := isSpace_of_isLineEnd (by simpa using ends)
    rw [inHost c inHost_] at space
    cases space
  · decide
  · exact lineEnd_not_mem_word key.wordAlgorithm c inAlgorithm
  · decide
  · exact lineEnd_not_mem_word key.wordBlob c inBlob

theorem extendedLine_visible (content host : List Char) (key : HostKey) : ¬ Blank (extendedLine content host key) := by
  intro blank
  obtain ⟨a, algorithm, chars⟩ := List.exists_cons_of_ne_nil key.wordAlgorithm.nonempty
  have space := blank a (by simp [extendedLine, HostKey.line, chars])
  rw [key.wordAlgorithm.solid a (by simp [chars])] at space
  cases space

/-- The entry goes to the end of the last line. -/
theorem entryWords_extended {before : List (List (List Char))} (line : ∀ c ∈ extendedLine content host key, isLineEnd c = false)
    (split : ∀ more, entryWords (content ++ more) = before ++ entryWords (lastLine content ++ more)) :
    entryWords (content ++ hostEntry host key) = before ++ [words (extendedLine content host key)].filter isEntry := by
  have shape : lastLine content ++ hostEntry host key = extendedLine content host key ++ '\n' :: [] := by
    simp [hostEntry, extendedLine]
  rw [split, shape, entryWords_append_cons _ _ (by decide), entryWords_line line]
  simp [entryWords, lines, words_nil, isEntry]

/-- A longer last line that is no entry was none before. -/
theorem isEntry_lastLine_of_extended (comment : isEntry (words (extendedLine content host key)) = false) :
    isEntry (words (lastLine content)) = false := by
  by_cases blank : Blank (lastLine content)
  · rw [words_blank blank]
    rfl
  · have same := length_filter_isEntry blank (host ++ ' ' :: key.line)
    rw [← extendedLine] at same
    by_contra kept
    rw [Bool.not_eq_false] at kept
    simp [comment, kept] at same

/-- The same entry would have the same words, hence the same visible characters. -/
theorem entryOf_extended_ne (entry : isEntry (words (extendedLine content host key)) = true)
    (kept : isEntry (words (lastLine content)) = true) :
    entryOf (words (extendedLine content host key)) ≠ entryOf (words (lastLine content)) := by
  intro same
  obtain ⟨a, algorithm, chars⟩ := List.exists_cons_of_ne_nil key.wordAlgorithm.nonempty
  have solidHead : isSpace a = false := key.wordAlgorithm.solid a (by simp [chars])
  have nonempty : ∀ ws, isEntry ws = true → ws ≠ [] := by
    rintro _ visible rfl
    cases visible
  have sameWords := congrArg HostEntry.words same
  rw [words_entryOf (nonempty _ entry), words_entryOf (nonempty _ kept)] at sameWords
  have count := congrArg (fun ws => ws.flatten.length) sameWords
  simp only [flatten_words, extendedLine, HostKey.line, chars, List.filter_append, List.length_append] at count
  simp [solidHead] at count

/-- A pair listed in another spacing is written a second time, unless the text
goes into a comment. -/
theorem entries_append_listed (listed : Lists content host key) :
    entries (content ++ hostEntry host key) = entries content ↔
      (strip (extendedLine content host key)).head? = some '#' := by
  obtain ⟨before, solid, split⟩ := exists_lastLine content
  have whole := split []
  rw [List.append_nil, List.append_nil, entryWords_line solid] at whole
  have line : ∀ c ∈ extendedLine content host key, isLineEnd c = false :=
    extendedLine_solid solid (solid_of_lists listed)
  rw [head_strip_eq_hash (extendedLine_visible content host key), entries, entries, entryWords_extended line split, whole,
    List.map_append, List.map_append, List.append_right_inj]
  cases entry : isEntry (words (extendedLine content host key)) with
  | false => simp [entry, isEntry_lastLine_of_extended entry]
  | true =>
    refine iff_of_false (fun same => ?_) (by simp)
    cases kept : isEntry (words (lastLine content)) with
    | false => simp [entry, kept] at same
    | true =>
      simp only [entry, kept, List.filter_cons_of_pos, List.filter_nil, List.map_cons, List.map_nil,
        List.cons.injEq, and_true] at same
      exact entryOf_extended_ne entry kept same

end

/-- **Recording is exact if and only if the pair and the file are recordable.** -/
theorem recordsExactly_iff (content host : List Char) (key : HostKey) :
    RecordsExactly content (if key.line <:+: content then content else content ++ hostEntry host key) host key ↔
      Recordable content host key := by
  unfold RecordsExactly Recordable
  by_cases occurs : key.line <:+: content <;> by_cases listed : Lists content host key
  · simp [occurs, listed]
  · simp [occurs, listed]
  · simp [occurs, listed, entries_append_listed listed]
  · simp [occurs, listed, entries_append_hostEntry]

/-! ## The two recorders -/

/-- The text of a file that can be decoded; a missing file is an empty one. -/
def HostsFile.content : HostsFile → Option (List Char)
  | .missing => some []
  | .text content => some content
  | .undecodable _ => none

/-- The file after a presented key was recorded for `host`, by either recorder. -/
def Recorded (before : HostsFile) (host : List Char) (key : HostKey) (after : HostsFile) : Prop :=
  appendHostKey true before host (some key) = .ok after ∨
    ∃ alreadyKnown, addKnownHost true before host (some key) = .ok (.recorded alreadyKnown after)

/-- What both recorders do to the text. -/
theorem Recorded.content {before after : HostsFile} {host : List Char} {key : HostKey}
    (recorded : Recorded before host key after) {content : List Char} (readable : before.content = some content) :
    after.content = some (if key.line <:+: content then content else content ++ hostEntry host key) := by
  have nonempty : ¬ key.line <:+: [] := by
    intro inside
    have empty := List.infix_nil.mp inside
    simp [HostKey.line] at empty
  cases before with
  | undecodable delivered => cases readable
  | missing =>
    cases readable
    rcases recorded with appended | ⟨alreadyKnown, added⟩
    · simp only [appendHostKey, List.nil_append, if_true, Except.ok.injEq] at appended
      simp [← appended, HostsFile.content, nonempty]
    · simp only [addKnownHost, if_true, Except.ok.injEq, AddOutcome.recorded.injEq] at added
      simp [← added.2, HostsFile.content, nonempty]
  | text existing =>
    cases readable
    by_cases occurs : key.line <:+: content
    · rcases recorded with appended | ⟨alreadyKnown, added⟩
      · simp only [appendHostKey, occurs, if_true, Except.ok.injEq] at appended
        simp [← appended, HostsFile.content, occurs]
      · simp only [addKnownHost, occurs, if_true, Except.ok.injEq, AddOutcome.recorded.injEq] at added
        simp [← added.2, HostsFile.content, occurs]
    · rcases recorded with appended | ⟨alreadyKnown, added⟩
      · simp only [appendHostKey, occurs, if_true, if_false, Except.ok.injEq] at appended
        simp [← appended, HostsFile.content, occurs]
      · simp only [addKnownHost, occurs, if_true, if_false, Except.ok.injEq, AddOutcome.recorded.injEq] at added
        simp [← added.2, HostsFile.content, occurs]

/-- A connect to a host that presents a key, as the file sees it. -/
structure HostConnect where
  host : List Char
  key : HostKey

/-- One connect under trust-on-first-use. -/
def hostStep : System HostsFile HostConnect := fun before connect after =>
  Recorded before connect.host connect.key after

/-- The condition on a connect in a state of the file. -/
def RecordableConnect (file : HostsFile) (connect : HostConnect) : Prop :=
  ∀ content, file.content = some content → Recordable content connect.host connect.key

theorem lists_mono {before after host : List Char} {key : HostKey} (more : entries before <+: entries after)
    (listed : Lists before host key) : Lists after host key := by
  obtain ⟨e, member, rest⟩ := listed
  exact ⟨e, more.subset member, rest⟩

theorem lists_of_recordsExactly {before after host : List Char} {key : HostKey}
    (exact_ : RecordsExactly before after host key) : Lists after host key := by
  unfold RecordsExactly at exact_
  split at exact_
  · rename_i listed
    exact lists_mono (by simp [exact_]) listed
  · exact ⟨pairEntry host key, by simp [exact_], rfl, by simp [pairEntry], rfl⟩

/-- A recordable connect lists its pair and keeps every entry. -/
theorem hostStep_spec {before after : HostsFile} {connect : HostConnect}
    (step : hostStep before connect after) (recordable : RecordableConnect before connect) {content : List Char}
    (readable : before.content = some content) :
    ∃ content', after.content = some content' ∧ RecordsExactly content content' connect.host connect.key :=
  ⟨_, Recorded.content step readable, (recordsExactly_iff _ _ _).mpr (recordable content readable)⟩

/-- Along a run of recordable connects no entry is lost and every host gets its
entry. -/
theorem hosts_run {before after : HostsFile} {connects : List HostConnect}
    (run : Run (guard hostStep RecordableConnect) before connects after) {content : List Char}
    (readable : before.content = some content) :
    ∃ content', after.content = some content' ∧ entries content <+: entries content' ∧
      ∀ connect ∈ connects, Lists content' connect.host connect.key := by
  induction run generalizing content with
  | refl => exact ⟨content, readable, List.prefix_refl _, by simp⟩
  | @step before middle after connect connects first _ ih =>
    obtain ⟨content', readable', exact_⟩ := hostStep_spec first.1 first.2 readable
    obtain ⟨content'', readable'', more, listed⟩ := ih readable'
    have here := lists_of_recordsExactly exact_
    have kept : entries content <+: entries content' := by
      rw [exact_]
      exact List.prefix_append _ _
    refine ⟨content'', readable'', kept.trans more, fun other member => ?_⟩
    rcases List.mem_cons.mp member with rfl | later
    · exact lists_mono more here
    · exact listed other later

/-- A key that two hosts may present. -/
def sampleKey : HostKey :=
  ⟨"ssh-ed25519".toList, "AAAA".toList, .of_all (by decide) (by decide), .of_all (by decide) (by decide)⟩

end McpSsh
