import McpSsh.Ansi
import McpSsh.Base.Utf8

/-!
# The text of a PTY session

`_drain_pty` puts the output of a PTY, chunk by chunk, into a buffer of bytes, and
`pty_read` takes up to `max_bytes` of them and decodes and strips each slice by itself.
The outputs of several reads are the stripped stream in every run whose reads cut it
cleanly, and the streams for which every run agrees are those that have no unclean cut.
-/

set_option autoImplicit false

namespace McpSsh

open Base Utf8 Ansi

/-! ## The buffer -/

/-- `_pty_buffers[session_id]`: the chunks not yet read. -/
abbrev PtyBuffer := List (List UInt8)

/-- `maxlen` of the buffer. -/
def bufferLimit : Nat := 65536

/-- The most characters of one `proc.stdout.read`. -/
def chunkLimit : Nat := 4096

/-- `buf.append(chunk.encode())`: a full buffer drops its oldest chunk. -/
def appendChunk (buf : PtyBuffer) (chunk : List Char) : PtyBuffer :=
  (if buf.length < bufferLimit then buf else buf.tail) ++ [encode chunk]

/-- The loop of `pty_read`, with what it has collected: the slice and the buffer after it. -/
def collect (maxBytes : Nat) : List UInt8 → PtyBuffer → List UInt8 × PtyBuffer
  | collected, [] => (collected, [])
  | collected, chunk :: buf =>
    if collected.length < maxBytes then
      let remaining := maxBytes - collected.length
      if chunk.length ≤ remaining then collect maxBytes (collected ++ chunk) buf
      else (collected ++ chunk.take remaining, chunk.drop remaining :: buf)
    else (collected, chunk :: buf)

/-- `strip_ansi(collected.decode("utf-8", errors="replace"))`. -/
def readText (collected : List UInt8) : List Char := stripAnsi ((pieces collected).map Piece.replaced)

/-! ## Drains and reads -/

/-- The output of a PTY that is still to come, what is buffered, and what was read. -/
structure PtyStream where
  unread : List Char
  buffer : PtyBuffer
  outputs : List (List Char)

/-- Nothing has been drained. -/
def PtyStream.fresh (text : List Char) : PtyStream := ⟨text, [], []⟩

/-- A chunk of `_drain_pty`, or a call of `pty_read`. -/
inductive StreamEvent where
  | drain (chunk : List Char)
  | read (maxBytes : Nat)

/-- Any nonempty chunk is drained, as long as the buffer has room, and any number of
bytes is read. -/
inductive StreamStep : System PtyStream StreamEvent where
  | drain {s : PtyStream} (chunk rest : List Char) (next : s.unread = chunk ++ rest) (some : chunk ≠ [])
      (short : chunk.length ≤ chunkLimit) (room : s.buffer.length < bufferLimit) :
      StreamStep s (.drain chunk) { s with unread := rest, buffer := appendChunk s.buffer chunk }
  | read {s : PtyStream} (maxBytes : Nat) (positive : 1 ≤ maxBytes) :
      StreamStep s (.read maxBytes) { s with
        buffer := (collect maxBytes [] s.buffer).2
        outputs := s.outputs ++ [readText (collect maxBytes [] s.buffer).1] }

/-- Everything was drained and read. -/
def PtyStream.Finished (s : PtyStream) : Prop := s.unread = [] ∧ s.buffer.flatten = []

/-- What the reads returned, one after the other. -/
def PtyStream.output (s : PtyStream) : List Char := s.outputs.flatten

/-- What is not read yet. -/
def PtyStream.remaining (s : PtyStream) : List UInt8 := s.buffer.flatten ++ encode s.unread

/-- The bytes a read would take end at the end of a character, and the text may be cut
there. -/
def PtyStream.CutsCleanly (s : PtyStream) (maxBytes : Nat) : Prop :=
  ∃ a b, s.buffer.flatten.take maxBytes = encode a ∧ s.remaining = encode (a ++ b) ∧ CleanCut a b

/-- The reads that cut cleanly, and all drains. -/
def StreamEvent.Clean (s : PtyStream) (e : StreamEvent) : Prop :=
  ∀ maxBytes, e = .read maxBytes → s.CutsCleanly maxBytes

/-! ## One step -/

theorem flatten_appendChunk {buf : PtyBuffer} (chunk : List Char) (room : buf.length < bufferLimit) :
    (appendChunk buf chunk).flatten = buf.flatten ++ encode chunk := by
  rw [appendChunk, if_pos room, List.flatten_append, List.flatten_singleton]

/-- **A read takes the first bytes of the buffer**, however they are chunked. -/
theorem collect_spec (maxBytes : Nat) (buf : PtyBuffer) {collected : List UInt8}
    (short : collected.length ≤ maxBytes) :
    (collect maxBytes collected buf).1 = (collected ++ buf.flatten).take maxBytes ∧
      (collect maxBytes collected buf).2.flatten = (collected ++ buf.flatten).drop maxBytes := by
  induction buf generalizing collected with
  | nil => simp [collect, List.take_of_length_le short, List.drop_of_length_le short]
  | cons chunk buf ih =>
    rw [collect]
    dsimp only
    split
    · split
      · have next := @ih (collected ++ chunk) (by rw [List.length_append]; omega)
        rwa [List.append_assoc] at next
      · rename_i room long
        have inside : maxBytes - collected.length - chunk.length = 0 := by omega
        simp [List.take_append, List.drop_append, List.take_of_length_le short, List.drop_of_length_le short, inside]
    · rename_i full
      have exact : maxBytes = collected.length := by omega
      simp [exact]

theorem collect_fst (maxBytes : Nat) (buf : PtyBuffer) : (collect maxBytes [] buf).1 = buf.flatten.take maxBytes :=
  (collect_spec maxBytes buf (Nat.zero_le _)).1

theorem flatten_collect_snd (maxBytes : Nat) (buf : PtyBuffer) :
    (collect maxBytes [] buf).2.flatten = buf.flatten.drop maxBytes := (collect_spec maxBytes buf (Nat.zero_le _)).2

/-- A slice that ends with a character is stripped as the text it is. -/
theorem readText_encode (text : List Char) : readText (encode text) = stripAnsi text := by
  rw [readText, pieces_encode, List.map_map]
  exact congrArg stripAnsi (List.map_id _)

/-- A drain leaves what is not read yet. -/
theorem remaining_drain {s : PtyStream} {chunk rest : List Char} (next : s.unread = chunk ++ rest)
    (room : s.buffer.length < bufferLimit) :
    PtyStream.remaining { s with unread := rest, buffer := appendChunk s.buffer chunk } = s.remaining := by
  rw [PtyStream.remaining, PtyStream.remaining, flatten_appendChunk chunk room, next, encode_append, List.append_assoc]

/-- What a read leaves that takes the bytes of the text `a`. -/
theorem remaining_read {s : PtyStream} {maxBytes : Nat} {a b : List Char}
    (slice : s.buffer.flatten.take maxBytes = encode a) (remaining : s.remaining = encode (a ++ b)) :
    PtyStream.remaining { s with
      buffer := (collect maxBytes [] s.buffer).2
      outputs := s.outputs ++ [readText (collect maxBytes [] s.buffer).1] } = encode b := by
  have parts : s.buffer.flatten.take maxBytes ++ (s.buffer.flatten.drop maxBytes ++ encode s.unread) =
      encode a ++ encode b := by
    rw [← List.append_assoc, List.take_append_drop, ← encode_append]
    exact remaining
  rw [slice] at parts
  rw [PtyStream.remaining, flatten_collect_snd]
  exact List.append_cancel_left parts

/-- What was read so far is the stripped text of the front of the stream, and the rest
may be stripped by itself. -/
def PtyStream.Faithful (text : List Char) (s : PtyStream) : Prop :=
  ∃ rest, s.remaining = encode rest ∧ stripAnsi text = s.output ++ stripAnsi rest

theorem PtyStream.faithful_fresh (text : List Char) : (PtyStream.fresh text).Faithful text := ⟨text, rfl, rfl⟩

theorem PtyStream.Faithful.step {text : List Char} {s t : PtyStream} {e : StreamEvent} (faithful : s.Faithful text)
    (step : guard StreamStep StreamEvent.Clean s e t) : t.Faithful text := by
  obtain ⟨step, clean⟩ := step
  obtain ⟨rest, remaining, whole⟩ := faithful
  cases step with
  | drain chunk later next some short room =>
    exact ⟨rest, (remaining_drain next room).trans remaining, whole⟩
  | read maxBytes positive =>
    obtain ⟨a, b, slice, text, cut⟩ := clean maxBytes rfl
    obtain rfl : rest = a ++ b := encode_injective (remaining.symm.trans text)
    refine ⟨b, ?_, ?_⟩
    · exact remaining_read slice text
    · rw [whole, stripAnsi_append cut, PtyStream.output, PtyStream.output, List.flatten_append, List.flatten_singleton,
        collect_fst, slice, readText_encode, List.append_assoc]

/-- **What is read is the stripped stream**: in every run in which no read cuts a
character, an escape sequence or a CR LF, once everything is read. -/
theorem output_of_clean {text : List Char} {s : PtyStream} {es : List StreamEvent}
    (run : Run (guard StreamStep StreamEvent.Clean) (.fresh text) es s) (finished : s.Finished) :
    s.output = stripAnsi text := by
  obtain ⟨rest, remaining, whole⟩ := run.preserves (fun _ _ _ => .step) (PtyStream.faithful_fresh text)
  have nothing : encode rest = encode [] := by
    rw [← remaining, PtyStream.remaining, finished.1, finished.2]
    rfl
  rw [whole, encode_injective nothing]
  exact (List.append_nil _).symm

/-- A colour sequence and a CR LF, cut before the sequence. -/
theorem output_of_clean_colour : ∃ es s,
    Run (guard StreamStep StreamEvent.Clean) (.fresh "é\x1b[0m\r\n".toList) es s ∧ s.Finished ∧
      s.output = stripAnsi "é\x1b[0m\r\n".toList := by
  have run : Run (guard StreamStep StreamEvent.Clean) (.fresh "é\x1b[0m\r\n".toList)
      [.drain "é\x1b[0m\r\n".toList, .read 2, .read 6]
      ⟨[], [], [readText (encode ['é']), readText (encode "\x1b[0m\r\n".toList)]⟩ := by
    refine .step ⟨.drain _ [] rfl (by decide) (by decide) (by decide), by rintro _ ⟨⟩⟩
      (.step ⟨.read 2 (by decide), ?_⟩ (.step ⟨.read 6 (by decide), ?_⟩ (.refl _)))
    · rintro _ ⟨⟩
      exact ⟨['é'], "\x1b[0m\r\n".toList, by decide, by decide, by decide⟩
    · rintro _ ⟨⟩
      exact ⟨"\x1b[0m\r\n".toList, [], by decide, by decide, by decide⟩
  exact ⟨_, _, run, ⟨rfl, rfl⟩, output_of_clean run ⟨rfl, rfl⟩⟩

/-- A CR LF read byte by byte is two line ends. -/
theorem crlf_split : ∃ text es s, Run StreamStep (.fresh text) es s ∧ s.Finished ∧ s.output ≠ stripAnsi text := by
  refine ⟨['\r', '\n'], [.drain ['\r', '\n'], .read 1, .read 1], ⟨[], [], [['\n'], ['\n']]⟩, ?_, ⟨rfl, rfl⟩,
    by decide⟩
  exact .step (.drain _ [] rfl (by decide) (by decide) (by decide)) (.step (.read 1 (by decide))
    (.step (.read 1 (by decide)) (.refl _)))

/-! ## Streams that are read alike by every run -/

/-- Every run that reads the whole stream returns its stripped text. -/
def ReadAlike (text : List Char) : Prop :=
  ∀ es s, Run StreamStep (.fresh text) es s → s.Finished → s.output = stripAnsi text

/-- ASCII, without escape sequences and CR LF. -/
def Plain (text : List Char) : Prop := (∀ c ∈ text, c.utf8Size = 1) ∧ Bare text

/-- The bytes not yet read are those of a plain text. -/
def PtyStream.PlainRest (s : PtyStream) : Prop := ∃ rest, s.remaining = encode rest ∧ Plain rest

theorem Plain.of_append {a b : List Char} (plain : Plain (a ++ b)) : CleanCut a b ∧ Plain b := by
  obtain ⟨cut, rest⟩ := plain.2.cleanCut
  exact ⟨cut, fun c member => plain.1 c (List.mem_append_right a member), rest⟩

/-- What a read leaves of a plain stream. -/
theorem PtyStream.PlainRest.cut {s : PtyStream} (plain : s.PlainRest) (maxBytes : Nat) :
    ∃ a b, s.buffer.flatten.take maxBytes = encode a ∧ s.remaining = encode (a ++ b) ∧ Plain (a ++ b) := by
  obtain ⟨rest, remaining, plain⟩ := plain
  refine ⟨rest.take (min maxBytes s.buffer.flatten.length), rest.drop (min maxBytes s.buffer.flatten.length), ?_, ?_,
    ?_⟩
  · rw [← take_encode plain.1, ← remaining, PtyStream.remaining, List.take_append_of_le_length (Nat.min_le_right _ _),
      ← List.take_eq_take_min]
  · rw [List.take_append_drop, remaining]
  · rwa [List.take_append_drop]

theorem PtyStream.PlainRest.cutsCleanly {s : PtyStream} (plain : s.PlainRest) (maxBytes : Nat) :
    s.CutsCleanly maxBytes := by
  obtain ⟨a, b, slice, remaining, plain⟩ := plain.cut maxBytes
  exact ⟨a, b, slice, remaining, plain.of_append.1⟩

theorem PtyStream.PlainRest.step {s t : PtyStream} {e : StreamEvent} (plain : s.PlainRest) (step : StreamStep s e t) :
    t.PlainRest := by
  cases step with
  | drain chunk later next some short room =>
    obtain ⟨rest, remaining, plain⟩ := plain
    exact ⟨rest, (remaining_drain next room).trans remaining, plain⟩
  | read maxBytes positive =>
    obtain ⟨a, b, slice, remaining, plain⟩ := plain.cut maxBytes
    exact ⟨b, remaining_read slice remaining, plain.of_append.2⟩

theorem PtyStream.PlainRest.clean {s t : PtyStream} {es : List StreamEvent} (plain : s.PlainRest)
    (run : Run StreamStep s es t) : Run (guard StreamStep StreamEvent.Clean) s es t := by
  induction run with
  | refl s => exact .refl s
  | step first _ ih => exact .step ⟨first, fun maxBytes _ => plain.cutsCleanly maxBytes⟩ (ih (plain.step first))

/-! ## Reading byte by byte -/

theorem length_readText_singleton (b : UInt8) : (readText [b]).length = 1 := by
  obtain ⟨piece, only⟩ := List.length_eq_one_iff.mp (length_pieces_singleton b)
  have kept : stripEscapes [piece.replaced] = [piece.replaced] := by
    rw [stripEscapes_cons, escape]
    exact ⟨ite_self _, rfl⟩
  rw [readText, only, List.map_singleton, stripAnsi, kept, foldCrlf.eq_2 _ _ (by simp)]
  rfl

theorem read_bytes (rest : List Char) (b : UInt8) (bytes : List UInt8) (outputs : List (List Char)) :
    ∃ es outputs', Run StreamStep ⟨rest, [b :: bytes], outputs⟩ es ⟨rest, [], outputs'⟩ ∧
      outputs'.flatten.length = outputs.flatten.length + bytes.length + 1 := by
  induction bytes generalizing b outputs with
  | nil =>
    refine ⟨[.read 1], outputs ++ [readText [b]], .step (.read 1 (Nat.le_refl 1)) (.refl _), ?_⟩
    simp [length_readText_singleton]
  | cons d bytes ih =>
    obtain ⟨es, outputs', run, count⟩ := ih d (outputs ++ [readText [b]])
    refine ⟨.read 1 :: es, outputs', .step (.read 1 (Nat.le_refl 1)) run, ?_⟩
    rw [count, List.flatten_append, List.length_append, List.flatten_singleton, length_readText_singleton,
      List.length_cons]
    omega

/-- Some run returns as many characters as the stream has bytes. -/
theorem read_all_bytes (text : List Char) (outputs : List (List Char)) :
    ∃ es outputs', Run StreamStep ⟨text, [], outputs⟩ es ⟨[], [], outputs'⟩ ∧
      outputs'.flatten.length = outputs.flatten.length + (encode text).length := by
  induction text generalizing outputs with
  | nil => exact ⟨[], outputs, .refl _, rfl⟩
  | cons c text ih =>
    obtain ⟨b, bytes, spelled⟩ := List.exists_cons_of_length_pos
      (show 0 < (String.utf8EncodeChar c).length by rw [String.length_utf8EncodeChar]; exact c.utf8Size_pos)
    obtain ⟨es, outputs', run, count⟩ := read_bytes text b bytes outputs
    obtain ⟨es', outputs'', run', count'⟩ := ih outputs'
    have drained : StreamStep ⟨c :: text, [], outputs⟩ (.drain [c]) ⟨text, [b :: bytes], outputs⟩ := by
      have step := @StreamStep.drain ⟨c :: text, [], outputs⟩ [c] text rfl (by simp) (by simp [chunkLimit])
        (by simp [bufferLimit])
      have buffered : appendChunk [] [c] = [b :: bytes] := by
        rw [← spelled]
        simp [appendChunk, encode, bufferLimit]
      rwa [buffered] at step
    refine ⟨_, outputs'', .step drained (run.append run'), ?_⟩
    rw [count', count, encode_cons, spelled, List.length_append, List.length_cons]
    omega

/-- Once everything is read, the output is the stripped stream. -/
theorem PtyStream.Faithful.output_eq {text : List Char} {s : PtyStream} (faithful : s.Faithful text)
    (finished : s.Finished) : s.output = stripAnsi text := by
  obtain ⟨rest, remaining, whole⟩ := faithful
  have nothing : encode rest = encode [] := by
    rw [← remaining, PtyStream.remaining, finished.1, finished.2]
    rfl
  rw [whole, encode_injective nothing]
  exact (List.append_nil _).symm

/-- **The streams that every run reads alike** are those that can be cut anywhere. -/
theorem readAlike_iff {text : List Char} : ReadAlike text ↔ Plain text := by
  constructor
  · intro alike
    obtain ⟨es, outputs, run, count⟩ := read_all_bytes text []
    have same := congrArg List.length (alike es _ run ⟨rfl, rfl⟩)
    rw [PtyStream.output, count, List.flatten_nil, List.length_nil, Nat.zero_add] at same
    have shorter := length_stripAnsi_le text
    have longer := length_le_length_encode text
    exact ⟨ascii_of_length (by omega), bare_of_length (by omega)⟩
  · intro plain es s run finished
    have start : (PtyStream.fresh text).PlainRest := ⟨text, rfl, plain⟩
    have faithful := (start.clean run).preserves (fun _ _ _ => .step) (PtyStream.faithful_fresh text)
    exact faithful.output_eq finished

end McpSsh
