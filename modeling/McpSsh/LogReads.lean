import McpSsh.Process

/-!
# Reading a log by offsets

A client that reads a log with `ssh_read_process` from offset 0 on, always passing the
`next_offset` of the answer before. The offset counts bytes of the log, but is advanced
by the length of the decoded text: the two agree exactly when no block of `max_bytes`
bytes holds a malformed sequence that is shorter or longer than what stands for it.
-/

set_option autoImplicit false

namespace McpSsh

open Base Utf8

/-- A client that reads a process's log. -/
structure LogReader where
  errors : DecodeErrors
  record : ProcessRecord
  /-- The exit file at each call. -/
  exit : Nat → ExitFile
  log : List UInt8
  maxBytes : Nat
  positive : 0 < maxBytes

namespace LogReader

variable (r : LogReader)

/-- The answer to the call with this number and offset. -/
def call (k offset : Nat) : Option ReadResponse :=
  sshReadProcess r.errors r.record (r.exit k) r.log r.maxBytes offset

/-- The offset of a call, if the calls before it were answered. -/
def offset : Nat → Option Nat
  | 0 => some 0
  | k + 1 => (offset k).bind fun o => (r.call k o).map ReadResponse.nextOffset

def answer (k : Nat) : Option ReadResponse := (r.offset k).bind (r.call k)

/-- The outputs of the first calls, one after the other. -/
def outputs (n : Nat) : List Char := (List.range n).flatMap fun k => ((r.answer k).map ReadResponse.output).getD []

/-- Every call is answered and advances by the bytes it read, the end of the log is
reached, and there the outputs are the decoded log. -/
structure ReadsWhole : Prop where
  answers : ∀ k, ∃ o a, r.offset k = some o ∧ r.answer k = some a ∧
    a.nextOffset = o + (tailHead r.log o r.maxBytes).length
  ends : ∃ n, r.offset n = some r.log.length
  whole : ∀ n, r.offset n = some r.log.length → r.errors.decode r.log = some (r.outputs n)

/-- A character; or, where malformed sequences are replaced, one that has the three
bytes of U+FFFD. -/
def Fits (errors : DecodeErrors) (p : Piece) : Prop :=
  match errors with
  | .strict => p.valid = true
  | .replace => p.valid = false → p.size = 3

instance (errors : DecodeErrors) (p : Piece) : Decidable (Fits errors p) := by
  cases errors <;> unfold Fits <;> infer_instance

/-- Decoding keeps the length of the bytes: they are UTF-8, or every malformed sequence
is as long as what replaces it. -/
def Even (errors : DecodeErrors) (bytes : List UInt8) : Prop := ∀ p ∈ pieces bytes, Fits errors p

instance (errors : DecodeErrors) (bytes : List UInt8) : Decidable (Even errors bytes) :=
  inferInstanceAs (Decidable (∀ p ∈ pieces bytes, _))

/-! ## One block -/

/-- What a piece adds to the offset. -/
theorem utf8Size_replaced (p : Piece) : p.replaced.utf8Size = if p.valid then p.size else 3 := by
  cases p with
  | char c => rfl
  | malformed bytes => rfl

theorem length_encode_replaced (bytes : List UInt8) : (encode ((pieces bytes).map Piece.replaced)).length =
    ((pieces bytes).map fun p => if p.valid then p.size else 3).sum := by
  rw [length_encode, List.map_map]
  congr 1
  apply List.map_congr_left
  intro p _
  exact utf8Size_replaced p

/-- A sum of larger terms is the same only where every term is. -/
theorem sum_eq_iff_forall {α : Type} {f g : α → Nat} {l : List α} (larger : ∀ a ∈ l, f a ≤ g a) :
    (l.map f).sum ≤ (l.map g).sum ∧ ((l.map g).sum = (l.map f).sum ↔ ∀ a ∈ l, g a = f a) := by
  induction l with
  | nil => simp
  | cons a l ih =>
    have here := larger a (by simp)
    obtain ⟨le, same⟩ := ih fun b member => larger b (by simp [member])
    rw [List.map_cons, List.map_cons, List.sum_cons, List.sum_cons, List.forall_mem_cons, ← same]
    omega

/-- **A block is answered with its own length exactly when it is even.** -/
theorem even_iff (errors : DecodeErrors) (bytes : List UInt8) :
    Even errors bytes ↔ ∃ text, errors.decode bytes = some text ∧ (encode text).length = bytes.length := by
  have sizes := size_pieces bytes
  have lengths := length_encode_replaced bytes
  cases errors with
  | strict =>
    simp only [Even, Fits, DecodeErrors.decode, List.all_eq_true]
    constructor
    · intro valid
      refine ⟨_, if_pos valid, ?_⟩
      rw [lengths, ← sizes]
      congr 1
      apply List.map_congr_left
      intro p member
      rw [if_pos (valid p member)]
    · rintro ⟨text, decoded, -⟩
      split at decoded
      · assumption
      · cases decoded
  | replace =>
    have larger : ∀ p ∈ pieces bytes, p.size ≤ if p.valid then p.size else 3 := by
      intro p member
      have short := short_of_mem_pieces member
      cases p with
      | char c => exact Nat.le_refl _
      | malformed n => exact short.2
    simp only [Even, Fits, DecodeErrors.decode, Option.some.injEq, exists_eq_left']
    rw [lengths, ← sizes, (sum_eq_iff_forall larger).2]
    apply forall₂_congr
    intro p member
    cases valid : p.valid with
    | true => simp
    | false => simp [eq_comm]

theorem decode_of_even {errors : DecodeErrors} {bytes : List UInt8} (even : Even errors bytes) :
    errors.decode bytes = some ((pieces bytes).map Piece.replaced) := by
  cases errors with
  | strict => exact if_pos (List.all_eq_true.mpr even)
  | replace => rfl

/-! ## Blocks one after the other -/

/-- An even block does not start inside a sequence. -/
theorem Even.head {errors : DecodeErrors} {b : UInt8} {bytes : List UInt8} (even : Even errors (b :: bytes)) :
    isTail b.toNat = false := by
  by_contra tail
  have broken := @pieces_of_isTail b bytes (by simpa using tail)
  cases errors with
  | strict => exact absurd (even _ broken) (by decide)
  | replace => exact absurd (even _ broken rfl) (by decide)

/-- **Even blocks are cut one after the other.** -/
theorem pieces_blocks {errors : DecodeErrors} {maxBytes : Nat} (some_ : 0 < maxBytes) (n : Nat) {log : List UInt8}
    (even : ∀ k, Even errors (tailHead log (k * maxBytes) maxBytes)) (short : log.length ≤ n * maxBytes) :
    pieces log = (List.range n).flatMap fun k => pieces (tailHead log (k * maxBytes) maxBytes) := by
  induction n generalizing log with
  | zero =>
    have empty : log = [] := List.eq_nil_of_length_eq_zero (by omega)
    rw [empty]
    rfl
  | succ n ih =>
    have rest : ∀ k, tailHead (log.drop maxBytes) (k * maxBytes) maxBytes =
        tailHead log ((k + 1) * maxBytes) maxBytes := by
      intro k
      rw [tailHead, tailHead, List.drop_drop, Nat.succ_mul, Nat.add_comm maxBytes]
    have later := @ih (log.drop maxBytes) (fun k => by rw [rest]; exact even (k + 1)) (by
      rw [List.length_drop]
      rw [Nat.succ_mul] at short
      omega)
    have fresh : ∀ c ∈ (log.drop maxBytes).head?, isTail c.toNat = false := by
      intro c head
      have next := even 1
      rw [Nat.one_mul, tailHead] at next
      obtain ⟨others, whole⟩ : ∃ others, log.drop maxBytes = c :: others := by
        cases chars : log.drop maxBytes with
        | nil => simp [chars] at head
        | cons first others => exact ⟨others, by simpa [chars] using head⟩
      rw [whole, ← Nat.succ_pred_eq_of_pos some_, List.take_succ_cons] at next
      exact next.head
    have cut := pieces_append (log.take maxBytes) fresh
    rw [List.take_append_drop] at cut
    rw [cut, later, List.range_succ_eq_map, List.flatMap_cons, List.flatMap_map]
    congr 1
    · rw [tailHead, Nat.zero_mul, List.drop_zero]
    · apply List.flatMap_congr
      intro k _
      rw [rest]

variable {r : LogReader}

theorem tailHead_min (log : List UInt8) (o maxBytes : Nat) :
    tailHead log (min o log.length) maxBytes = tailHead log o maxBytes := by
  rw [tailHead, tailHead]
  by_cases inside : o ≤ log.length
  · rw [Nat.min_eq_left inside]
  · rw [Nat.min_eq_right (by omega), List.drop_length, List.drop_eq_nil_of_le (by omega)]

theorem length_tailHead (log : List UInt8) (o maxBytes : Nat) :
    min o log.length + (tailHead log o maxBytes).length = min (o + maxBytes) log.length := by
  rw [tailHead, List.length_take, List.length_drop]
  omega

/-- Calls that advance by what they read start at the multiples of `max_bytes`. -/
theorem offset_of_answers (answers : ∀ k, ∃ o a, r.offset k = some o ∧ r.answer k = some a ∧
    a.nextOffset = o + (tailHead r.log o r.maxBytes).length) (k : Nat) :
    r.offset k = some (min (k * r.maxBytes) r.log.length) := by
  induction k with
  | zero => simp [offset]
  | succ k ih =>
    obtain ⟨o, a, here, answered, next⟩ := answers k
    rw [ih, Option.some.injEq] at here
    subst here
    rw [answer, ih, Option.bind_some] at answered
    rw [offset, ih, Option.bind_some, answered, Option.map_some, next, tailHead_min, length_tailHead, Nat.succ_mul]

/-- What an answered call says. -/
theorem call_spec {k o : Nat} {a : ReadResponse} (answered : r.call k o = some a) :
    ∃ text, r.errors.decode (tailHead r.log o r.maxBytes) = some text ∧ a.output = text ∧
      a.nextOffset = o + (encode text).length := by
  obtain ⟨text, decoded, rfl⟩ := Option.map_eq_some_iff.mp answered
  exact ⟨text, decoded, rfl, rfl⟩

/-- A call at the start of an even block is answered with the block. -/
theorem call_of_even {k : Nat} (even : Even r.errors (tailHead r.log (k * r.maxBytes) r.maxBytes)) :
    ∃ a, r.call k (min (k * r.maxBytes) r.log.length) = some a ∧
      a.output = (pieces (tailHead r.log (k * r.maxBytes) r.maxBytes)).map Piece.replaced ∧
      a.nextOffset = min (k * r.maxBytes) r.log.length + (tailHead r.log (k * r.maxBytes) r.maxBytes).length := by
  have decoded := decode_of_even even
  obtain ⟨text, same, length⟩ := (even_iff r.errors _).mp even
  rw [decoded, Option.some.injEq] at same
  subst same
  rw [call, sshReadProcess, tailHead_min, decoded, Option.map_some]
  exact ⟨_, rfl, rfl, by rw [← length]; rfl⟩

/-- Even blocks are read one after the other. -/
theorem offset_of_even (even : ∀ k, Even r.errors (tailHead r.log (k * r.maxBytes) r.maxBytes)) (k : Nat) :
    r.offset k = some (min (k * r.maxBytes) r.log.length) := by
  induction k with
  | zero => simp [offset]
  | succ k ih =>
    obtain ⟨a, answered, -, next⟩ := call_of_even (even k)
    rw [offset, ih, Option.bind_some, answered, Option.map_some, next, length_tailHead, Nat.succ_mul]

/-- **The reads of a log are right exactly when** every block of `max_bytes` bytes, cut at
the multiples of `max_bytes`, is UTF-8; or, where malformed sequences are replaced,
when all those in the blocks are three bytes long. -/
theorem readsWhole_iff (r : LogReader) :
    r.ReadsWhole ↔ ∀ k, Even r.errors (tailHead r.log (k * r.maxBytes) r.maxBytes) := by
  constructor
  · intro reads k
    obtain ⟨o, a, here, answered, next⟩ := reads.answers k
    rw [answer, here, Option.bind_some] at answered
    obtain ⟨text, decoded, -, again⟩ := call_spec answered
    rw [offset_of_answers reads.answers k, Option.some.injEq] at here
    have block : tailHead r.log o r.maxBytes = tailHead r.log (k * r.maxBytes) r.maxBytes := by
      rw [← here, tailHead_min]
    rw [← block]
    exact (even_iff r.errors _).mpr ⟨text, decoded, by omega⟩
  · intro even
    refine ⟨fun k => ?_, ⟨r.log.length, ?_⟩, fun n ended => ?_⟩
    · obtain ⟨a, answered, -, next⟩ := call_of_even (even k)
      refine ⟨_, a, offset_of_even even k, ?_, by rw [next, tailHead_min]⟩
      rw [answer, offset_of_even even k, Option.bind_some, answered]
    · rw [offset_of_even even, Nat.min_eq_right (Nat.le_mul_of_pos_right _ r.positive)]
    · rw [offset_of_even even, Option.some.injEq] at ended
      have cut := pieces_blocks r.positive n even (by omega)
      have whole : Even r.errors r.log := by
        intro p member
        rw [cut] at member
        obtain ⟨k, -, inside⟩ := List.mem_flatMap.mp member
        exact even k p inside
      rw [decode_of_even whole, cut, List.map_flatMap, outputs]
      congr 1
      apply List.flatMap_congr
      intro k _
      obtain ⟨a, answered, output, -⟩ := call_of_even (even k)
      rw [answer, offset_of_even even k, Option.bind_some, answered, Option.map_some, Option.getD_some, output]

/-! ## A character cut in two -/

def sampleRecord : ProcessRecord :=
  { id := "p", server := "web", command := "cat notes", remotePid := 42, logFile := "/tmp/mcp-p.log"
    exitFile := "/tmp/mcp-p.exit", startedAt := ⟨0, none⟩ }

/-- The log `é`, read a byte at a time. -/
def cutReader (errors : DecodeErrors) : LogReader := ⟨errors, sampleRecord, fun _ => .absent, [0xC3, 0xA9], 1, by decide⟩

example : Even .strict [0xC3, 0xA9] := by decide

/-- A character that is cut raises, or moves the offset past the end of the log. -/
theorem cut_character_misread : ¬ ∀ r : LogReader, r.ReadsWhole := by
  intro reads
  obtain ⟨o, a, here, answered, -⟩ := (reads (cutReader .strict)).answers 0
  have raised : (cutReader .strict).answer 0 = none := by decide
  rw [raised] at answered
  cases answered

/-- With replacement characters the first answer says to go on at byte 3 of 2. -/
example : (cutReader .replace).offset 1 = some 3 := by decide

end LogReader

end McpSsh
