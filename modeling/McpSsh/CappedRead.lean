import McpSsh.Base.Trace
import Mathlib.Data.List.Induction

/-!
# Reading a bounded part of an output

`_run_capped` reads the output of a command in chunks, whose sizes the remote side
chooses, until it has as many characters as it may. The output may have no end.
-/

set_option autoImplicit false

namespace McpSsh

open Base

/-! ## Outputs -/

/-- The characters of an output, by their place; it may end or not. -/
structure OutputStream where
  at? : Nat → Option Char
  ends : ∀ n, at? n = none → at? (n + 1) = none

namespace OutputStream

variable (o : OutputStream)

/-- The first `count` characters from a place on. -/
def slice (start count : Nat) : List Char := (List.range' start count).filterMap o.at?

/-- The first characters. -/
def take (count : Nat) : List Char := o.slice 0 count

/-- The output of a command that writes this text. -/
def ofText (text : List Char) : OutputStream where
  at? n := text[n]?
  ends n := by
    rw [List.getElem?_eq_none_iff, List.getElem?_eq_none_iff]
    omega

variable {o}

theorem slice_add (start count more : Nat) :
    o.slice start (count + more) = o.slice start count ++ o.slice (start + count) more := by
  rw [slice, slice, slice, ← List.filterMap_append, List.range'_append_1]

theorem take_add (count more : Nat) : o.take (count + more) = o.take count ++ o.slice count more := by
  rw [take, take, slice_add, Nat.zero_add]

theorem at?_add_of_none {n : Nat} (ended : o.at? n = none) (k : Nat) : o.at? (n + k) = none := by
  induction k with
  | zero => exact ended
  | succ k ih => exact o.ends _ ih

/-- Behind the end there is nothing. -/
theorem slice_of_none {start : Nat} (ended : o.at? start = none) (count : Nat) : o.slice start count = [] := by
  rw [slice, List.filterMap_eq_nil_iff]
  intro n inside
  obtain ⟨low, -⟩ := List.mem_range'_1.mp inside
  obtain ⟨k, rfl⟩ := Nat.exists_eq_add_of_le low
  exact at?_add_of_none ended k

/-- Characters that stand in the output are a slice of it. -/
theorem slice_eq {start : Nat} {data : List Char} (stands : ∀ i < data.length, o.at? (start + i) = data[i]?) :
    o.slice start data.length = data := by
  induction data using List.reverseRecOn with
  | nil => rfl
  | append_singleton data c ih =>
    have last := stands data.length (by simp)
    have front : o.slice start data.length = data := by
      apply ih
      intro i below
      rw [stands i (by rw [List.length_append]; omega), List.getElem?_append_left below]
    rw [List.length_append, List.length_singleton, slice_add, front, slice, List.range'_one, List.filterMap_cons]
    simp [last]

theorem take_succ (count : Nat) : o.take (count + 1) = o.take count ++ (o.at? count).toList := by
  rw [take_add, slice, List.range'_one, List.filterMap_cons]
  cases o.at? count <;> rfl

/-- The first characters of a text. -/
theorem take_ofText (text : List Char) (count : Nat) : (ofText text).take count = text.take count := by
  induction count with
  | zero => rfl
  | succ count ih =>
    rw [take_succ, ih, List.take_add_one]
    rfl

/-- An output without an end has as many characters as are taken. -/
theorem length_take (endless : ∀ n, o.at? n ≠ none) (count : Nat) : (o.take count).length = count := by
  induction count with
  | zero => rfl
  | succ count ih =>
    obtain ⟨c, here⟩ := Option.ne_none_iff_exists'.mp (endless count)
    rw [take_succ, List.length_append, ih, here]
    rfl

end OutputStream

/-! ## The loop -/

/-- `_HARVEST_MAX_BYTES`; what is counted is characters. -/
def harvestMaxBytes : Nat := 1048576

/-- `_HARVEST_READ_CHUNK`. -/
def harvestReadChunk : Nat := 65536

/-- The variables of `_run_capped`; the requests are a record that no code reads. -/
structure CappedRead where
  total : Nat
  chunks : List (List Char)
  /-- The loop was left at the end of the output. -/
  broken : Bool
  asked : List Nat

namespace CappedRead

def start : CappedRead := ⟨0, [], false, []⟩

/-- The loop has another turn. -/
def Running (s : CappedRead) : Prop := s.broken = false ∧ s.total < harvestMaxBytes

/-- What is asked for next. -/
def want (s : CappedRead) : Nat := min harvestReadChunk (harvestMaxBytes - s.total)

/-- A turn of the loop that gets `data`. -/
def turn (s : CappedRead) (data : List Char) : CappedRead :=
  if data.isEmpty then { s with broken := true, asked := s.asked ++ [s.want] }
  else { s with total := s.total + data.length, chunks := s.chunks ++ [data], asked := s.asked ++ [s.want] }

/-- `"".join(chunks)`. -/
def output (s : CappedRead) : List Char := s.chunks.flatten

end CappedRead

/-- A read gets from one to `want` characters, or nothing at the end of the output. -/
def OutputStream.Answers (o : OutputStream) (place want : Nat) (data : List Char) : Prop :=
  if data = [] then o.at? place = none
  else data.length ≤ want ∧ ∀ i < data.length, o.at? (place + i) = data[i]?

instance (o : OutputStream) (place want : Nat) (data : List Char) : Decidable (o.Answers place want data) :=
  inferInstanceAs (Decidable (if data = [] then _ else _))

theorem OutputStream.exists_answer (o : OutputStream) (place : Nat) {want : Nat} (some_ : 1 ≤ want) :
    ∃ data, o.Answers place want data := by
  cases here : o.at? place with
  | none => exact ⟨[], (if_pos rfl).mpr here⟩
  | some c =>
    refine ⟨[c], (if_neg (List.cons_ne_nil c [])).mpr ⟨some_, fun i below => ?_⟩⟩
    obtain rfl : i = 0 := Nat.lt_one_iff.mp below
    exact here

/-- A turn with any answer of the output. -/
def CappedStep (o : OutputStream) : System CappedRead (List Char) := fun s data t =>
  s.Running ∧ o.Answers s.total s.want data ∧ t = s.turn data

namespace CappedRead

variable {o : OutputStream} {s t : CappedRead} {data : List Char}

/-- What holds after some turns. -/
structure Inv (o : OutputStream) (s : CappedRead) (turns : Nat) : Prop where
  text : s.output = o.take s.total
  count : s.output.length = s.total
  bounded : s.total ≤ harvestMaxBytes
  /-- Every turn but the last brings a character. -/
  early : turns ≤ s.total + s.broken.toNat
  ended : s.broken = true → o.at? s.total = none
  chunks : s.chunks.length + s.broken.toNat = turns
  asked : s.asked.length = turns
  /-- A request is for a character at least, and never for more than is left. -/
  within : ∀ i w, s.asked[i]? = some w → 1 ≤ w ∧ w ≤ harvestReadChunk ∧
    (s.chunks.take i).flatten.length + w ≤ harvestMaxBytes

theorem inv_start (o : OutputStream) : Inv o start 0 where
  text := rfl
  count := rfl
  bounded := Nat.zero_le _
  early := Nat.zero_le _
  ended broken := by cases broken
  chunks := rfl
  asked := rfl
  within i w listed := by simp [start] at listed

theorem want_spec (running : s.Running) :
    1 ≤ s.want ∧ s.want ≤ harvestReadChunk ∧ s.total + s.want ≤ harvestMaxBytes := by
  obtain ⟨-, room⟩ := running
  have chunk : 1 ≤ harvestReadChunk := by decide
  rw [want]
  omega

/-- The requests of a turn are within the bound. -/
theorem Inv.within_turn {turns : Nat} (inv : Inv o s turns) (running : s.Running) {chunks : List (List Char)}
    (grows : s.chunks <+: chunks) {i w : Nat} (listed : (s.asked ++ [s.want])[i]? = some w) :
    1 ≤ w ∧ w ≤ harvestReadChunk ∧ (chunks.take i).flatten.length + w ≤ harvestMaxBytes := by
  obtain ⟨more, rfl⟩ := grows
  have one : s.chunks.length = s.asked.length := by
    have chunks := inv.chunks
    rw [running.1, Bool.toNat_false] at chunks
    rw [inv.asked, ← chunks, Nat.add_zero]
  by_cases before : i < s.asked.length
  · rw [List.getElem?_append_left before] at listed
    rw [List.take_append_of_le_length (by omega)]
    exact inv.within i w listed
  · rw [List.getElem?_append_right (by omega)] at listed
    obtain ⟨rfl, rfl⟩ : i = s.asked.length ∧ w = s.want := by
      have last := List.getElem?_eq_some_iff.mp listed
      obtain ⟨inside, same⟩ := last
      rw [List.length_singleton] at inside
      exact ⟨by omega, by simpa using same.symm⟩
    rw [← one, List.take_left]
    have count := inv.count
    rw [output] at count
    rw [count]
    exact want_spec running

theorem Inv.step {turns : Nat} (inv : Inv o s turns) (step : CappedStep o s data t) : Inv o t (turns + 1) := by
  obtain ⟨running, answer, rfl⟩ := step
  obtain ⟨some_, chunk, fits⟩ := want_spec running
  have chunks := inv.chunks
  have early := inv.early
  rw [running.1, Bool.toNat_false] at chunks early
  unfold OutputStream.Answers at answer
  by_cases empty : data = []
  · rw [if_pos empty] at answer
    rw [turn, if_pos (by simp [empty])]
    exact {
      text := inv.text
      count := inv.count
      bounded := inv.bounded
      early := Nat.add_le_add_right early 1
      ended := fun _ => answer
      chunks := by rw [← chunks]; rfl
      asked := by rw [List.length_append, inv.asked]; rfl
      within := fun i w => inv.within_turn running (List.prefix_refl _) }
  · rw [if_neg empty] at answer
    obtain ⟨short, stands⟩ := answer
    have positive := List.length_pos_iff.mpr empty
    have output_ : (s.chunks ++ [data]).flatten = s.output ++ data := by
      rw [List.flatten_append, List.flatten_singleton]
      rfl
    rw [turn, if_neg (by simpa using empty)]
    exact {
      text := by
        rw [output, output_, inv.text, OutputStream.take_add, OutputStream.slice_eq stands]
      count := by rw [output, output_, List.length_append, inv.count]
      bounded := by dsimp only; omega
      early := by dsimp only; omega
      ended := fun broken => by rw [running.1] at broken; cases broken
      chunks := by
        dsimp only
        rw [running.1, List.length_append, ← chunks]
        rfl
      asked := by rw [List.length_append, inv.asked]; rfl
      within := fun i w => inv.within_turn running (List.prefix_append _ _) }

theorem Inv.run {turns : Nat} (inv : Inv o s turns) {answers : List (List Char)} (run : Run (CappedStep o) s answers t) :
    Inv o t (turns + answers.length) := by
  induction run generalizing turns with
  | refl => exact inv
  | step first _ ih =>
    rw [List.length_cons, Nat.add_comm (List.length _), ← Nat.add_assoc]
    exact ih (inv.step first)

end CappedRead

/-! ## Every schedule -/

/-- What holds of the loop after these answers. -/
structure CappedRead.Exact (o : OutputStream) (answers : List (List Char)) (s : CappedRead) : Prop where
  /-- A request is for a character at least, and for no more than is left below the cap. -/
  within : s.asked.length = answers.length ∧ ∀ i w, s.asked[i]? = some w →
    1 ≤ w ∧ w ≤ harvestReadChunk ∧ (s.chunks.take i).flatten.length + w ≤ harvestMaxBytes
  /-- The loop ends: no more reads than this can be answered. -/
  finite : answers.length ≤ harvestMaxBytes + 1
  /-- Until then, the output has an answer. -/
  more : s.Running → ∃ data t, CappedStep o s data t
  /-- What is returned is the beginning of the output, all that the cap allows. -/
  output : ¬ s.Running → s.output = o.take harvestMaxBytes

/-- **A capped read returns an exact prefix**, for every output and every schedule. -/
theorem CappedRead.exact (o : OutputStream) (answers : List (List Char)) (s : CappedRead)
    (run : Run (CappedStep o) .start answers s) : s.Exact o answers := by
  have inv := (CappedRead.inv_start o).run run
  rw [Nat.zero_add] at inv
  constructor
  · exact ⟨inv.asked, inv.within⟩
  · have early := inv.early
    have bounded := inv.bounded
    have one := Bool.toNat_le s.broken
    omega
  · intro running
    obtain ⟨data, answer⟩ := o.exists_answer s.total (CappedRead.want_spec running).1
    exact ⟨data, _, running, answer, rfl⟩
  · intro stopped
    rw [inv.text]
    obtain ⟨left, bound⟩ := Nat.exists_eq_add_of_le inv.bounded
    rw [bound, OutputStream.take_add]
    by_cases broken : s.broken = true
    · rw [OutputStream.slice_of_none (inv.ended broken), List.append_nil]
    · have full : ¬ s.total < harvestMaxBytes := fun room => stopped ⟨by simpa using broken, room⟩
      have none_ : left = 0 := by omega
      rw [none_, OutputStream.slice, List.range'_zero]
      exact (List.append_nil _).symm

/-- What `yes` writes. -/
def OutputStream.yes : OutputStream := ⟨fun _ => some 'y', fun _ ended => by cases ended⟩

/-- The chunks of an output without an end, each as long as it may be. -/
theorem CappedRead.run_yes (k : Nat) (room : k * harvestReadChunk ≤ harvestMaxBytes) : ∃ s,
    Run (CappedStep .yes) .start (List.replicate k (List.replicate harvestReadChunk 'y')) s ∧
      s.broken = false ∧ s.total = k * harvestReadChunk := by
  induction k with
  | zero => exact ⟨_, .refl _, rfl, rfl⟩
  | succ k ih =>
    have next : k * harvestReadChunk + harvestReadChunk ≤ harvestMaxBytes := by rwa [← Nat.succ_mul]
    obtain ⟨s, run, unbroken, total⟩ := ih (Nat.le_of_add_right_le next)
    have some_ : List.replicate harvestReadChunk 'y' ≠ [] := (List.replicate_eq_nil_iff 'y').not.mpr (by decide)
    have running : s.Running := ⟨unbroken, by rw [total]; exact Nat.lt_of_lt_of_le (Nat.lt_add_of_pos_right (by decide)) next⟩
    have answers : OutputStream.yes.Answers s.total s.want (List.replicate harvestReadChunk 'y') := by
      rw [OutputStream.Answers, if_neg some_, List.length_replicate, want, total]
      refine ⟨by omega, fun i below => ?_⟩
      rw [List.getElem?_replicate, if_pos below]
      rfl
    refine ⟨s.turn (List.replicate harvestReadChunk 'y'), ?_, ?_, ?_⟩
    · rw [List.replicate_succ']
      exact run.append (.step ⟨running, answers, rfl⟩ (.refl _))
    · rw [turn, if_neg (by simpa using some_)]
      exact unbroken
    · rw [turn, if_neg (by simpa using some_), Nat.succ_mul, ← total]
      simp

/-- The loop is left with sixteen chunks, at the cap. -/
theorem CappedRead.exact_yes : ∃ s, Run (CappedStep .yes) .start
    (List.replicate 16 (List.replicate harvestReadChunk 'y')) s ∧ s.output.length = harvestMaxBytes := by
  obtain ⟨s, run, -, total⟩ := CappedRead.run_yes 16 (by decide)
  have full : ¬ s.Running := fun running => absurd running.2 (by rw [total]; decide)
  refine ⟨s, run, ?_⟩
  rw [(CappedRead.exact .yes _ s run).output full, OutputStream.length_take (fun _ => Option.some_ne_none 'y')]

end McpSsh
