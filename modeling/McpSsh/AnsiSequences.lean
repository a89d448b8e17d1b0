import McpSsh.Ansi
import Mathlib.Data.List.Basic

/-!
# Control sequences and the plain text between them

What `strip_ansi` leaves of a text with control sequences in it. A sequence that the
regular expression does not know loses its first two characters and keeps the others, and
an ESC with nothing but a line end behind it stays.
-/

set_option autoImplicit false

namespace McpSsh.Ansi

/-! ## Sequences -/

/-- A byte of this range. -/
def between (low high : Nat) (c : Char) : Bool := low ≤ c.toNat && c.toNat ≤ high

def isParamByte : Char → Bool := between 0x30 0x3f

def isIntermediate : Char → Bool := between 0x20 0x2f

/-- The final byte of a control sequence. -/
def isFinal : Char → Bool := between 0x40 0x7e

/-- The final byte of a designation. -/
def isCharsetFinal : Char → Bool := between 0x30 0x7e

/-- A character of a text, or a control sequence in it. -/
inductive Piece where
  | plain (c : Char)
  | csi (params intermediates : List Char) (final : Char)
  /-- Ended by BEL or by `ESC \`. -/
  | osc (content : List Char) (bell : Bool)
  /-- A designation of a character set. -/
  | designate (set : Char) (intermediates : List Char) (final : Char)

namespace Piece

def WellFormed : Piece → Bool
  | .plain c => c ≠ '\x1b' && c ≠ '\r'
  | .csi params intermediates final => params.all isParamByte && intermediates.all isIntermediate && isFinal final
  | .osc content _ => content.all fun c => c ≠ '\x07' && c ≠ '\x1b'
  | .designate set intermediates final =>
    "$()*+-./".toList.contains set && intermediates.all isIntermediate && isCharsetFinal final

/-- What is written. -/
def chars : Piece → List Char
  | .plain c => [c]
  | .csi params intermediates final => '\x1b' :: '[' :: (params ++ intermediates ++ [final])
  | .osc content bell => '\x1b' :: ']' :: (content ++ if bell then ['\x07'] else ['\x1b', '\\'])
  | .designate set intermediates final => '\x1b' :: set :: (intermediates ++ [final])

/-- What is to be left. -/
def text : Piece → List Char
  | .plain c => [c]
  | _ => []

/-- The regular expression has an alternative for the sequence: for a CSI sequence, one
with parameters of digits, `;` and `?`, no intermediate byte and a letter at the end; for
a designation, one of G0 or G1 by a digit or letter. -/
def Known : Piece → Bool
  | .plain _ => true
  | .csi params intermediates final => params.all isParam && intermediates.isEmpty && final.isAlpha
  | .osc _ _ => true
  | .designate set intermediates final => (set = '(' || set = ')') && intermediates.isEmpty && final.isAlphanum

/-- What is left. -/
def left (p : Piece) : List Char :=
  if p.Known then p.text
  else
    match p with
    | .csi params intermediates final => params ++ intermediates ++ [final]
    | .designate _ intermediates final => intermediates ++ [final]
    | _ => []

end Piece

/-! ## Stripping piece by piece -/

theorem stripFrom_skip (m b : List Char) : stripFrom m.length (m ++ b) = stripEscapes b := by
  induction m with
  | nil => rfl
  | cons c m ih => exact ih

/-- A match is removed. -/
theorem stripEscapes_match {m b : List Char} (found : escape '\x1b' (m ++ b) = some m.length) :
    stripEscapes ('\x1b' :: (m ++ b)) = stripEscapes b := by
  rw [stripEscapes, stripFrom, found]
  exact stripFrom_skip m b

/-- Characters other than ESC stay. -/
theorem stripEscapes_solid {a b : List Char} (solid : '\x1b' ∉ a) : stripEscapes (a ++ b) = a ++ stripEscapes b := by
  induction a with
  | nil => rfl
  | cons c a ih =>
    obtain ⟨other, solid⟩ := not_or.mp (mt List.mem_cons.mpr solid)
    rw [List.cons_append, stripEscapes, stripFrom, escape, if_neg (Ne.symm other)]
    exact congrArg (c :: ·) (ih solid)

/-! ### Classes of characters -/

theorem between_iff {low high : Nat} {c : Char} : between low high c = true ↔ low ≤ c.toNat ∧ c.toNat ≤ high := by
  rw [between, Bool.and_eq_true, decide_eq_true_eq, decide_eq_true_eq]

theorem isAlpha_iff {c : Char} :
    c.isAlpha = true ↔ 65 ≤ c.toNat ∧ c.toNat ≤ 90 ∨ 97 ≤ c.toNat ∧ c.toNat ≤ 122 := by
  show (decide (c.val ≥ 'A'.val ∧ c.val ≤ 'Z'.val) || (decide (c.val ≥ 'a'.val) && decide (c.val ≤ 'z'.val))) = true ↔ _
  simp only [Bool.or_eq_true, Bool.and_eq_true, decide_eq_true_eq, ge_iff_le, UInt32.le_iff_toNat_le, Char.toNat]
  rfl

theorem isDigit_iff {c : Char} : c.isDigit = true ↔ 48 ≤ c.toNat ∧ c.toNat ≤ 57 := by
  simp only [Char.isDigit, Bool.and_eq_true, decide_eq_true_eq, ge_iff_le, UInt32.le_iff_toNat_le, Char.toNat]
  rfl

/-- `[0-9;?]` takes parameter bytes only. -/
theorem toNat_of_isParam {c : Char} (param : isParam c = true) : 0x30 ≤ c.toNat ∧ c.toNat ≤ 0x3f := by
  simp only [isParam, Bool.or_eq_true, decide_eq_true_eq, isDigit_iff] at param
  rcases param with (digit | rfl) | rfl
  · omega
  · decide
  · decide

/-- A byte of one of these ranges is not the ESC. -/
theorem ne_esc {c : Char} (high : 0x20 ≤ c.toNat) : c ≠ '\x1b' := by
  rintro rfl
  exact absurd high (by decide)

theorem isAlpha_eq_false {c : Char} (low : c.toNat ≤ 0x40) : c.isAlpha = false := by
  rw [Bool.eq_false_iff, ne_eq, isAlpha_iff]
  omega

/-! ### CSI sequences -/

theorem scan_stop {p : Char → Bool} {a rest : List Char} {d : Char} (all : ∀ c ∈ a, p c = true) (stop : p d = false) :
    (a ++ d :: rest).takeWhile p = a ∧ (a ++ d :: rest).dropWhile p = d :: rest := by
  rw [List.takeWhile_append_of_pos all, List.dropWhile_append_of_pos all, List.takeWhile_cons, List.dropWhile_cons, stop]
  simp

theorem isParam_eq_false {c : Char} (off : c.toNat ≤ 0x2f ∨ 0x40 ≤ c.toNat) : isParam c = false := by
  rw [Bool.eq_false_iff]
  intro param
  have range := toNat_of_isParam param
  omega

theorem charset_eq_none {c : Char} {text : List Char} (other : ¬ (c = '(' ∨ c = ')')) : charset (c :: text) = none := by
  cases text with
  | nil => rfl
  | cons d text => rw [charset, if_neg fun hit => other hit.1]

/-- The last alternative. -/
theorem afterEsc_eq_one {c : Char} {text : List Char} (noCsi : csi (c :: text) = none) (noOsc : osc (c :: text) = none)
    (noSet : charset (c :: text) = none) (inLine : c ≠ '\n') : afterEsc (c :: text) = some 1 := by
  rw [afterEsc, noCsi, noOsc, noSet, single, if_neg inLine]
  rfl

/-- Where the scan for parameters stops in an unknown sequence, there is no letter. -/
theorem no_letter {params intermediates rest : List Char} {final : Char} (ps : ∀ c ∈ params, isParamByte c = true)
    (is : ∀ c ∈ intermediates, isIntermediate c = true) (last : isFinal final = true)
    (unknown : ¬ ((∀ c ∈ params, isParam c = true) ∧ intermediates = [] ∧ final.isAlpha = true)) :
    ((params ++ intermediates ++ final :: rest).dropWhile isParam).head?.any Char.isAlpha = false := by
  cases stops : (params ++ intermediates).dropWhile isParam with
  | cons d more =>
    have member : d ∈ params ++ intermediates := by
      have inside : d ∈ (params ++ intermediates).dropWhile isParam := by rw [stops]; exact List.mem_cons_self
      exact (List.dropWhile_sublist isParam).subset inside
    have low : d.toNat ≤ 0x40 := by
      rcases List.mem_append.mp member with param | inter
      · have range := between_iff.mp (ps d param)
        omega
      · have range := between_iff.mp (is d inter)
        omega
    rw [List.dropWhile_append, stops]
    simp [isAlpha_eq_false low]
  | nil =>
    have all := List.dropWhile_eq_nil_iff.mp stops
    have range := between_iff.mp last
    rw [(scan_stop all (isParam_eq_false (.inr range.1))).2, List.head?_cons, Option.any_some, Bool.eq_false_iff]
    intro letter
    refine unknown ⟨fun c member => all c (List.mem_append_left _ member), ?_, letter⟩
    rw [List.eq_nil_iff_forall_not_mem]
    intro c member
    have low := between_iff.mp (is c member)
    have param := toNat_of_isParam (all c (List.mem_append_right _ member))
    omega

/-- Behind an ESC whose sequence is unknown, one character goes and the others stay. -/
theorem strip_unknown {c : Char} {body rest : List Char} (single : afterEsc (c :: (body ++ rest)) = some 1)
    (solid : '\x1b' ∉ body) : stripEscapes ('\x1b' :: (c :: body ++ rest)) = body ++ stripEscapes rest := by
  have found : escape '\x1b' ([c] ++ (body ++ rest)) = some [c].length := by
    rw [escape, if_pos rfl]
    exact single
  have step := stripEscapes_match found
  rw [stripEscapes_solid solid] at step
  exact step

/-- The end of a sequence holds no ESC. -/
theorem esc_not_mem_end {intermediates : List Char} {final : Char} (is : ∀ c ∈ intermediates, isIntermediate c = true)
    (high : 0x30 ≤ final.toNat) : '\x1b' ∉ intermediates ++ [final] := by
  intro member
  rcases List.mem_append.mp member with inter | last
  · exact ne_esc (between_iff.mp (is _ inter)).1 rfl
  · rw [← List.mem_singleton.mp last] at high
    exact ne_esc (by omega) rfl

/-- A control sequence, known or not. -/
theorem strip_csi {params intermediates rest : List Char} {final : Char} (ps : ∀ c ∈ params, isParamByte c = true)
    (is : ∀ c ∈ intermediates, isIntermediate c = true) (last : isFinal final = true) :
    stripEscapes ((Piece.csi params intermediates final).chars ++ rest) =
      (Piece.csi params intermediates final).left ++ stripEscapes rest := by
  have whole : (Piece.csi params intermediates final).chars ++ rest =
      '\x1b' :: ('[' :: (params ++ intermediates ++ [final]) ++ rest) := rfl
  rw [whole]
  by_cases known : (∀ c ∈ params, isParam c = true) ∧ intermediates = [] ∧ final.isAlpha = true
  · obtain ⟨all, rfl, letter⟩ := known
    have isKnown : (Piece.csi params [] final).Known = true := by
      simp only [Piece.Known, Bool.and_eq_true, List.all_eq_true]
      exact ⟨⟨all, rfl⟩, letter⟩
    rw [Piece.left, if_pos isKnown]
    apply stripEscapes_match
    have range := between_iff.mp last
    obtain ⟨taken, dropped⟩ := @scan_stop isParam params rest final all (isParam_eq_false (.inr range.1))
    have text : params ++ [] ++ [final] ++ rest = params ++ final :: rest := by simp
    rw [escape, if_pos rfl, afterEsc, List.cons_append, text, csi, taken, dropped, if_pos ⟨rfl, by simpa using letter⟩]
    simp
  · have isKnown : (Piece.csi params intermediates final).Known = false := by
      rw [Bool.eq_false_iff]
      simp only [Piece.Known, ne_eq, Bool.and_eq_true, List.all_eq_true, List.isEmpty_iff]
      rintro ⟨⟨all, none_⟩, letter⟩
      exact known ⟨all, none_, letter⟩
    rw [Piece.left, isKnown, if_neg Bool.false_ne_true]
    have text : params ++ intermediates ++ [final] ++ rest = params ++ intermediates ++ final :: rest := by simp
    apply strip_unknown
    · rw [text]
      refine afterEsc_eq_one ?_ rfl (charset_eq_none (by decide)) (by decide)
      rw [csi, if_neg fun hit => Bool.false_ne_true ((no_letter ps is last known).symm.trans hit.2)]
    · have high := between_iff.mp last
      rw [List.append_assoc]
      intro member
      rcases List.mem_append.mp member with param | end_
      · have range := between_iff.mp (ps _ param)
        exact ne_esc (by omega) rfl
      · exact esc_not_mem_end is (by omega) end_

/-! ### The other pieces -/

/-- An OSC string is one match, however it ends. -/
theorem strip_osc {content rest : List Char} {bell : Bool} (inside : ∀ c ∈ content, isTitle c = true) :
    stripEscapes ((Piece.osc content bell).chars ++ rest) = stripEscapes rest := by
  cases bell with
  | true =>
    have whole : (Piece.osc content true).chars ++ rest = '\x1b' :: (']' :: (content ++ ['\x07']) ++ rest) := rfl
    have text : content ++ ['\x07'] ++ rest = content ++ '\x07' :: rest := by simp
    obtain ⟨taken, dropped⟩ := @scan_stop isTitle content rest '\x07' inside (by decide)
    rw [whole]
    apply stripEscapes_match
    rw [escape, if_pos rfl, List.cons_append, text, afterEsc, csi, if_neg fun hit => absurd hit.1 (by decide), osc,
      if_neg (by decide), dropped, taken]
    simp
  | false =>
    have whole : (Piece.osc content false).chars ++ rest = '\x1b' :: (']' :: (content ++ ['\x1b', '\\']) ++ rest) := rfl
    have text : content ++ ['\x1b', '\\'] ++ rest = content ++ '\x1b' :: '\\' :: rest := by simp
    obtain ⟨taken, dropped⟩ := @scan_stop isTitle content ('\\' :: rest) '\x1b' inside (by decide)
    rw [whole]
    apply stripEscapes_match
    rw [escape, if_pos rfl, List.cons_append, text, afterEsc, csi, if_neg fun hit => absurd hit.1 (by decide), osc,
      if_neg (by decide), dropped, taken]
    simp

theorem isAlphanum_eq_false {c : Char} (low : c.toNat ≤ 0x2f) : c.isAlphanum = false := by
  rw [Bool.eq_false_iff, ne_eq, Char.isAlphanum, Bool.or_eq_true, isAlpha_iff, isDigit_iff]
  omega

/-- A designation, known or not. -/
theorem strip_designate {set final : Char} {intermediates rest : List Char} (sets : "$()*+-./".toList.contains set = true)
    (is : ∀ c ∈ intermediates, isIntermediate c = true) (last : isCharsetFinal final = true) :
    stripEscapes ((Piece.designate set intermediates final).chars ++ rest) =
      (Piece.designate set intermediates final).left ++ stripEscapes rest := by
  have listed : set ∈ "$()*+-./".toList := List.contains_iff_mem.mp sets
  have plain : set ≠ '[' ∧ set ≠ ']' ∧ set ≠ '\n' := by
    have each : ("$()*+-./".toList.all fun d => d ≠ '[' ∧ d ≠ ']' ∧ d ≠ '\n') = true := by decide
    exact of_decide_eq_true (List.all_eq_true.mp each set listed)
  have noCsi : ∀ text, csi (set :: text) = none := fun text => by rw [csi, if_neg fun hit => plain.1 hit.1]
  have noOsc : ∀ text, osc (set :: text) = none := fun text => by rw [osc, if_pos plain.2.1]
  have whole : (Piece.designate set intermediates final).chars ++ rest =
      '\x1b' :: (set :: (intermediates ++ [final]) ++ rest) := rfl
  rw [whole]
  by_cases known : (set = '(' ∨ set = ')') ∧ intermediates = [] ∧ final.isAlphanum = true
  · obtain ⟨which, rfl, letter⟩ := known
    have isKnown : (Piece.designate set [] final).Known = true := by
      simp only [Piece.Known, Bool.and_eq_true, Bool.or_eq_true, decide_eq_true_eq]
      exact ⟨⟨which, rfl⟩, letter⟩
    rw [Piece.left, if_pos isKnown]
    apply stripEscapes_match
    rw [escape, if_pos rfl, afterEsc]
    simp only [List.nil_append, List.cons_append, noCsi, noOsc, charset]
    rw [if_pos ⟨which, letter⟩]
    rfl
  · have isKnown : (Piece.designate set intermediates final).Known = false := by
      rw [Bool.eq_false_iff]
      simp only [Piece.Known, ne_eq, Bool.and_eq_true, Bool.or_eq_true, decide_eq_true_eq, List.isEmpty_iff]
      rintro ⟨⟨which, none_⟩, letter⟩
      exact known ⟨which, none_, letter⟩
    rw [Piece.left, isKnown, if_neg Bool.false_ne_true]
    have noSet : charset (set :: (intermediates ++ [final] ++ rest)) = none := by
      cases intermediates with
      | nil =>
        rw [List.nil_append, List.singleton_append, charset, if_neg fun hit => known ⟨hit.1, rfl, hit.2⟩]
      | cons d more =>
        have low := (between_iff.mp (is d List.mem_cons_self)).2
        rw [List.cons_append, List.cons_append, charset, isAlphanum_eq_false low, if_neg fun hit => Bool.false_ne_true hit.2]
    exact strip_unknown (afterEsc_eq_one (noCsi _) (noOsc _) noSet plain.2.2) (esc_not_mem_end is (between_iff.mp last).1)

/-- **A piece leaves what it leaves by itself**, whatever comes after it. -/
theorem strip_piece {p : Piece} (wellFormed : p.WellFormed = true) (rest : List Char) :
    stripEscapes (p.chars ++ rest) = p.left ++ stripEscapes rest := by
  cases p with
  | plain c =>
    simp only [Piece.WellFormed, Bool.and_eq_true, decide_eq_true_eq] at wellFormed
    exact stripEscapes_solid fun member => wellFormed.1 (List.mem_singleton.mp member).symm
  | csi params intermediates final =>
    simp only [Piece.WellFormed, Bool.and_eq_true, List.all_eq_true] at wellFormed
    exact strip_csi wellFormed.1.1 wellFormed.1.2 wellFormed.2
  | osc content bell =>
    simp only [Piece.WellFormed, List.all_eq_true] at wellFormed
    exact strip_osc wellFormed
  | designate set intermediates final =>
    simp only [Piece.WellFormed, Bool.and_eq_true, List.all_eq_true] at wellFormed
    exact strip_designate wellFormed.1.1 wellFormed.1.2 wellFormed.2

theorem stripEscapes_pieces {pieces : List Piece} (wellFormed : ∀ p ∈ pieces, p.WellFormed = true) :
    stripEscapes (pieces.flatMap Piece.chars) = pieces.flatMap Piece.left := by
  induction pieces with
  | nil => rfl
  | cons p pieces ih =>
    obtain ⟨first, later⟩ := List.forall_mem_cons.mp wellFormed
    rw [List.flatMap_cons, strip_piece first, ih later, List.flatMap_cons]

theorem ne_cr {c : Char} (high : 0x20 ≤ c.toNat) : c ≠ '\r' := by
  rintro rfl
  exact absurd high (by decide)

/-- No piece leaves a CR. -/
theorem cr_not_mem_left {p : Piece} (wellFormed : p.WellFormed = true) : '\r' ∉ p.left := by
  intro member
  unfold Piece.left at member
  split at member
  · cases p with
    | plain c =>
      simp only [Piece.WellFormed, Bool.and_eq_true, decide_eq_true_eq] at wellFormed
      exact wellFormed.2 (List.mem_singleton.mp member).symm
    | csi | osc | designate => cases member
  · cases p with
    | plain c => cases member
    | osc content bell => cases member
    | csi params intermediates final =>
      simp only [Piece.WellFormed, Bool.and_eq_true, List.all_eq_true] at wellFormed
      rcases List.mem_append.mp member with front | last
      · rcases List.mem_append.mp front with param | inter
        · have range := between_iff.mp (wellFormed.1.1 _ param)
          exact ne_cr (by omega) rfl
        · exact ne_cr (between_iff.mp (wellFormed.1.2 _ inter)).1 rfl
      · have range := between_iff.mp (List.mem_singleton.mp last ▸ wellFormed.2)
        exact ne_cr (by omega) rfl
    | designate set intermediates final =>
      simp only [Piece.WellFormed, Bool.and_eq_true, List.all_eq_true] at wellFormed
      rcases List.mem_append.mp member with inter | last
      · exact ne_cr (between_iff.mp (wellFormed.1.2 _ inter)).1 rfl
      · have range := between_iff.mp (List.mem_singleton.mp last ▸ wellFormed.2)
        exact ne_cr (by omega) rfl

theorem foldCrlf_of_no_cr {text : List Char} (none_ : '\r' ∉ text) : foldCrlf text = text := by
  induction text with
  | nil => rfl
  | cons c text ih =>
    obtain ⟨other, none_⟩ := not_or.mp (mt List.mem_cons.mpr none_)
    rw [foldCrlf.eq_2 c text fun _ cr _ => other cr.symm, ih none_]

theorem foldCr_of_no_cr {text : List Char} (none_ : '\r' ∉ text) : foldCr text = text := by
  refine Eq.trans (List.map_congr_left fun c member => if_neg ?_) (List.map_id text)
  rintro rfl
  exact none_ member

theorem left_of_known {p : Piece} (known : p.Known = true) : p.left = p.text := if_pos known

/-- An unknown sequence leaves more than it should. -/
theorem length_left_of_unknown {p : Piece} (unknown : p.Known = false) : p.text.length < p.left.length := by
  have off : ¬ p.Known = true := Bool.eq_false_iff.mp unknown
  cases p with
  | plain c => cases unknown
  | osc content bell => cases unknown
  | csi params intermediates final =>
    rw [Piece.left, if_neg off]
    change 0 < (params ++ intermediates ++ [final]).length
    rw [List.length_append]
    exact Nat.succ_pos _
  | designate set intermediates final =>
    rw [Piece.left, if_neg off]
    change 0 < (intermediates ++ [final]).length
    rw [List.length_append]
    exact Nat.succ_pos _

theorem length_text_le (pieces : List Piece) :
    (pieces.flatMap Piece.text).length ≤ (pieces.flatMap Piece.left).length ∧
      ((pieces.flatMap Piece.left).length = (pieces.flatMap Piece.text).length → ∀ p ∈ pieces, p.Known = true) := by
  induction pieces with
  | nil => exact ⟨Nat.le_refl _, fun _ p member => absurd member List.not_mem_nil⟩
  | cons p pieces ih =>
    obtain ⟨shorter, known⟩ := ih
    simp only [List.flatMap_cons, List.length_append, List.forall_mem_cons]
    cases here : p.Known with
    | true =>
      rw [left_of_known here]
      exact ⟨by omega, fun same => ⟨rfl, known (by omega)⟩⟩
    | false =>
      have longer := length_left_of_unknown here
      exact ⟨by omega, fun same => by omega⟩

/-- **Sequences are removed, and nothing else, exactly if** the expression knows all of
them. -/
theorem stripAnsi_pieces_iff {pieces : List Piece} (wellFormed : ∀ p ∈ pieces, p.WellFormed = true) :
    stripAnsi (pieces.flatMap Piece.chars) = pieces.flatMap Piece.text ↔ ∀ p ∈ pieces, p.Known = true := by
  have none_ : '\r' ∉ pieces.flatMap Piece.left := by
    intro member
    obtain ⟨p, inside, cr⟩ := List.mem_flatMap.mp member
    exact cr_not_mem_left (wellFormed p inside) cr
  rw [stripAnsi, stripEscapes_pieces wellFormed, foldCrlf_of_no_cr none_, foldCr_of_no_cr none_]
  constructor
  · exact fun same => (length_text_le pieces).2 (congrArg List.length same)
  · intro known
    exact List.flatMap_congr fun p member => left_of_known (known p member)

/-! ## What is left of the ESC characters -/

/-- An odd number of ESC characters stands at the end of a line or of the text. -/
def StrayEscape (text : List Char) : Prop :=
  ∃ before k after, text = before ++ List.replicate (2 * k + 1) '\x1b' ++ after ∧ before.getLast? ≠ some '\x1b' ∧
    (after = [] ∨ after.head? = some '\n')

/-- The same by a scan, which knows whether the number of ESC characters before it is odd. -/
def strays : Bool → List Char → Bool
  | odd, [] => odd
  | odd, c :: text => if c = '\x1b' then strays (!odd) text else (odd && c = '\n') || strays false text

/-- What a match takes behind the ESC and the character after it. -/
inductive Taken : List Char → Prop where
  | solid {m : List Char} (none_ : '\x1b' ∉ m) : Taken m
  /-- A title that `ESC \` ends. -/
  | title {front : List Char} (none_ : '\x1b' ∉ front) : Taken (front ++ ['\x1b', '\\'])

theorem esc_not_mem_takeWhile {p : Char → Bool} (stop : p '\x1b' = false) (text : List Char) :
    '\x1b' ∉ text.takeWhile p := by
  intro member
  have taken := List.mem_takeWhile_imp member
  rw [stop] at taken
  cases taken

theorem csi_taken {c : Char} {text : List Char} {n : Nat} (found : csi (c :: text) = some n) :
    c = '[' ∧ ∃ m b, text = m ++ b ∧ n = m.length + 1 ∧ Taken m := by
  rw [csi] at found
  obtain ⟨⟨opens, letter⟩, count⟩ := Option.ite_none_right_eq_some.mp found
  obtain ⟨d, here, isLetter⟩ := (Option.any_eq_true _ _).mp letter
  obtain ⟨rest, stop⟩ := List.head?_eq_some_iff.mp here
  refine ⟨opens, text.takeWhile isParam ++ [d], rest, ?_, ?_, .solid fun member => ?_⟩
  · rw [List.append_assoc, List.singleton_append, ← stop, List.takeWhile_append_dropWhile]
  · rw [← Option.some.inj count, List.length_append, List.length_singleton]
  · rcases List.mem_append.mp member with param | last
    · exact esc_not_mem_takeWhile (by decide) text param
    · rw [← List.mem_singleton.mp last] at isLetter
      exact absurd isLetter (by decide)

theorem osc_taken {c : Char} {text : List Char} {n : Nat} (found : osc (c :: text) = some n) :
    c = ']' ∧ ∃ m b, text = m ++ b ∧ n = m.length + 1 ∧ Taken m := by
  have title := esc_not_mem_takeWhile (p := isTitle) (by decide) text
  rw [osc] at found
  split at found
  · cases found
  rename_i opens
  refine ⟨by simpa using opens, ?_⟩
  split at found
  · cases found
  rename_i stop rest split_
  split_ifs at found with bell st
  · refine ⟨text.takeWhile isTitle ++ [stop], rest, ?_, ?_, .solid fun member => ?_⟩
    · rw [List.append_assoc, List.singleton_append, ← split_, List.takeWhile_append_dropWhile]
    · rw [← Option.some.inj found, List.length_append, List.length_singleton]
    · rcases List.mem_append.mp member with inside | last
      · exact title inside
      · rw [← List.mem_singleton.mp last] at bell
        exact absurd bell (by decide)
  · obtain ⟨rfl, back⟩ := st
    obtain ⟨more, rfl⟩ := List.head?_eq_some_iff.mp back
    refine ⟨text.takeWhile isTitle ++ ['\x1b', '\\'], more, ?_, ?_, .title title⟩
    · rw [List.append_assoc]
      change text = _ ++ '\x1b' :: '\\' :: more
      rw [← split_, List.takeWhile_append_dropWhile]
    · rw [← Option.some.inj found, List.length_append]
      rfl

theorem charset_taken {c : Char} {text : List Char} {n : Nat} (found : charset (c :: text) = some n) :
    (c = '(' ∨ c = ')') ∧ ∃ m b, text = m ++ b ∧ n = m.length + 1 ∧ Taken m := by
  cases text with
  | nil => cases found
  | cons d text =>
    rw [charset] at found
    obtain ⟨⟨opens, letter⟩, count⟩ := Option.ite_none_right_eq_some.mp found
    refine ⟨opens, [d], text, rfl, (Option.some.inj count).symm, .solid fun member => ?_⟩
    rw [← List.mem_singleton.mp member] at letter
    exact absurd letter (by decide)

/-- A match takes no more than one line end away, and never the first character of one. -/
theorem afterEsc_taken {c : Char} {text : List Char} {n : Nat} (found : afterEsc (c :: text) = some n) :
    c ≠ '\n' ∧ ∃ m b, text = m ++ b ∧ n = m.length + 1 ∧ Taken m := by
  rw [afterEsc] at found
  cases first : csi (c :: text) with
  | some count =>
    obtain ⟨opens, taken⟩ := csi_taken first
    rw [first] at found
    obtain rfl : count = n := Option.some.inj found
    exact ⟨by rw [opens]; decide, taken⟩
  | none =>
    cases second : osc (c :: text) with
    | some count =>
      obtain ⟨opens, taken⟩ := osc_taken second
      rw [first, second] at found
      obtain rfl : count = n := Option.some.inj found
      exact ⟨by rw [opens]; decide, taken⟩
    | none =>
      cases third : charset (c :: text) with
      | some count =>
        obtain ⟨opens, taken⟩ := charset_taken third
        rw [first, second, third] at found
        obtain rfl : count = n := Option.some.inj found
        exact ⟨by rcases opens with rfl | rfl <;> decide, taken⟩
      | none =>
        rw [first, second, third] at found
        change single (c :: text) = some n at found
        rw [single] at found
        obtain ⟨inLine, count⟩ := Option.ite_none_left_eq_some.mp found
        exact ⟨inLine, [], text, rfl, (Option.some.inj count).symm, .solid List.not_mem_nil⟩

theorem strays_solid {a : List Char} (solid : '\x1b' ∉ a) (b : List Char) : strays false (a ++ b) = strays false b := by
  induction a with
  | nil => rfl
  | cons c a ih =>
    obtain ⟨other, solid⟩ := not_or.mp (mt List.mem_cons.mpr solid)
    rw [List.cons_append, strays, if_neg (Ne.symm other), Bool.false_and, Bool.false_or, ih solid]

theorem strays_taken {m : List Char} (taken : Taken m) (b : List Char) : strays false (m ++ b) = strays false b := by
  cases taken with
  | solid none_ => exact strays_solid none_ b
  | title none_ =>
    rw [List.append_assoc, strays_solid none_]
    rfl

/-- Only a line end has no match behind an ESC. -/
theorem line_of_afterEsc_eq_none {c : Char} {text : List Char} (none_ : afterEsc (c :: text) = none) : c = '\n' := by
  by_contra inLine
  have hit : single (c :: text) = some 1 := if_neg inLine
  rw [afterEsc, hit] at none_
  generalize csi (c :: text) = first, osc (c :: text) = second, charset (c :: text) = third at none_
  cases first <;> cases second <;> cases third <;> cases none_

/-- The scan finds the ESC characters that are kept. -/
theorem esc_mem_stripEscapes_iff (text : List Char) : '\x1b' ∈ stripEscapes text ↔ strays false text = true := by
  -- induct on the length, as a match takes several characters at once
  induction count : text.length using Nat.strongRecOn generalizing text with
  | _ size ih =>
    cases text with
    | nil => simp [stripEscapes, stripFrom, strays]
    | cons c rest =>
      rw [List.length_cons] at count
      by_cases esc : c = '\x1b'
      · subst esc
        rw [strays, if_pos rfl, Bool.not_false]
        cases rest with
        | nil => decide
        | cons d text =>
          rw [List.length_cons] at count
          cases found : afterEsc (d :: text) with
          | none =>
            have line := line_of_afterEsc_eq_none found
            have kept : stripEscapes ('\x1b' :: d :: text) = '\x1b' :: stripEscapes (d :: text) := by
              rw [stripEscapes, stripFrom, escape, if_pos rfl, found]
              rfl
            rw [kept, strays, line]
            simp
          | some n =>
            obtain ⟨inLine, m, b, rfl, rfl, taken⟩ := afterEsc_taken found
            have stripped : stripEscapes ('\x1b' :: d :: (m ++ b)) = stripEscapes b := by
              rw [stripEscapes, stripFrom, escape, if_pos rfl, found]
              exact stripFrom_skip m b
            rw [stripped, ih b.length (by rw [List.length_append] at count; omega) b rfl, strays]
            by_cases again : d = '\x1b'
            · rw [if_pos again, Bool.not_true, strays_taken taken]
            · rw [if_neg again, strays_taken taken]
              simp [inLine]
      · rw [strays, if_neg esc, Bool.false_and, Bool.false_or, ← ih rest.length (by omega) rest rfl]
        have kept : stripEscapes (c :: rest) = c :: stripEscapes rest := by
          rw [stripEscapes, stripFrom, escape, if_neg esc]
          rfl
        rw [kept, List.mem_cons]
        exact or_iff_right fun same => esc same.symm

/-! ### The scan and the runs of ESC characters -/

theorem getLast?_cons_ne_iff {c : Char} (other : c ≠ '\x1b') {b : List Char} :
    (c :: b).getLast? ≠ some '\x1b' ↔ b.getLast? ≠ some '\x1b' := by
  rw [List.getLast?_cons]
  cases b.getLast? <;> simp [other]

theorem replicate_odd (k : Nat) : List.replicate (2 * k + 1) '\x1b' = '\x1b' :: List.replicate (2 * k) '\x1b' :=
  List.replicate_succ

theorem strayEscape_cons {c : Char} (other : c ≠ '\x1b') (text : List Char) :
    StrayEscape (c :: text) ↔ StrayEscape text := by
  constructor
  · rintro ⟨before, k, after, whole, last, ends⟩
    cases before with
    | nil =>
      rw [List.nil_append, replicate_odd] at whole
      exact absurd (List.cons.inj whole).1 other
    | cons d before =>
      obtain ⟨rfl, rest⟩ := List.cons.inj whole
      exact ⟨before, k, after, rest, (getLast?_cons_ne_iff other).mp last, ends⟩
  · rintro ⟨before, k, after, rfl, last, ends⟩
    exact ⟨c :: before, k, after, rfl, (getLast?_cons_ne_iff other).mpr last, ends⟩

/-- A run that is stray begins with the first ESC, or behind the second character. -/
theorem StrayEscape.cases {c : Char} {text : List Char} (stray : StrayEscape ('\x1b' :: c :: text)) :
    (∃ k after, c :: text = List.replicate (2 * k) '\x1b' ++ after ∧ (after = [] ∨ after.head? = some '\n')) ∨
      ∃ before k after, text = before ++ List.replicate (2 * k + 1) '\x1b' ++ after ∧
        (c :: before).getLast? ≠ some '\x1b' ∧ (after = [] ∨ after.head? = some '\n') := by
  obtain ⟨before, k, after, whole, last, ends⟩ := stray
  cases before with
  | nil =>
    rw [List.nil_append, replicate_odd] at whole
    exact .inl ⟨k, after, (List.cons.inj whole).2, ends⟩
  | cons d before =>
    obtain ⟨rfl, rest⟩ := List.cons.inj whole
    cases before with
    | nil => exact absurd rfl last
    | cons e before =>
      obtain ⟨rfl, later⟩ := List.cons.inj rest
      rw [List.getLast?_cons_cons] at last
      exact .inr ⟨before, k, after, later, last, ends⟩

/-- An ESC before another character is stray before a line end only. -/
theorem strayEscape_esc_cons {c : Char} (other : c ≠ '\x1b') (text : List Char) :
    StrayEscape ('\x1b' :: c :: text) ↔ c = '\n' ∨ StrayEscape text := by
  constructor
  · intro stray
    obtain ⟨k, after, rest, ends⟩ | ⟨before, k, after, later, last, ends⟩ := stray.cases
    · cases k with
      | zero =>
        left
        change c :: text = after at rest
        rw [← rest] at ends
        simpa using ends
      | succ k => exact absurd (List.cons.inj (show c :: text = '\x1b' :: _ from rest)).1 other
    · exact .inr ⟨before, k, after, later, (getLast?_cons_ne_iff other).mp last, ends⟩
  · rintro (rfl | ⟨before, k, after, rfl, last, ends⟩)
    · exact ⟨[], 0, '\n' :: text, rfl, by simp, .inr rfl⟩
    · refine ⟨'\x1b' :: c :: before, k, after, rfl, ?_, ends⟩
      rwa [List.getLast?_cons_cons, getLast?_cons_ne_iff other]

/-- Two ESC characters make no difference. -/
theorem strayEscape_pair (text : List Char) : StrayEscape ('\x1b' :: '\x1b' :: text) ↔ StrayEscape text := by
  constructor
  · intro stray
    obtain ⟨k, after, rest, ends⟩ | ⟨before, k, after, later, last, ends⟩ := stray.cases
    · cases k with
      | zero =>
        change '\x1b' :: text = after at rest
        rw [← rest] at ends
        simp at ends
      | succ k =>
        exact ⟨[], k, after, (List.cons.inj (show '\x1b' :: text = '\x1b' :: (List.replicate (2 * k + 1) '\x1b' ++ after)
          from rest)).2, by simp, ends⟩
    · refine ⟨before, k, after, later, fun same => last ?_, ends⟩
      rw [List.getLast?_cons, same]
      rfl
  · rintro ⟨before, k, after, rfl, last, ends⟩
    cases before with
    | nil => exact ⟨[], k + 1, after, rfl, by simp, ends⟩
    | cons d before =>
      refine ⟨'\x1b' :: '\x1b' :: d :: before, k, after, rfl, ?_, ends⟩
      rwa [List.getLast?_cons_cons, List.getLast?_cons_cons]

theorem strays_iff (odd : Bool) (text : List Char) :
    strays odd text = true ↔ StrayEscape (List.replicate odd.toNat '\x1b' ++ text) := by
  induction text generalizing odd with
  | nil =>
    cases odd with
    | true => exact iff_of_true rfl ⟨[], 0, [], rfl, by simp, .inl rfl⟩
    | false =>
      refine iff_of_false Bool.false_ne_true ?_
      rintro ⟨before, k, after, whole, -⟩
      simp [replicate_odd] at whole
  | cons c text ih =>
    rw [strays]
    by_cases esc : c = '\x1b'
    · rw [if_pos esc, ih, esc]
      cases odd with
      | false => exact Iff.rfl
      | true => exact (strayEscape_pair text).symm
    · rw [if_neg esc, Bool.or_eq_true, ih]
      cases odd with
      | false =>
        refine Iff.trans ?_ (strayEscape_cons esc text).symm
        simp
      | true =>
        refine Iff.trans ?_ (strayEscape_esc_cons esc text).symm
        simp

theorem mem_foldCrlf_iff {c : Char} (other : c ≠ '\r') (lf : c ≠ '\n') (text : List Char) :
    c ∈ foldCrlf text ↔ c ∈ text := by
  induction text using foldCrlf.induct with
  | case1 text ih =>
    rw [foldCrlf, List.mem_cons, ih, List.mem_cons, List.mem_cons]
    simp [other, lf]
  | case2 d text apart ih => rw [foldCrlf.eq_2 d text apart, List.mem_cons, ih, List.mem_cons]
  | case3 => exact Iff.rfl

theorem mem_foldCr_iff {c : Char} (other : c ≠ '\r') (lf : c ≠ '\n') (text : List Char) : c ∈ foldCr text ↔ c ∈ text := by
  rw [foldCr, List.mem_map]
  constructor
  · rintro ⟨d, member, same⟩
    split at same
    · exact absurd same.symm lf
    · exact same ▸ member
  · exact fun member => ⟨c, member, if_neg other⟩

/-- **An ESC is left exactly if** an odd number of them stands at the end of a line or of
the text. -/
theorem esc_mem_stripAnsi_iff (text : List Char) : '\x1b' ∈ stripAnsi text ↔ StrayEscape text := by
  rw [stripAnsi, mem_foldCr_iff (by decide) (by decide), mem_foldCrlf_iff (by decide) (by decide),
    esc_mem_stripEscapes_iff, strays_iff]
  exact Iff.rfl

/-- **No CR is left.** -/
theorem cr_not_mem_stripAnsi (text : List Char) : '\r' ∉ stripAnsi text := by
  rw [stripAnsi, foldCr, List.mem_map]
  rintro ⟨c, -, same⟩
  split at same
  · exact absurd same (by decide)
  · rename_i other
    exact other same

/-! ## Plain text -/

/-- What is left of a text is plain, and of pieces it is their text. -/
def YieldsPlain (text : List Char) (pieces : List Piece) : Prop :=
  '\x1b' ∉ stripAnsi text ∧ '\r' ∉ stripAnsi text ∧
    stripAnsi (pieces.flatMap Piece.chars) = pieces.flatMap Piece.text

/-- **`strip_ansi` yields plain text exactly if** no line ends with an odd number of ESC
characters, and every control sequence is one that its expression knows. -/
theorem yieldsPlain_iff (text : List Char) (pieces : List Piece) (wellFormed : ∀ p ∈ pieces, p.WellFormed = true) :
    YieldsPlain text pieces ↔ ¬ StrayEscape text ∧ ∀ p ∈ pieces, p.Known = true := by
  rw [YieldsPlain, esc_mem_stripAnsi_iff, stripAnsi_pieces_iff wellFormed]
  constructor
  · exact fun ⟨esc, _, known⟩ => ⟨esc, known⟩
  · exact fun ⟨esc, known⟩ => ⟨esc, cr_not_mem_stripAnsi text, known⟩

/-- A colour, a title and a character set around a word. -/
theorem yieldsPlain_colour : YieldsPlain "\x1b[31mred\r\n".toList
    [.csi ['3', '1'] [] 'm', .plain 'h', .osc ['t'] false, .plain 'i', .designate '(' [] 'B'] := by
  refine (yieldsPlain_iff _ _ (by decide)).mpr ⟨?_, by decide⟩
  intro stray
  have scanned := (strays_iff false _).mpr stray
  exact absurd scanned (by decide)

/-- Of the sequence of a function key, two characters are left. -/
theorem tilde_left : ¬ ∀ (text : List Char) (pieces : List Piece), (∀ p ∈ pieces, p.WellFormed = true) →
    YieldsPlain text pieces := by
  intro yields
  have plain := yields [] [.plain 'a', .csi ['3'] [] '~'] (by decide)
  exact absurd plain.2.2 (by decide)

end McpSsh.Ansi
