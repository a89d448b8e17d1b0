import Mathlib.Data.List.Basic
import Mathlib.Data.List.Infix
import Mathlib.Data.List.TakeWhile

/-!
# Lines and words of a text

A text is a list of characters. Lines end at newlines and carriage returns, words
are separated by white space; both are what a reader sees who skips blank lines.
-/

set_option autoImplicit false

namespace McpSsh.Base

/-- The characters that end a line; `\r\n` leaves an empty line behind, which a
reader that skips blank lines does not see. -/
def isLineEnd (c : Char) : Bool := c = '\n' || c = '\r'

/-- Unicode white space. -/
def isSpace (c : Char) : Bool :=
  ('\t' ≤ c && c ≤ '\r') || ('\x1c' ≤ c && c ≤ ' ') || c = '\u0085' || c = '\u00a0' || c = '\u1680' ||
    ('\u2000' ≤ c && c ≤ '\u200a') || c = '\u2028' || c = '\u2029' || c = '\u202f' || c = '\u205f' || c = '\u3000'

/-- The lines of a text, without their ends. -/
def lines (text : List Char) : List (List Char) := text.splitOnP isLineEnd

/-- The characters that end a line of `str.splitlines`. -/
def isLineBoundary (c : Char) : Bool :=
  ('\n' ≤ c && c ≤ '\r') || ('\x1c' ≤ c && c ≤ '\x1e') || c = '\u0085' || c = '\u2028' || c = '\u2029'

/-- `str.splitlines` behind the start of a line, which is given in reverse. -/
def splitlinesFrom (line : List Char) : List Char → List (List Char)
  | [] => if line.isEmpty then [] else [line.reverse]
  | '\r' :: '\n' :: rest => line.reverse :: splitlinesFrom [] rest
  | c :: rest => if isLineBoundary c then line.reverse :: splitlinesFrom [] rest else splitlinesFrom (c :: line) rest

/-- `str.splitlines`. -/
def splitlines (text : List Char) : List (List Char) := splitlinesFrom [] text

/-- `re.split` at the longest runs of separators. -/
def splitRuns (separates : Char → Bool) : List Char → List (List Char)
  | [] => [[]]
  | c :: rest =>
    if separates c then
      if rest.head?.any separates then splitRuns separates rest else [] :: splitRuns separates rest
    else (splitRuns separates rest).modifyHead (c :: ·)

/-- The words of a text. -/
def words (text : List Char) : List (List Char) := (text.splitOnP isSpace).filter fun w => !w.isEmpty

/-- The text without the white space around it. -/
def strip (text : List Char) : List Char := ((text.dropWhile isSpace).reverse.dropWhile isSpace).reverse

/-- The lower case of a character, as far as an ASCII letter comes out of it. -/
def lowerChar (c : Char) : List Char :=
  if c = '\u212a' then ['k'] else if c = '\u0130' then ['i', '\u0307'] else [c.toLower]

/-- `str.lower`. -/
def lowerText (text : List Char) : List Char := text.flatMap lowerChar

/-- Only white space. -/
def Blank (text : List Char) : Prop := ∀ c ∈ text, isSpace c = true

/-- A nonempty text without white space. -/
structure Word (w : List Char) : Prop where
  nonempty : w ≠ []
  solid : ∀ c ∈ w, isSpace c = false

theorem Word.of_all {w : List Char} (nonempty : w ≠ []) (visible : (w.all fun c => !isSpace c) = true) : Word w :=
  ⟨nonempty, fun c member => by simpa using List.all_eq_true.mp visible c member⟩

theorem isSpace_of_isLineEnd {c : Char} (ends : isLineEnd c = true) : isSpace c = true := by
  simp only [isLineEnd, Bool.or_eq_true, decide_eq_true_eq] at ends
  rcases ends with rfl | rfl <;> decide

/-! ## ASCII characters -/

/-- `n` characters from the one with this code on. -/
def charsFrom (code n : Nat) : List Char := (List.range' code n).map Char.ofNat

theorem mem_charsFrom {c : Char} {code n : Nat} (low : code ≤ c.toNat) (high : c.toNat < code + n) : c ∈ charsFrom code n :=
  List.mem_map.mpr ⟨c.toNat, List.mem_range'_1.mpr ⟨low, high⟩, Char.ofNat_toNat c⟩

theorem mem_digits {c : Char} (digit : c.isDigit = true) : c ∈ charsFrom 48 10 := by
  simp only [Char.isDigit, Bool.and_eq_true, decide_eq_true_eq, UInt32.le_iff_toNat_le, ge_iff_le] at digit
  have codes : '0'.val.toNat = 48 ∧ '9'.val.toNat = 57 := by decide
  apply mem_charsFrom <;> simp only [Char.toNat] <;> omega

theorem mem_uppers {c : Char} (upper : c.isUpper = true) : c ∈ charsFrom 65 26 := by
  have bounds : 'A'.val ≤ c.val ∧ c.val ≤ 'Z'.val := of_decide_eq_true upper
  simp only [UInt32.le_iff_toNat_le] at bounds
  have codes : 'A'.val.toNat = 65 ∧ 'Z'.val.toNat = 90 := by decide
  apply mem_charsFrom <;> simp only [Char.toNat] <;> omega

theorem mem_lowers {c : Char} (lower : c.isLower = true) : c ∈ charsFrom 97 26 := by
  have bounds : (decide (c.val ≥ 'a'.val) && decide (c.val ≤ 'z'.val)) = true := lower
  simp only [Bool.and_eq_true, decide_eq_true_eq, UInt32.le_iff_toNat_le, ge_iff_le] at bounds
  have codes : 'a'.val.toNat = 97 ∧ 'z'.val.toNat = 122 := by decide
  apply mem_charsFrom <;> simp only [Char.toNat] <;> omega

/-- What holds of the letters and digits of ASCII. -/
theorem of_isAlphanum {p : Char → Bool} (uppers : (charsFrom 65 26).all p = true) (lowers : (charsFrom 97 26).all p = true)
    (digits : (charsFrom 48 10).all p = true) {c : Char} (alphanum : c.isAlphanum = true) : p c = true := by
  have kinds : (c.isUpper || c.isLower || c.isDigit) = true := alphanum
  rw [Bool.or_eq_true, Bool.or_eq_true] at kinds
  rcases kinds with (upper | lower) | digit
  · exact List.all_eq_true.mp uppers c (mem_uppers upper)
  · exact List.all_eq_true.mp lowers c (mem_lowers lower)
  · exact List.all_eq_true.mp digits c (mem_digits digit)

theorem toString_nat_inj {m n : Nat} (same : toString m = toString n) : m = n := by
  have digits : Nat.toDigits 10 m = Nat.toDigits 10 n := by
    have lists := congrArg String.toList same
    simpa [Nat.toString_eq_ofList_toDigits] using lists
  have values := congrArg (fun ds => Nat.ofDigitChars 10 ds 0) digits
  simpa using values

theorem mem_intercalate {sep piece : List Char} {pieces : List (List Char)} (member : piece ∈ pieces) {c : Char}
    (inside : c ∈ piece) : c ∈ sep.intercalate pieces := by
  induction pieces with
  | nil => cases member
  | cons first pieces ih =>
    rcases List.mem_cons.mp member with rfl | later
    · cases pieces with
      | nil => simpa using inside
      | cons second pieces =>
        rw [List.intercalate_cons_cons, List.append_assoc]
        exact List.mem_append_left _ inside
    · rw [List.intercalate_cons_of_ne_nil (List.ne_nil_of_mem later), List.append_assoc]
      exact List.mem_append_right _ (List.mem_append_right _ (ih later))

theorem of_mem_intercalate {sep : List Char} {pieces : List (List Char)} {c : Char} (inside : c ∈ sep.intercalate pieces) :
    c ∈ sep ∨ ∃ piece ∈ pieces, c ∈ piece := by
  induction pieces with
  | nil => cases inside
  | cons first pieces ih =>
    cases pieces with
    | nil => exact .inr ⟨first, by simp, by simpa using inside⟩
    | cons second pieces =>
      rw [List.intercalate_cons_cons, List.mem_append, List.mem_append] at inside
      rcases inside with (front | between) | later
      · exact .inr ⟨first, by simp, front⟩
      · exact .inl between
      · rcases ih later with between | ⟨piece, listed, here⟩
        · exact .inl between
        · exact .inr ⟨piece, List.mem_cons_of_mem _ listed, here⟩

/-! ## Splitting -/

section

variable {α : Type} {p : α → Bool}

/-- No piece holds a separator. -/
theorem not_mem_of_mem_splitOnP {text piece : List α} (member : piece ∈ text.splitOnP p) :
    ∀ c ∈ piece, p c = false := by
  induction text generalizing piece with
  | nil =>
    simp only [List.splitOnP_nil, List.mem_singleton] at member
    simp [member]
  | cons c text ih =>
    rw [List.splitOnP_cons_eq_if_modifyHead] at member
    split at member
    · rcases List.mem_cons.mp member with rfl | later
      · simp
      · exact ih later
    · rename_i inside
      obtain ⟨first, rest, pieces⟩ := List.exists_cons_of_ne_nil (List.splitOnP_ne_nil p text)
      rw [pieces, List.modifyHead_cons] at member
      rcases List.mem_cons.mp member with rfl | later
      · intro d inPiece
        rcases List.mem_cons.mp inPiece with rfl | inFirst
        · simpa using inside
        · exact ih (pieces ▸ List.mem_cons_self) d inFirst
      · exact ih (pieces ▸ List.mem_cons_of_mem _ later)

/-- A text is its first piece, or that and a separator and a text. -/
theorem first_piece {text first : List α} {pieces : List (List α)} (split : text.splitOnP p = first :: pieces) :
    text = first ∨ ∃ sep rest, p sep = true ∧ text = first ++ sep :: rest := by
  induction text generalizing first pieces with
  | nil =>
    rw [List.splitOnP_nil] at split
    exact .inl (List.cons.inj split).1
  | cons c text ih =>
    rw [List.splitOnP_cons_eq_if_modifyHead] at split
    cases inside : p c with
    | true =>
      rw [if_pos inside] at split
      exact .inr ⟨c, text, inside, by rw [← (List.cons.inj split).1, List.nil_append]⟩
    | false =>
      obtain ⟨head, others, pieces'⟩ := List.exists_cons_of_ne_nil (List.splitOnP_ne_nil p text)
      rw [if_neg (by simp [inside]), pieces', List.modifyHead_cons] at split
      obtain ⟨rfl, -⟩ := List.cons.inj split
      rcases ih pieces' with whole | ⟨sep, rest, ends, whole⟩
      · exact .inl (by rw [← whole])
      · exact .inr ⟨sep, rest, ends, by rw [List.cons_append, ← whole]⟩

/-- Taking characters that do not separate off the front takes them off the first piece. -/
theorem splitOnP_dropWhile {q : α → Bool} (apart : ∀ c, q c = true → p c = false) (text : List α) :
    (text.dropWhile q).splitOnP p = (text.splitOnP p).modifyHead (List.dropWhile q) := by
  induction text with
  | nil => simp
  | cons c text ih =>
    obtain ⟨first, pieces, split⟩ := List.exists_cons_of_ne_nil (List.splitOnP_ne_nil p text)
    rw [split, List.modifyHead_cons] at ih
    cases drops : q c with
    | true =>
      rw [List.dropWhile_cons_of_pos drops, List.splitOnP_cons_eq_if_modifyHead, if_neg (by simp [apart c drops]),
        split, ih, List.modifyHead_cons, List.modifyHead_cons, List.dropWhile_cons_of_pos drops]
    | false =>
      rw [List.dropWhile_cons_of_neg (by simp [drops]), List.splitOnP_cons_eq_if_modifyHead, split]
      split_ifs
      · simp
      · simp [drops]

/-- A text is its last piece, or a text, a separator and its last piece. -/
theorem last_piece (text : List α) :
    ∃ tail, (∀ c ∈ tail, p c = false) ∧
      (text = tail ∨ ∃ front sep, p sep = true ∧ text = front ++ sep :: tail) := by
  induction text with
  | nil => exact ⟨[], by simp, .inl rfl⟩
  | cons c text ih =>
    obtain ⟨tail, solid, rfl | ⟨front, sep, ends, rfl⟩⟩ := ih
    · cases inside : p c with
      | true => exact ⟨text, solid, .inr ⟨[], c, inside, rfl⟩⟩
      | false => exact ⟨c :: text, by simpa [inside] using solid, .inl rfl⟩
    · exact ⟨tail, solid, .inr ⟨c :: front, sep, ends, rfl⟩⟩

end

/-! ## Words -/

theorem words_append_cons (a b : List Char) {sep : Char} (space : isSpace sep = true) :
    words (a ++ sep :: b) = words a ++ words b := by
  simp [words, List.splitOnP_append_cons a b space]

theorem words_word {w : List Char} (word : Word w) : words w = [w] := by
  rw [words, List.splitOnP_eq_singleton word.solid]
  simp [word.nonempty]

theorem mem_words {text w : List Char} (member : w ∈ words text) : Word w := by
  simp only [words, List.mem_filter, Bool.not_eq_true', List.isEmpty_eq_false_iff] at member
  exact ⟨member.2, not_mem_of_mem_splitOnP member.1⟩

theorem words_nil : words [] = [] := rfl

/-- White space in front of a text makes no difference. -/
theorem words_blank_append {blank : List Char} (spaces : Blank blank) (text : List Char) :
    words (blank ++ text) = words text := by
  induction blank with
  | nil => rfl
  | cons c blank ih =>
    have space := spaces c (by simp)
    rw [List.cons_append, ← List.nil_append (c :: (blank ++ text)), words_append_cons _ _ space, words_nil,
      List.nil_append, ih fun d member => spaces d (by simp [member])]

theorem words_blank {blank : List Char} (spaces : Blank blank) : words blank = [] := by
  simpa [words_nil] using words_blank_append spaces []

theorem words_dropWhile (text : List Char) : words (text.dropWhile isSpace) = words text := by
  conv_rhs => rw [← List.takeWhile_append_dropWhile (p := isSpace) (l := text)]
  exact (words_blank_append (fun c => List.mem_takeWhile_imp) _).symm

/-- White space behind the first word. -/
theorem words_cons_of_not_blank {text : List Char} (visible : ¬ Blank text) :
    ∃ blank c rest, Blank blank ∧ isSpace c = false ∧ text = blank ++ c :: rest := by
  induction text with
  | nil => exact absurd (by simp [Blank]) visible
  | cons c text ih =>
    cases space : isSpace c with
    | false => exact ⟨[], c, text, by simp [Blank], space, rfl⟩
    | true =>
      have rest : ¬ Blank text := fun blank => visible (by simpa [Blank, space] using blank)
      obtain ⟨blank, d, tail, spaces, solid, rfl⟩ := ih rest
      exact ⟨c :: blank, d, tail, by simpa [Blank, space] using spaces, solid, rfl⟩

/-- The first word starts with the first visible character. -/
theorem head_words {c : Char} (solid : isSpace c = false) (text : List Char) :
    ∃ w ws, words (c :: text) = (c :: w) :: ws := by
  obtain ⟨first, rest, pieces⟩ := List.exists_cons_of_ne_nil (List.splitOnP_ne_nil isSpace text)
  refine ⟨first, rest.filter fun w => !w.isEmpty, ?_⟩
  rw [words, List.splitOnP_cons_eq_if_modifyHead, if_neg (by simp [solid]), pieces]
  simp

theorem flatten_splitOnP {α : Type} {p : α → Bool} (text : List α) :
    (text.splitOnP p).flatten = text.filter fun c => !p c := by
  induction text with
  | nil => simp
  | cons c text ih =>
    obtain ⟨first, rest, pieces⟩ := List.exists_cons_of_ne_nil (List.splitOnP_ne_nil p text)
    rw [List.splitOnP_cons_eq_if_modifyHead]
    cases inside : p c with
    | true => simpa [inside] using ih
    | false =>
      rw [pieces] at ih ⊢
      simpa [inside] using ih

/-- A piece is cut out of the text. -/
theorem mem_of_mem_splitOnP {α : Type} {p : α → Bool} {text piece : List α} (listed : piece ∈ text.splitOnP p) {c : α}
    (inside : c ∈ piece) : c ∈ text := by
  have kept : c ∈ (text.splitOnP p).flatten := List.mem_flatten.mpr ⟨piece, listed, inside⟩
  rw [flatten_splitOnP] at kept
  exact List.mem_of_mem_filter kept

/-- What is no separator is in a piece. -/
theorem exists_mem_splitOnP {α : Type} {p : α → Bool} {text : List α} {c : α} (member : c ∈ text) (inside : p c = false) :
    ∃ piece ∈ text.splitOnP p, c ∈ piece := by
  have kept : c ∈ (text.splitOnP p).flatten := by
    rw [flatten_splitOnP]
    simp [member, inside]
  exact List.mem_flatten.mp kept

/-- The first word goes up to the first white space. -/
theorem words_of_visible {text : List Char} (first : ∀ c ∈ text.head?, isSpace c = false) (nonempty : text ≠ []) :
    words text = (text.takeWhile fun c => !isSpace c) :: words (text.dropWhile fun c => !isSpace c) := by
  have word : Word (text.takeWhile fun c => !isSpace c) := by
    constructor
    · cases text with
      | nil => exact absurd rfl nonempty
      | cons c text => simp [first c rfl]
    · intro c inside
      simpa using List.mem_takeWhile_imp inside
  conv_lhs => rw [← List.takeWhile_append_dropWhile (p := fun c => !isSpace c) (l := text)]
  cases behind : text.dropWhile fun c => !isSpace c with
  | nil => rw [List.append_nil, words_word word, words_nil]
  | cons c rest =>
    have space : isSpace c = true := by
      have ends := List.head?_dropWhile_not (fun c => !isSpace c) text
      rw [behind] at ends
      simpa using ends
    rw [words_append_cons _ _ space, words_word word, ← List.nil_append (c :: rest), words_append_cons _ _ space, words_nil]
    rfl

/-- The words hold every visible character. -/
theorem flatten_words (text : List Char) : (words text).flatten = text.filter fun c => !isSpace c := by
  rw [words, List.flatten_filter_not_isEmpty, flatten_splitOnP]

/-- Pieces with something in them are no more than the characters of all. -/
theorem length_le_flatten {α : Type} {pieces : List (List α)} :
    (pieces.filter fun piece => !piece.isEmpty).length ≤ pieces.flatten.length := by
  induction pieces with
  | nil => exact Nat.le_refl 0
  | cons piece rest ih =>
    cases piece with
    | nil => exact ih
    | cons c piece =>
      rw [List.filter_cons_of_pos rfl, List.length_cons, List.flatten_cons, List.length_append, List.length_cons]
      omega

theorem length_words_le (text : List Char) : (words text).length ≤ text.length := by
  refine length_le_flatten.trans ?_
  rw [flatten_splitOnP]
  exact List.length_filter_le _ _

theorem strip_blank {text : List Char} (blank : Blank text) : strip text = [] := by
  rw [strip, List.dropWhile_eq_nil_iff.mpr blank]
  rfl

/-- Stripping stops at the first visible character. -/
theorem strip_visible {blank : List Char} (spaces : Blank blank) {c : Char} (solid : isSpace c = false)
    (rest : List Char) : ∃ tail, strip (blank ++ c :: rest) = c :: tail := by
  have front : (blank ++ c :: rest).dropWhile isSpace = c :: rest := by
    rw [List.dropWhile_append_of_pos spaces, List.dropWhile_cons_of_neg (by simp [solid])]
  rw [strip, front, List.reverse_cons, List.dropWhile_append]
  split
  · exact ⟨[], by simp [solid]⟩
  · exact ⟨(rest.reverse.dropWhile isSpace).reverse, by simp⟩

theorem words_append_blank (blank : List Char) (spaces : Blank blank) (text : List Char) :
    words (text ++ blank) = words text := by
  cases blank with
  | nil => rw [List.append_nil]
  | cons c blank =>
    have rest : Blank blank := fun d member => spaces d (by simp [member])
    rw [words_append_cons _ _ (spaces c (by simp)), words_blank rest, List.append_nil]

/-- Nothing is stripped off a text between visible characters. -/
theorem strip_solid {text : List Char} (first : ∀ c ∈ text.head?, isSpace c = false)
    (last : ∀ c ∈ text.getLast?, isSpace c = false) : strip text = text := by
  have front : text.dropWhile isSpace = text := by
    cases text with
    | nil => rfl
    | cons c text => rw [List.dropWhile_cons_of_neg (by simp [first c rfl])]
  rw [strip, front]
  cases backwards : text.reverse with
  | nil => simpa using backwards.symm
  | cons c rest =>
    have solid := last c (by rw [List.getLast?_eq_head?_reverse, backwards]; rfl)
    rw [List.dropWhile_cons_of_neg (by simp [solid]), ← backwards, List.reverse_reverse]

/-- Behind a text between visible characters stripping takes the end of what follows. -/
theorem strip_append {text : List Char} (nonempty : text ≠ []) (first : ∀ c ∈ text.head?, isSpace c = false)
    (last : ∀ c ∈ text.getLast?, isSpace c = false) (tail : List Char) :
    ∃ kept, strip (text ++ tail) = text ++ kept ∧ kept <+: tail := by
  refine ⟨(tail.reverse.dropWhile isSpace).reverse, ?_, ?_⟩
  · have front : (text ++ tail).dropWhile isSpace = text ++ tail := by
      obtain ⟨c, rest, rfl⟩ := List.exists_cons_of_ne_nil nonempty
      rw [List.cons_append, List.dropWhile_cons_of_neg (by simp [first c rfl])]
    have back : text.reverse.dropWhile isSpace = text.reverse := by
      cases backwards : text.reverse with
      | nil => rfl
      | cons c rest =>
        have solid := last c (by rw [List.getLast?_eq_head?_reverse, backwards]; rfl)
        rw [List.dropWhile_cons_of_neg (by simp [solid])]
    rw [strip, front, List.reverse_append, List.dropWhile_append, back]
    split
    · rename_i blank
      simp [List.isEmpty_iff.mp blank]
    · simp
  · rw [← List.reverse_suffix, List.reverse_reverse]
    exact List.dropWhile_suffix _

theorem strip_visibles {text : List Char} (visible : ∀ c ∈ text, isSpace c = false) : strip text = text :=
  strip_solid (fun c head => visible c (List.mem_of_head? head)) fun c last => visible c (List.mem_of_getLast? last)

/-- A stripped text begins with a visible character. -/
theorem head_strip {text : List Char} : ∀ c ∈ (strip text).head?, isSpace c = false := by
  intro c head
  -- what is stripped off the end leaves the first character
  have front : strip text <+: text.dropWhile isSpace := by
    rw [← List.reverse_suffix, strip, List.reverse_reverse]
    exact List.dropWhile_suffix _
  obtain ⟨tail, whole⟩ := front
  have first := List.head?_dropWhile_not isSpace text
  rw [← whole, List.head?_append, Option.mem_def.mp head] at first
  simpa using first

/-- A stripped text ends with a visible character. -/
theorem last_strip {text : List Char} : ∀ c ∈ (strip text).getLast?, isSpace c = false := by
  intro c last
  rw [strip, List.getLast?_reverse] at last
  have first := List.head?_dropWhile_not isSpace (text.dropWhile isSpace).reverse
  rw [Option.mem_def.mp last] at first
  simpa using first

theorem strip_strip (text : List Char) : strip (strip text) = strip text := strip_solid head_strip last_strip

/-- Stripping takes white space off both ends. -/
theorem exists_strip (text : List Char) : ∃ front back, Blank front ∧ Blank back ∧ text = front ++ strip text ++ back := by
  refine ⟨text.takeWhile isSpace, ((text.dropWhile isSpace).reverse.takeWhile isSpace).reverse, ?_, ?_, ?_⟩
  · exact fun c member => List.mem_takeWhile_imp member
  · exact fun c member => List.mem_takeWhile_imp (List.mem_reverse.mp member)
  · rw [strip, List.append_assoc, ← List.reverse_append, List.takeWhile_append_dropWhile, List.reverse_reverse,
      List.takeWhile_append_dropWhile]

/-- Stripping a text keeps its words. -/
theorem words_strip (text : List Char) : words (strip text) = words text := by
  obtain ⟨front, back, before, after, parts⟩ := exists_strip text
  conv_rhs => rw [parts, words_append_blank back after, words_blank_append before]

theorem length_strip_le (text : List Char) : (strip text).length ≤ text.length := by
  obtain ⟨front, back, -, -, parts⟩ := exists_strip text
  have lengths := congrArg List.length parts
  simp only [List.length_append] at lengths
  omega

/-- Stripping keeps every visible character. -/
theorem count_strip {c : Char} (solid : isSpace c = false) (text : List Char) :
    (strip text).count c = text.count c := by
  obtain ⟨front, back, before, after, parts⟩ := exists_strip text
  have absent : ∀ blank, Blank blank → blank.count c = 0 := by
    intro blank spaces
    refine List.count_eq_zero.mpr fun member => ?_
    rw [spaces c member] at solid
    cases solid
  have counts := congrArg (List.count c) parts
  rw [List.count_append, List.count_append, absent front before, absent back after] at counts
  omega

/-! ## Lines -/

theorem lines_append_cons (a b : List Char) {sep : Char} (ends : isLineEnd sep = true) :
    lines (a ++ sep :: b) = lines a ++ lines b := List.splitOnP_append_cons a b ends

theorem lines_line {line : List Char} (solid : ∀ c ∈ line, isLineEnd c = false) : lines line = [line] :=
  List.splitOnP_eq_singleton solid

theorem isSpace_of_isLineBoundary {c : Char} (ends : isLineBoundary c = true) : isSpace c = true := by
  simp only [isLineBoundary, isSpace, Bool.or_eq_true, Bool.and_eq_true, decide_eq_true_eq, Char.le_def,
    UInt32.le_iff_toNat_le] at ends ⊢
  have codes : '\n'.val.toNat = 10 ∧ '\r'.val.toNat = 13 ∧ '\t'.val.toNat = 9 ∧ '\x1c'.val.toNat = 28 ∧
      '\x1e'.val.toNat = 30 ∧ ' '.val.toNat = 32 := by decide
  rcases ends with (((line | separator) | rfl) | rfl) | rfl
  · omega
  · omega
  · decide
  · decide
  · decide

theorem splitlinesFrom_append (front line rest : List Char) (solid : ∀ c ∈ line, isLineBoundary c = false) :
    splitlinesFrom front (line ++ rest) = splitlinesFrom (line.reverse ++ front) rest := by
  induction line generalizing front with
  | nil => rfl
  | cons c line ih =>
    have inside := solid c List.mem_cons_self
    have visible : c ≠ '\r' := by
      rintro rfl
      exact absurd inside (by decide)
    rw [List.cons_append, splitlinesFrom, if_neg (by simp [inside]), ih _ fun d later => solid d (by simp [later])]
    · simp
    · exact fun _ carriage _ => visible carriage

/-- The lines are no longer than the text. -/
theorem length_flatten_splitlinesFrom (line text : List Char) :
    (splitlinesFrom line text).flatten.length ≤ line.length + text.length := by
  induction line, text using splitlinesFrom.induct with
  | case1 line empty => simp [splitlinesFrom, empty]
  | case2 line more => simp [splitlinesFrom, more]
  | case3 line rest ih =>
    simp only [splitlinesFrom, List.flatten_cons, List.length_append, List.length_reverse, List.length_cons,
      List.length_nil] at ih ⊢
    omega
  | case4 line c rest notBoth ends ih =>
    rw [splitlinesFrom, if_pos ends]
    · simp only [List.flatten_cons, List.length_append, List.length_reverse, List.length_cons, List.length_nil] at ih ⊢
      omega
    · exact notBoth
  | case5 line c rest notBoth inside ih =>
    rw [splitlinesFrom, if_neg inside]
    · simp only [List.length_cons] at ih ⊢
      omega
    · exact notBoth

theorem length_flatten_splitlines (text : List Char) : (splitlines text).flatten.length ≤ text.length := by
  have bound := length_flatten_splitlinesFrom [] text
  rwa [List.length_nil, Nat.zero_add] at bound

theorem splitlines_lf {line : List Char} (solid : ∀ c ∈ line, isLineBoundary c = false) (rest : List Char) :
    splitlines (line ++ '\n' :: rest) = line :: splitlines rest := by
  rw [splitlines, splitlinesFrom_append _ _ _ solid, splitlinesFrom, if_pos (by decide)]
  · simp [splitlines]
  · exact fun _ carriage => absurd carriage (by decide)

theorem splitlines_crlf {line : List Char} (solid : ∀ c ∈ line, isLineBoundary c = false) (rest : List Char) :
    splitlines (line ++ '\r' :: '\n' :: rest) = line :: splitlines rest := by
  rw [splitlines, splitlinesFrom_append _ _ _ solid, splitlinesFrom]
  simp [splitlines]

/-! ## Runs of separators -/

/-- The first piece is the one in front of the first separator; the others are those
between the separators, but for the empty ones between neighbours. -/
theorem splitRuns_spec (separates : Char → Bool) (text : List Char) :
    ∃ first pieces runs, text.splitOnP separates = first :: pieces ∧ splitRuns separates text = first :: runs ∧
      (runs.filter fun w => !w.isEmpty) = pieces.filter fun w => !w.isEmpty := by
  induction text with
  | nil => exact ⟨[], [], [], by simp, rfl, rfl⟩
  | cons c rest ih =>
    obtain ⟨first, pieces, runs, split, run, same⟩ := ih
    rw [List.splitOnP_cons_eq_if_modifyHead, split]
    cases sep : separates c with
    | false => exact ⟨c :: first, pieces, runs, by simp, by simp [splitRuns, sep, run], same⟩
    | true =>
      cases again : rest.head?.any separates with
      | false =>
        refine ⟨[], first :: pieces, first :: runs, by simp, ?_, by rw [List.filter_cons, List.filter_cons, same]⟩
        rw [splitRuns, if_pos sep, if_neg (by simp [again]), run]
      | true =>
        -- the piece between the two separators is empty
        obtain ⟨d, head, second⟩ := (Option.any_eq_true separates rest.head?).mp again
        obtain ⟨tail, rfl⟩ := List.head?_eq_some_iff.mp head
        have empty : first = [] := by
          rw [List.splitOnP_cons_eq_if_modifyHead, if_pos second] at split
          exact (List.cons.inj split).1.symm
        refine ⟨[], first :: pieces, runs, by simp, ?_, by simp [empty, same]⟩
        rw [splitRuns, if_pos sep, if_pos (by simpa using second), run, empty]

end McpSsh.Base
