import McpSsh.Base.Trace
import Mathlib.Data.List.TakeWhile

/-!
# Stripping escape sequences

`strip_ansi`: the regular expression for escape sequences, matched from left to right,
and the folding of line ends. A text is stripped in two parts exactly as it is stripped
whole where no escape sequence reaches over the cut and no CR LF is cut.
-/

set_option autoImplicit false

namespace McpSsh.Ansi

/-! ## The regular expression -/

/-- `[0-9;?]`. -/
def isParam (c : Char) : Bool := c.isDigit || c = ';' || c = '?'

/-- `[^\x07\x1b]`. -/
def isTitle (c : Char) : Bool := c ≠ '\x07' && c ≠ '\x1b'

/-- `\[[0-9;?]*[A-Za-z]`: how many characters it matches at the start of the text. -/
def csi : List Char → Option Nat
  | [] => none
  | c :: text =>
    if c = '[' ∧ (text.dropWhile isParam).head?.any Char.isAlpha then some ((text.takeWhile isParam).length + 2)
    else none

/-- `\][^\x07\x1b]*(?:\x07|\x1b\\)`. -/
def osc : List Char → Option Nat
  | [] => none
  | c :: text =>
    if c ≠ ']' then none
    else
      match text.dropWhile isTitle with
      | [] => none
      | stop :: rest =>
        if stop = '\x07' then some ((text.takeWhile isTitle).length + 2)
        else if stop = '\x1b' ∧ rest.head? = some '\\' then some ((text.takeWhile isTitle).length + 3)
        else none

/-- `[()][0-9A-Za-z]`. -/
def charset : List Char → Option Nat
  | p :: c :: _ => if (p = '(' ∨ p = ')') ∧ c.isAlphanum then some 2 else none
  | _ => none

/-- `.`. -/
def single : List Char → Option Nat
  | c :: _ => if c = '\n' then none else some 1
  | [] => none

/-- What follows `\x1b`: the first alternative that matches. -/
def afterEsc (text : List Char) : Option Nat := csi text <|> osc text <|> charset text <|> single text

/-- `_ANSI_ESC_RE` at the character `c`: how many characters of `text` belong to the match. -/
def escape (c : Char) (text : List Char) : Option Nat := if c = '\x1b' then afterEsc text else none

/-- `_ANSI_ESC_RE.sub("", text)`, inside a match with this many characters left of it. -/
def stripFrom : Nat → List Char → List Char
  | _, [] => []
  | left + 1, _ :: text => stripFrom left text
  | 0, c :: text =>
    match escape c text with
    | some left => stripFrom left text
    | none => c :: stripFrom 0 text

def stripEscapes (text : List Char) : List Char := stripFrom 0 text

/-- `text.replace("\r\n", "\n")`. -/
def foldCrlf : List Char → List Char
  | '\r' :: '\n' :: text => '\n' :: foldCrlf text
  | c :: text => c :: foldCrlf text
  | [] => []

/-- `text.replace("\r", "\n")`. -/
def foldCr (text : List Char) : List Char := text.map fun c => if c = '\r' then '\n' else c

def stripAnsi (text : List Char) : List Char := foldCr (foldCrlf (stripEscapes text))

/-! ## Where a text may be cut -/

/-- How many characters of the match that is open at the end of the first text belong
to the second. -/
def openAt : Nat → List Char → List Char → Nat
  | left, [], _ => left
  | left + 1, _ :: text, after => openAt left text after
  | 0, c :: text, after => openAt ((escape c (text ++ after)).getD 0) text after

/-- No escape sequence reaches over the cut, and it does not part a CR from its LF. -/
structure CleanCut (a b : List Char) : Prop where
  closed : openAt 0 a b = 0
  apart : ¬ ((stripEscapes a).getLast? = some '\r' ∧ (stripEscapes b).head? = some '\n')

instance (a b : List Char) : Decidable (CleanCut a b) :=
  decidable_of_iff (openAt 0 a b = 0 ∧ ¬ ((stripEscapes a).getLast? = some '\r' ∧ (stripEscapes b).head? = some '\n'))
    ⟨fun ⟨closed, apart⟩ => ⟨closed, apart⟩, fun cut => ⟨cut.closed, cut.apart⟩⟩

/-! ## Matches do not look past their end -/

/-- A match that ends in the first part of a text is the match there, and what matches
nowhere in the text does not match in its first part. -/
def Cut (pattern : List Char → Option Nat) : Prop :=
  ∀ a b, (∀ n ∈ pattern (a ++ b), n ≤ a.length) → pattern a = pattern (a ++ b)

theorem Cut.orElse {p q : List Char → Option Nat} (first : Cut p) (second : Cut q) :
    Cut fun text => p text <|> q text := by
  intro a b fits
  cases found : p (a ++ b) with
  | some n =>
    have same := first a b fun m hit => fits m (by simpa [found] using hit)
    simp [same, found]
  | none =>
    have same := first a b (by simp [found])
    have later := second a b fun m hit => fits m (by simpa [found] using hit)
    simp [same, found, later]

/-- What a class of characters takes from the start of a text ends before the cut, or
takes the whole first part. -/
theorem takeWhile_cut (p : Char → Bool) (a b : List Char) :
    (∃ c rest, a.dropWhile p = c :: rest ∧ (a ++ b).dropWhile p = c :: (rest ++ b) ∧
      (a ++ b).takeWhile p = a.takeWhile p ∧ (a.takeWhile p).length + rest.length + 1 = a.length) ∨
    (a.dropWhile p = [] ∧ a.length ≤ ((a ++ b).takeWhile p).length) := by
  cases rest : a.dropWhile p with
  | nil =>
    have all := List.dropWhile_eq_nil_iff.mp rest
    exact .inr ⟨rfl, by rw [List.takeWhile_append_of_pos all, List.length_append]; omega⟩
  | cons c rest' =>
    have whole := congrArg List.length (@List.takeWhile_append_dropWhile _ p a)
    rw [rest, List.length_append, List.length_cons] at whole
    refine .inl ⟨c, rest', rfl, by simp [List.dropWhile_append, rest], ?_, by omega⟩
    rw [List.takeWhile_append, if_neg (by omega)]

theorem Cut.of_cons {pattern : List Char → Option Nat} (nil : pattern [] = none)
    (positive : ∀ text n, pattern text = some n → 0 < n)
    (cons : ∀ c a b, (∀ n ∈ pattern (c :: a ++ b), n ≤ a.length + 1) → pattern (c :: a) = pattern (c :: a ++ b)) :
    Cut pattern := by
  intro a b fits
  cases a with
  | cons c a => exact cons c a b fits
  | nil =>
    cases found : pattern b with
    | none => rw [nil, List.nil_append, found]
    | some n =>
      have short := fits n found
      have long := positive b n found
      exact absurd short (Nat.not_le.mpr long)

theorem cut_csi : Cut csi := by
  apply Cut.of_cons rfl
  · intro text n found
    cases text with
    | nil => cases found
    | cons c text =>
      obtain ⟨-, ⟨⟩⟩ := Option.ite_none_right_eq_some.mp found
      omega
  · intro c a b fits
    rw [List.cons_append, csi, csi] at *
    obtain ⟨d, rest, here, there, taken, -⟩ | ⟨whole, long⟩ := takeWhile_cut isParam a b
    · rw [here, there, taken]
      rfl
    · split at fits
      · have short := fits _ rfl
        omega
      · rename_i refused
        rw [if_neg refused, whole, if_neg (by simp)]

theorem cut_osc : Cut osc := by
  apply Cut.of_cons rfl
  · intro text n found
    cases text with
    | nil => cases found
    | cons c text =>
      rw [osc] at found
      split at found
      · cases found
      split at found
      · cases found
      split_ifs at found <;> obtain ⟨⟩ := found <;> omega
  · intro c a b fits
    rw [List.cons_append, osc, osc] at *
    split
    · rfl
    rename_i opens
    rw [if_neg opens] at fits
    obtain ⟨stop, rest, here, there, taken, long⟩ | ⟨whole, long⟩ := takeWhile_cut isTitle a b
    · rw [there, taken] at fits
      rw [here, there, taken]
      simp only at fits ⊢
      split
      · rfl
      rename_i bell
      rw [if_neg bell] at fits
      cases rest with
      | cons d rest => rfl
      | nil =>
        split at fits
        · have short := fits _ rfl
          simp only [List.length_nil] at long
          omega
        · rename_i refused
          rw [if_neg refused, if_neg (by simp)]
    · rw [whole]
      simp only
      split at fits
      · rfl
      split_ifs at fits with bell st
      · have short := fits _ rfl
        omega
      · have short := fits _ rfl
        omega
      · rw [if_neg bell, if_neg st]

theorem cut_charset : Cut charset := by
  apply Cut.of_cons rfl
  · intro text n found
    unfold charset at found
    split at found
    · obtain ⟨-, ⟨⟩⟩ := Option.ite_none_right_eq_some.mp found
      omega
    · cases found
  · intro c a b fits
    cases a with
    | cons d a => rfl
    | nil =>
      cases b with
      | nil => rfl
      | cons d b =>
        simp only [List.cons_append, List.nil_append, charset] at fits ⊢
        split at fits
        · exact absurd (fits _ rfl) (by decide)
        · rename_i refused
          rw [if_neg refused]

theorem cut_single : Cut single := by
  apply Cut.of_cons rfl
  · intro text n found
    cases text with
    | nil => cases found
    | cons c text =>
      rw [single] at found
      split at found
      · cases found
      · cases found
        omega
  · intro c a b _
    rfl

theorem cut_afterEsc : Cut afterEsc := cut_csi.orElse (cut_osc.orElse (cut_charset.orElse cut_single))

theorem escape_cut (c : Char) : Cut (escape c) := by
  intro a b fits
  unfold escape at *
  split
  · rename_i esc
    rw [if_pos esc] at fits
    exact cut_afterEsc a b fits
  · rfl

/-! ## Stripping in two parts -/

theorem openAt_le {left : Nat} {a b : List Char} (closed : openAt left a b = 0) : left ≤ a.length := by
  induction a generalizing left with
  | nil => simpa [openAt] using closed
  | cons c a ih =>
    cases left with
    | zero => omega
    | succ left =>
      rw [openAt] at closed
      have rest := ih closed
      rw [List.length_cons]
      omega

theorem stripFrom_append {left : Nat} {a b : List Char} (closed : openAt left a b = 0) :
    stripFrom left (a ++ b) = stripFrom left a ++ stripEscapes b := by
  induction a generalizing left with
  | nil =>
    obtain rfl : left = 0 := closed
    rfl
  | cons c a ih =>
    cases left with
    | succ left => exact ih closed
    | zero =>
      rw [openAt] at closed
      have same : escape c a = escape c (a ++ b) := by
        apply escape_cut c a b
        intro n found
        rw [Option.mem_def.mp found] at closed
        exact openAt_le closed
      rw [List.cons_append, stripFrom, stripFrom, same]
      cases found : escape c (a ++ b) with
      | none =>
        rw [found] at closed
        simp only [List.cons_append, List.cons.injEq, true_and]
        exact ih closed
      | some n =>
        rw [found] at closed
        exact ih closed

theorem foldCrlf_append {a b : List Char} (apart : ¬ (a.getLast? = some '\r' ∧ b.head? = some '\n')) :
    foldCrlf (a ++ b) = foldCrlf a ++ foldCrlf b := by
  induction a using foldCrlf.induct with
  | case1 a ih =>
    rw [List.cons_append, List.cons_append, foldCrlf, foldCrlf, List.cons_append, ih]
    rintro ⟨last, first⟩
    cases a with
    | nil => cases last
    | cons c a => exact apart ⟨by simpa using last, first⟩
  | case2 c a other ih =>
    have later : ¬ (a.getLast? = some '\r' ∧ b.head? = some '\n') := by
      rintro ⟨last, first⟩
      cases a with
      | nil => cases last
      | cons d a => exact apart ⟨by simpa using last, first⟩
    rw [foldCrlf.eq_2 c a other, List.cons_append, List.cons_append, ← ih later]
    apply foldCrlf.eq_2
    intro text cr lf
    cases a with
    | nil => exact apart ⟨by simp [cr], by rw [show b = _ from lf, List.head?_cons]⟩
    | cons d a => exact other a cr (by rw [(List.cons.inj lf).1])
  | case3 => rfl

/-- **A text may be stripped part by part** where the cuts are clean. -/
theorem stripAnsi_append {a b : List Char} (cut : CleanCut a b) : stripAnsi (a ++ b) = stripAnsi a ++ stripAnsi b := by
  rw [stripAnsi, stripEscapes, stripFrom_append cut.closed, ← stripEscapes, foldCrlf_append cut.apart, foldCr,
    List.map_append]
  rfl

/-! ## Texts without anything to strip -/

theorem stripFrom_sublist (left : Nat) (text : List Char) : (stripFrom left text).Sublist text := by
  induction text generalizing left with
  | nil => cases left <;> exact .refl _
  | cons c text ih =>
    cases left with
    | succ left => exact (ih left).cons c
    | zero =>
      rw [stripFrom]
      split
      · exact (ih _).cons c
      · exact (ih 0).cons_cons c

theorem foldCrlf_sublist (text : List Char) : (foldCrlf text).Sublist text := by
  induction text using foldCrlf.induct with
  | case1 text ih => exact (ih.cons_cons '\n').cons '\r'
  | case2 c text other ih =>
    rw [foldCrlf.eq_2 c text other]
    exact ih.cons_cons c
  | case3 => exact .refl _

/-- Neither an escape sequence nor a CR LF. -/
structure Bare (text : List Char) : Prop where
  escapes : stripEscapes text = text
  lines : foldCrlf text = text

instance (text : List Char) : Decidable (Bare text) :=
  decidable_of_iff (stripEscapes text = text ∧ foldCrlf text = text)
    ⟨fun ⟨escapes, lines⟩ => ⟨escapes, lines⟩, fun bare => ⟨bare.escapes, bare.lines⟩⟩

theorem length_stripAnsi_le (text : List Char) : (stripAnsi text).length ≤ text.length := by
  rw [stripAnsi, foldCr, List.length_map]
  exact (foldCrlf_sublist _).length_le.trans (stripFrom_sublist 0 text).length_le

/-- Stripping shortens every other text. -/
theorem bare_of_length {text : List Char} (same : (stripAnsi text).length = text.length) : Bare text := by
  rw [stripAnsi, foldCr, List.length_map] at same
  have folded := (foldCrlf_sublist (stripEscapes text)).length_le
  have stripped := (stripFrom_sublist 0 text).length_le
  rw [← stripEscapes] at stripped
  have escapes : stripEscapes text = text := (stripFrom_sublist 0 text).eq_of_length (by rw [← stripEscapes]; omega)
  rw [escapes] at same
  exact ⟨escapes, (foldCrlf_sublist text).eq_of_length same⟩

theorem stripEscapes_cons {c : Char} {text : List Char} :
    stripEscapes (c :: text) = c :: text ↔ escape c text = none ∧ stripEscapes text = text := by
  rw [stripEscapes, stripFrom]
  constructor
  · intro same
    split at same
    · rename_i left _
      have short := (stripFrom_sublist left text).length_le
      rw [same, List.length_cons] at short
      omega
    · exact ⟨‹_›, (List.cons.inj same).2⟩
  · rintro ⟨none, same⟩
    rw [none]
    exact congrArg _ same

theorem foldCrlf_cons {c : Char} {text : List Char} (same : foldCrlf (c :: text) = c :: text) :
    ¬ (c = '\r' ∧ text.head? = some '\n') ∧ foldCrlf text = text := by
  have other : ∀ rest, c = '\r' → text = '\n' :: rest → False := by
    rintro rest rfl rfl
    have short := (foldCrlf_sublist rest).length_le
    have long := congrArg List.length same
    rw [foldCrlf, List.length_cons, List.length_cons, List.length_cons] at long
    omega
  rw [foldCrlf.eq_2 c text other] at same
  refine ⟨?_, (List.cons.inj same).2⟩
  rintro ⟨cr, lf⟩
  obtain ⟨rest, rfl⟩ := List.head?_eq_some_iff.mp lf
  exact other rest cr rfl

theorem closed_of_bare {a b : List Char} (bare : stripEscapes (a ++ b) = a ++ b) :
    openAt 0 a b = 0 ∧ stripEscapes a = a ∧ stripEscapes b = b := by
  induction a with
  | nil => exact ⟨rfl, rfl, bare⟩
  | cons c a ih =>
    rw [List.cons_append] at bare
    obtain ⟨none, rest⟩ := stripEscapes_cons.mp bare
    obtain ⟨closed, front, back⟩ := ih rest
    have here : escape c a = .none := (escape_cut c a b (by simp [none])).trans none
    rw [openAt, none]
    exact ⟨closed, stripEscapes_cons.mpr ⟨here, front⟩, back⟩

theorem apart_of_bare {a b : List Char} (bare : foldCrlf (a ++ b) = a ++ b) :
    ¬ (a.getLast? = some '\r' ∧ b.head? = some '\n') ∧ foldCrlf b = b := by
  induction a with
  | nil => exact ⟨by simp, bare⟩
  | cons c a ih =>
    obtain ⟨first, rest⟩ := foldCrlf_cons bare
    obtain ⟨later, back⟩ := ih rest
    refine ⟨?_, back⟩
    rintro ⟨cr, lf⟩
    cases a with
    | nil => exact first ⟨by simpa using cr, lf⟩
    | cons d a => exact later ⟨by simpa using cr, lf⟩

/-- A bare text may be cut anywhere. -/
theorem Bare.cleanCut {a b : List Char} (bare : Bare (a ++ b)) : CleanCut a b ∧ Bare b := by
  obtain ⟨closed, front, back⟩ := closed_of_bare bare.escapes
  obtain ⟨apart, rest⟩ := apart_of_bare bare.lines
  exact ⟨⟨closed, by rwa [front, back]⟩, back, rest⟩

end McpSsh.Ansi
