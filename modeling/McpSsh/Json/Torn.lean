import Mathlib.Data.List.Forall2
import McpSsh.Json.Compact

/-!
# Texts that were cut short

The text of an object that stops anywhere, followed by the text of another one, is no JSON
text: the reader gets stuck behind what it takes of the two. Induction is on the value
whose text is cut; what follows may itself begin with a text that was cut.
-/

set_option autoImplicit false

namespace McpSsh.Json

open Toml (isDigit isHexDigit digitsValue)

/-- No list goes on or ends here, and neither does the text. -/
def Stuck (rest : List Char) : Prop := ∃ c tail, rest = c :: tail ∧ c ∉ [',', '}', ']', ':'] ∧ isSpace c = false

/-- What may follow a text that was cut short: it begins like an object, with a key, or
with a text that was cut short itself, and is no part of a list. -/
structure Follows (w : List Char) : Prop where
  opens : ∃ k c tail, w = '{' :: (List.replicate k '{' ++ '"' :: c :: tail) ∧ c ∉ [',', '}', ']', ':'] ∧ isSpace c = false
  ends : ∀ n v rest, 2 * w.length ≤ n → parseValue n w = some (v, rest) → rest = [] ∨ Stuck rest

/-- Cut anywhere, and followed by `w`, the text leaves the reader stuck. -/
def Torn (w text : List Char) : Prop :=
  ∀ q r, text = q ++ r → q ≠ [] → ∀ n, 2 * (q ++ w).length ≤ n →
    ∀ v rest, parseValue n (q ++ w) = some (v, rest) → Stuck rest

theorem Stuck.skipSpace {rest : List Char} (stuck : Stuck rest) : skipSpace rest = rest := by
  obtain ⟨c, tail, rfl, -, visible⟩ := stuck
  exact skipSpace_head visible tail

section

variable {w : List Char} (follows : Follows w)

include follows

theorem Follows.stuck : Stuck w := by
  obtain ⟨k, c, tail, rfl, -⟩ := follows.opens
  exact ⟨'{', _, rfl, by decide, by decide⟩

theorem Follows.numberEnds : NumberEnds w := by
  obtain ⟨k, c, tail, rfl, -⟩ := follows.opens
  exact numberEnds_cons (by decide) _

/-- A complete text is read, and then comes what follows it. -/
theorem Writes.torn_whole {v v' : Value} {text rest : List Char} (writes : Writes v text) {n : Nat}
    (enough : 2 * (text ++ w).length ≤ n) (read : parseValue n (text ++ w) = some (v', rest)) : Stuck rest := by
  rw [List.length_append] at enough
  rw [writes.reads n w (by omega) follows.numberEnds] at read
  cases read
  exact follows.stuck

/-! ## Strings -/

/-- The quote of the next key ends a string that was cut short between two characters. -/
theorem stringBody_follows {s : PyString} {rest : List Char} (read : stringBody w = some (s, rest)) : Stuck rest := by
  obtain ⟨k, c, tail, rfl, other, visible⟩ := follows.opens
  have braces : ∀ k s, stringBody (List.replicate k '{' ++ '"' :: c :: tail) = some (s, rest) → rest = c :: tail := by
    intro k
    induction k with
    | zero =>
      intro s read
      rw [List.replicate_zero, List.nil_append, stringBody_quote] at read
      cases read
      rfl
    | succ k ih =>
      intro s read
      rw [List.replicate_succ, List.cons_append, stringBody_plain (by decide) (by decide) (by decide)] at read
      obtain ⟨r, inner, same⟩ := Option.map_eq_some_iff.mp read
      cases same
      exact ih r.1 inner
  exact ⟨c, tail, braces (k + 1) s (by rw [List.replicate_succ]; exact read), other, visible⟩

omit follows in
/-- What a `\u` escape needs. -/
theorem hex_of_unicode {src rest : List Char} {s : PyString} (read : stringBody ('\\' :: 'u' :: src) = some (s, rest)) :
    ∃ digits more, src = digits ++ more ∧ digits.length = 4 ∧ digits.all isHexDigit = true := by
  rw [stringBody.eq_def] at read
  simp only [if_neg (show '\\' ≠ '"' by decide), if_true] at read
  split at read
  · rename_i h₃ h₂ h₁ h₀ more same
    cases same
    obtain ⟨hex, -⟩ := Option.ite_none_right_eq_some.mp read
    exact ⟨[h₃, h₂, h₁, h₀], more, rfl, rfl, hex⟩
  · rename_i same
    cases same
    cases read
  · rename_i same
    cases same

/-- An escape that was cut short is none. -/
theorem stringBody_torn_escape {e : Char} {text q r : List Char} (whole : '\\' :: e :: text = q ++ r) (inside : q ≠ [])
    (cut : r ≠ []) (unicode : text = [] ∨ e = 'u' ∧ text.length = 4) {s : PyString} {rest : List Char} :
    stringBody (q ++ w) ≠ some (s, rest) := by
  intro read
  obtain ⟨k, c, tail, rfl, -⟩ := follows.opens
  obtain ⟨a, q, rfl⟩ := List.exists_cons_of_ne_nil inside
  obtain ⟨rfl, behind⟩ := List.cons.inj whole
  cases q with
  | nil =>
    rw [List.cons_append, List.nil_append, stringBody.eq_def] at read
    simp only [if_neg (show '\\' ≠ '"' by decide), if_true] at read
    cases read
  | cons a' q =>
    obtain ⟨rfl, behind'⟩ := List.cons.inj behind
    obtain rfl | ⟨rfl, four⟩ := unicode
    · exact cut (List.append_eq_nil_iff.mp behind'.symm).2
    obtain ⟨digits, more, same, length, hex⟩ := hex_of_unicode read
    -- the brace is among the four characters
    have short : q.length < 4 := by
      have lengths := congrArg List.length behind'
      have some_ := List.length_pos_iff.mpr cut
      rw [four, List.append_eq, List.length_append] at lengths
      omega
    have brace : '{' ∈ digits := by
      have place : (q ++ '{' :: (List.replicate k '{' ++ '"' :: c :: tail))[q.length]? = some '{' := by simp
      rw [show q ++ _ = digits ++ more from same, List.getElem?_append_left (by omega)] at place
      exact List.mem_of_getElem? place
    have digit := List.all_eq_true.mp hex _ brace
    revert digit
    decide

theorem stringBody_torn_char {c : Char} {text q r : List Char} (stands : CharText c text) (whole : text = q ++ r)
    (inside : q ≠ []) (cut : r ≠ []) {s : PyString} {rest : List Char} (read : stringBody (q ++ w) = some (s, rest)) :
    Stuck rest := by
  cases stands with
  | plain quote backslash visible =>
    have lengths := congrArg List.length whole
    have first := List.length_pos_iff.mpr inside
    have second := List.length_pos_iff.mpr cut
    rw [List.length_singleton, List.length_append] at lengths
    omega
  | short known => exact absurd read (stringBody_torn_escape follows whole inside cut (.inl rfl))
  | unicode hex code => exact absurd read (stringBody_torn_escape follows whole inside cut (.inr ⟨rfl, rfl⟩))
  | @pair _ h₃ h₂ h₁ h₀ l₃ l₂ l₁ l₀ hex hex' high low code =>
    have halves : ['\\', 'u', h₃, h₂, h₁, h₀] ++ ['\\', 'u', l₃, l₂, l₁, l₀] = q ++ r := whole
    rcases List.append_eq_append_iff.mp halves with ⟨more, rfl, second⟩ | ⟨more, first, rfl⟩
    · rw [List.append_assoc] at read
      simp only [List.cons_append, List.nil_append] at read
      rw [stringBody_unicode hex] at read
      obtain ⟨inner, later, same⟩ := Option.map_eq_some_iff.mp read
      cases same
      by_cases between : more = []
      · rw [between, List.nil_append] at later
        exact stringBody_follows follows later
      · exact absurd later (stringBody_torn_escape follows second between cut (.inr ⟨rfl, rfl⟩))
    · by_cases between : more = []
      · rw [between, List.append_nil] at first
        rw [← first] at read
        simp only [List.cons_append, List.nil_append] at read
        rw [stringBody_unicode hex] at read
        obtain ⟨inner, later, same⟩ := Option.map_eq_some_iff.mp read
        cases same
        exact stringBody_follows follows later
      · exact absurd read (stringBody_torn_escape follows first inside between (.inr ⟨rfl, rfl⟩))

variable {escape : Char → List Char} (escapes : Escapes escape)

include escapes

/-- A string that was cut short before its quote. -/
theorem stringBody_torn (s : List Char) {q r : List Char}
    (whole : (s.map CodePoint.char).flatMap (fun | .char c => escape c | .surrogate n => unicodeEscape n) = q ++ r)
    {t : PyString} {rest : List Char} (read : stringBody (q ++ w) = some (t, rest)) : Stuck rest := by
  induction s generalizing q r t rest with
  | nil =>
    obtain ⟨rfl, -⟩ := List.append_eq_nil_iff.mp whole.symm
    exact stringBody_follows follows read
  | cons c s ih =>
    rw [List.map_cons, List.flatMap_cons] at whole
    rcases List.append_eq_append_iff.mp whole with ⟨more, rfl, later⟩ | ⟨more, here, -⟩
    · rw [List.append_assoc, (escapes c).stringBody] at read
      obtain ⟨inner, after, same⟩ := Option.map_eq_some_iff.mp read
      cases same
      exact ih later after
    · by_cases start : q = []
      · rw [start, List.nil_append] at read
        exact stringBody_follows follows read
      by_cases between : more = []
      · rw [between, List.append_nil] at here
        rw [← here, (escapes c).stringBody] at read
        obtain ⟨inner, after, same⟩ := Option.map_eq_some_iff.mp read
        cases same
        exact stringBody_follows follows after
      · exact stringBody_torn_char follows (escapes c) here start between read

/-- Cut behind its first quote, or behind its last one. -/
theorem stringBody_torn_string (s : String) {q r : List Char} (whole : compactString escape (ofString s) = '"' :: q ++ r)
    {t : PyString} {rest : List Char} (read : stringBody (q ++ w) = some (t, rest)) : Stuck rest := by
  obtain ⟨-, whole⟩ := List.cons.inj whole
  rcases List.append_eq_append_iff.mp whole with ⟨more, rfl, last⟩ | ⟨more, inside, -⟩
  · by_cases between : more = []
    · rw [between, List.append_nil] at read
      exact stringBody_torn follows escapes s.toList (List.append_nil _).symm read
    · -- the last quote is there
      obtain ⟨a, others, rfl⟩ := List.exists_cons_of_ne_nil between
      obtain ⟨rfl, nothing⟩ := List.cons.inj last
      obtain ⟨rfl, -⟩ := List.append_eq_nil_iff.mp nothing.symm
      rw [List.append_assoc, List.singleton_append] at read
      cases (stringBody_compact escapes s.toList w).symm.trans read
      exact follows.stuck
  · exact stringBody_torn follows escapes s.toList inside read

/-- A string that was cut short. -/
theorem torn_string (s : String) : Torn w (compactString escape (ofString s)) := by
  intro q r whole inside n enough v rest read
  obtain ⟨c, q, rfl⟩ := List.exists_cons_of_ne_nil inside
  obtain rfl : '"' = c := (List.cons.inj whole).1
  obtain ⟨n, rfl⟩ : ∃ m, n = m + 1 := ⟨n - 1, by rw [List.cons_append, List.length_cons] at enough; omega⟩
  rw [List.cons_append, parseValue] at read
  obtain ⟨found, inner, same⟩ := Option.map_eq_some_iff.mp read
  obtain ⟨-, rfl⟩ := Prod.mk.inj same
  exact stringBody_torn_string follows escapes s whole inner

end

/-! ## Values without parts -/

/-- A character of a constant or of a number. -/
def Loose (c : Char) : Prop := c ∉ [',', '}', ']', ':', '"', '[', '{'] ∧ isSpace c = false

instance (c : Char) : Decidable (Loose c) := inferInstanceAs (Decidable (_ ∧ _))

theorem loose_of_all {text : List Char} (all : (text.all fun c => decide (Loose c)) = true) : ∀ c ∈ text, Loose c :=
  fun c member => of_decide_eq_true (List.all_eq_true.mp all c member)

/-- Marks and spaces are no digits. -/
theorem not_digit : ∀ d ∈ [',', '}', ']', ':', '"', '[', '{', ' ', '\t', '\n', '\r'], isDigit d = false := by
  have none_ := List.any_eq_false.mp
    (show [',', '}', ']', ':', '"', '[', '{', ' ', '\t', '\n', '\r'].any isDigit = false by decide)
  exact fun d member => Bool.eq_false_iff.mpr (none_ d member)

theorem loose_of_number {c : Char} (number : isDigit c = true ∨ c ∈ ['+', '-', '.', 'e', 'E']) : Loose c := by
  obtain digit | sign := number
  · refine ⟨fun member => ?_, ?_⟩
    · exact Toml.digit_ne digit (not_digit c (List.mem_append_left [' ', '\t', '\n', '\r'] member)) rfl
    · by_contra space
      rw [Bool.not_eq_false] at space
      have listed : c ∈ [' ', '\t', '\n', '\r'] := by simpa [isSpace, or_assoc] using space
      exact Toml.digit_ne digit (not_digit c (List.mem_append_right [',', '}', ']', ':', '"', '[', '{'] listed)) rfl
  · exact @loose_of_all ['+', '-', '.', 'e', 'E'] (by decide) c sign

theorem takeWhile_digits_starts (src : List Char) : src.takeWhile isDigit <+: src ∧ '{' ∉ src.takeWhile isDigit :=
  ⟨List.takeWhile_prefix _, fun member => absurd (List.all_eq_true.mp List.all_takeWhile _ member) (by decide)⟩

theorem wholePart_starts (src : List Char) : wholePart src <+: src ∧ '{' ∉ wholePart src := by
  unfold wholePart
  split
  · rename_i tail
    exact ⟨⟨tail, rfl⟩, by decide⟩
  · exact takeWhile_digits_starts _

theorem fractionPart_starts (src : List Char) : fractionPart src <+: src ∧ '{' ∉ fractionPart src := by
  unfold fractionPart
  split
  · rename_i tail
    split
    · exact ⟨List.nil_prefix, List.not_mem_nil⟩
    · obtain ⟨digits, none_⟩ := takeWhile_digits_starts tail
      exact ⟨(List.prefix_cons_inj '.').mpr digits, List.not_mem_cons_of_ne_of_not_mem (by decide) none_⟩
  · exact ⟨List.nil_prefix, List.not_mem_nil⟩

theorem signPart_starts (src : List Char) : signPart src <+: src ∧ '{' ∉ signPart src := by
  unfold signPart
  split
  · exact ⟨⟨_, rfl⟩, by decide⟩
  · exact ⟨⟨_, rfl⟩, by decide⟩
  · exact ⟨List.nil_prefix, List.not_mem_nil⟩

theorem exponentPart_starts (src : List Char) : exponentPart src <+: src ∧ '{' ∉ exponentPart src := by
  unfold exponentPart
  split
  · rename_i e tail
    dsimp only
    split
    · rename_i exponent
      obtain ⟨sign, none_⟩ := signPart_starts tail
      obtain ⟨⟨later, digits⟩, none_'⟩ := takeWhile_digits_starts (tail.drop (signPart tail).length)
      refine ⟨⟨later, ?_⟩, List.not_mem_cons_of_ne_of_not_mem ?_ ?_⟩
      · rw [List.cons_append, List.append_assoc, digits, List.prefix_iff_eq_append.mp sign]
      · rintro rfl
        exact absurd exponent.1 (by decide)
      · rw [List.mem_append, not_or]
        exact ⟨none_, none_'⟩
    · exact ⟨List.nil_prefix, List.not_mem_nil⟩
  · exact ⟨List.nil_prefix, List.not_mem_nil⟩

theorem minusPart_starts (src : List Char) : minusPart src <+: src ∧ '{' ∉ minusPart src := by
  unfold minusPart
  split
  · exact ⟨⟨_, rfl⟩, by decide⟩
  · exact ⟨List.nil_prefix, List.not_mem_nil⟩

/-- No brace is taken from a text, and what is left of it is an end of it. -/
def Leaves (src rest : List Char) : Prop := ∃ taken, src = taken ++ rest ∧ '{' ∉ taken

theorem Leaves.trans {a b c : List Char} (first : Leaves a b) (second : Leaves b c) : Leaves a c := by
  obtain ⟨taken, rfl, none_⟩ := first
  obtain ⟨taken', rfl, none_'⟩ := second
  exact ⟨taken ++ taken', (List.append_assoc _ _ _).symm, by simp [none_, none_']⟩

theorem leaves_drop {part src : List Char} (taken : part <+: src ∧ '{' ∉ part) : Leaves src (src.drop part.length) := by
  obtain ⟨⟨rest, rfl⟩, none_⟩ := taken
  rw [List.drop_left]
  exact ⟨part, rfl, none_⟩

theorem leaves_number {src rest : List Char} {v : Value} (read : parseNumber src = some (v, rest)) : Leaves src rest := by
  have parts := (((leaves_drop (minusPart_starts src)).trans (leaves_drop (wholePart_starts _))).trans
    (leaves_drop (fractionPart_starts _))).trans (leaves_drop (exponentPart_starts _))
  unfold parseNumber at read
  dsimp only at read
  split at read
  · cases read
  split at read
  · obtain ⟨-, rfl⟩ := Prod.mk.inj (Option.some.inj read)
    exact parts
  · obtain ⟨-, rfl⟩ := Prod.mk.inj (Option.some.inj read)
    exact parts

theorem leaves_constant {src rest : List Char} {v : Value} (read : parseConstant src = some (v, rest)) : Leaves src rest := by
  obtain ⟨c, found, same⟩ := Option.map_eq_some_iff.mp read
  obtain ⟨-, rfl⟩ := Prod.mk.inj same
  have starts := List.find?_some found
  refine leaves_drop ⟨List.isPrefixOf_iff_prefix.mp starts, ?_⟩
  have each : ∀ c ∈ constants, '{' ∉ c.1 := by decide
  exact each c (List.mem_of_find?_eq_some found)

/-- **A constant or a number that was cut short** is followed by something else. -/
theorem torn_loose {w : List Char} (follows : Follows w) {text : List Char} (loose : ∀ c ∈ text, Loose c) :
    Torn w text := by
  intro q r whole inside n enough v rest read
  obtain ⟨k, d, tail, opens, -⟩ := follows.opens
  obtain ⟨c, q, rfl⟩ := List.exists_cons_of_ne_nil inside
  have each : ∀ c' ∈ c :: q, Loose c' := fun c' member => loose c' (whole ▸ List.mem_append_left _ member)
  obtain ⟨n, rfl⟩ : ∃ m, n = m + 1 := ⟨n - 1, by rw [List.cons_append, List.length_cons] at enough; omega⟩
  have other := (each c List.mem_cons_self).1
  rw [List.cons_append, parseValue_other (by simp at other ⊢; tauto), ← List.cons_append] at read
  obtain ⟨taken, same, none_⟩ : Leaves (c :: q ++ w) rest := by
    obtain constant | ⟨-, number⟩ := Option.or_eq_some_iff.mp read
    · exact leaves_constant constant
    · exact leaves_number number
  rcases List.append_eq_append_iff.mp same with ⟨more, rfl, later⟩ | ⟨more, here, rfl⟩
  · -- a brace would have been taken
    cases more with
    | nil =>
      rw [List.nil_append] at later
      rw [← later]
      exact follows.stuck
    | cons e more =>
      rw [opens] at later
      obtain ⟨rfl, -⟩ := List.cons.inj later
      exact absurd (List.mem_append_right _ List.mem_cons_self) none_
  · cases more with
    | nil => exact follows.stuck
    | cons e more =>
      obtain ⟨other, visible⟩ := each e (here ▸ List.mem_append_right _ List.mem_cons_self)
      exact ⟨e, _, rfl, by simp at other ⊢; tauto, visible⟩

/-! ## Arrays -/

/-- A list of texts is cut inside its first text, or behind a comma. -/
theorem commaSep_cut {text : List Char} {texts : List (List Char)} {close : Char} {q r : List Char}
    (whole : commaSep (text :: texts) ++ [close] = q ++ r) (cut : r ≠ []) :
    (∃ more, text = q ++ more) ∨ ∃ next others more, texts = next :: others ∧ q = text ++ ',' :: more ∧
      commaSep texts ++ [close] = more ++ r := by
  obtain ⟨tail, split, shape⟩ := commaSep_cons text texts
  rw [split, List.append_assoc] at whole
  rcases List.append_eq_append_iff.mp whole with ⟨more, rfl, behind⟩ | ⟨more, inside, -⟩
  · cases more with
    | nil => exact .inl ⟨[], by rw [List.append_nil, List.append_nil]⟩
    | cons c more =>
      obtain ⟨rfl, rfl⟩ | ⟨next, others, rfl, rfl⟩ := shape
      · -- all of the list is there
        obtain ⟨-, nothing⟩ := List.cons.inj behind
        exact absurd (List.append_eq_nil_iff.mp nothing.symm).2 cut
      · obtain ⟨rfl, later⟩ := List.cons.inj behind
        exact .inr ⟨next, others, more, rfl, rfl, later⟩
  · exact .inl ⟨more, inside⟩

/-- A list of texts begins like its first text. -/
theorem commaSep_opens {text : List Char} (opens : ∃ c tail, text = c :: tail ∧ isSpace c = false)
    (texts : List (List Char)) (last : List Char) :
    ∃ c tail, commaSep (text :: texts) ++ last = c :: tail ∧ isSpace c = false := by
  obtain ⟨c, tail, rfl, visible⟩ := opens
  obtain ⟨others, split, -⟩ := commaSep_cons (c :: tail) texts
  exact ⟨c, _, by rw [split]; rfl, visible⟩

theorem Writes.visible {v : Value} {text : List Char} (writes : Writes v text) :
    ∃ c tail, text = c :: tail ∧ isSpace c = false := by
  obtain ⟨c, tail, same, -, visible⟩ := writes.opens
  exact ⟨c, tail, same, visible⟩

/-- Nothing, or something that no list goes on with. -/
def Broken (rest : List Char) : Prop := rest = [] ∨ Stuck rest

theorem Broken.skipSpace_ne {rest : List Char} (broken : Broken rest) {c : Char} (goesOn : c ∈ [',', '}', ']', ':'])
    (tail : List Char) : skipSpace rest ≠ c :: tail := by
  obtain rfl | stuck := broken
  · simp [skipSpace]
  · rw [stuck.skipSpace]
    obtain ⟨d, more, rfl, other, -⟩ := stuck
    intro same
    obtain ⟨rfl, -⟩ := List.cons.inj same
    exact other goesOn

/-- An array does not go on behind an item that was cut short. -/
theorem parseItems_broken {n : Nat} {src : List Char}
    (broken : ∀ v rest, parseValue n src = some (v, rest) → Broken rest) : parseItems (n + 1) src = none := by
  rw [parseItems]
  split
  · rfl
  · rename_i v rest read
    split
    · rename_i same
      exact absurd same ((broken v rest read).skipSpace_ne (by decide) _)
    · rename_i same
      exact absurd same ((broken v rest read).skipSpace_ne (by decide) _)
    · rfl

/-- A bracket behind which no items are read. -/
theorem parseValue_bracket {src : List Char} (skip : skipSpace src = src) (more : src.head? ≠ some ']') {n : Nat}
    (items : parseItems n src = none) : parseValue (n + 1) ('[' :: src) = none := by
  rw [parseValue_array (by rw [skip]; exact more), skip, items]
  rfl

section

variable {w : List Char} (follows : Follows w)

include follows

/-- No space is in front of a text that was cut short. -/
theorem Follows.skipSpace_cut {text q r : List Char} (opens : ∃ c tail, text = c :: tail ∧ isSpace c = false)
    (whole : text = q ++ r) : Json.skipSpace (q ++ w) = q ++ w := by
  cases q with
  | nil => exact follows.stuck.skipSpace
  | cons c' q =>
    obtain ⟨c, tail, rfl, visible⟩ := opens
    obtain ⟨rfl, -⟩ := List.cons.inj whole
    exact skipSpace_head visible _

/-- Behind a value that was cut short no list goes on. -/
theorem Follows.broken_value {text q r : List Char} (torn : Torn w text) (whole : text = q ++ r) {n : Nat}
    (enough : 2 * (q ++ w).length ≤ n) (v : Value) (rest : List Char) (read : parseValue n (q ++ w) = some (v, rest)) :
    Broken rest := by
  by_cases start : q = []
  · rw [start, List.nil_append] at enough read
    exact follows.ends n v rest enough read
  · exact .inr (torn q r whole start n enough v rest read)

/-- **The items of an array that was cut short are not read.** -/
theorem parseItems_torn {vs : List Value} {texts : List (List Char)} (each : List.Forall₂ Writes vs texts)
    (torn : ∀ text ∈ texts, Torn w text) {v : Value} {text : List Char} (first : Writes v text) (here : Torn w text)
    {q r : List Char} (whole : commaSep (text :: texts) ++ [']'] = q ++ r) (cut : r ≠ []) {n : Nat}
    (enough : 2 * (q ++ w).length < n) : parseItems n (q ++ w) = none := by
  induction each generalizing v text q n with
  | nil =>
    obtain ⟨n, rfl⟩ : ∃ m, n = m + 1 := ⟨n - 1, by omega⟩
    obtain ⟨more, inside⟩ | ⟨_, _, _, ⟨⟩, -⟩ := commaSep_cut whole cut
    exact parseItems_broken (follows.broken_value here inside (by omega))
  | @cons v' next vs texts second each ih =>
    obtain ⟨n, rfl⟩ : ∃ m, n = m + 1 := ⟨n - 1, by omega⟩
    obtain ⟨here', torn⟩ := List.forall_mem_cons.mp torn
    obtain ⟨more, inside⟩ | ⟨_, _, more, -, rfl, later⟩ := commaSep_cut whole cut
    · exact parseItems_broken (follows.broken_value here inside (by omega))
    · rw [List.length_append, List.length_append, List.length_cons] at enough
      rw [List.append_assoc, List.cons_append, parseItems, first.reads n _ (by omega) (numberEnds_cons (by decide) _)]
      simp only [skipSpace_head (c := ',') rfl]
      rw [follows.skipSpace_cut (commaSep_opens second.visible texts _) later,
        ih torn second here' later (by rw [List.length_append]; omega)]
      rfl

/-- An array that was cut short. -/
theorem torn_array {vs : List Value} {texts : List (List Char)} (each : List.Forall₂ Writes vs texts)
    (torn : ∀ text ∈ texts, Torn w text) : Torn w ('[' :: (commaSep texts ++ [']'])) := by
  intro q r whole inside n enough v rest read
  by_cases cut : r = []
  · rw [cut, List.append_nil] at whole
    rw [← whole] at enough read
    exact (writes_array each).torn_whole follows enough read
  obtain ⟨c, q, rfl⟩ := List.exists_cons_of_ne_nil inside
  obtain ⟨rfl, behind⟩ := List.cons.inj whole
  rw [List.cons_append, List.length_cons] at enough
  obtain ⟨n, rfl⟩ : ∃ m, n = m + 1 := ⟨n - 1, by omega⟩
  have brace : w.head? ≠ some ']' := by
    obtain ⟨k, c, tail, rfl, -⟩ := follows.opens
    rintro ⟨⟩
  suffices nothing : parseValue (n + 1) ('[' :: q ++ w) = none by
    rw [nothing] at read
    cases read
  by_cases start : q = []
  · subst start
    refine parseValue_bracket follows.stuck.skipSpace brace ?_
    obtain ⟨m, rfl⟩ : ∃ m, n = m + 1 := ⟨n - 1, by omega⟩
    exact parseItems_broken fun v rest read => follows.ends m v rest (by rw [List.nil_append] at enough; omega) read
  cases each with
  | nil =>
    -- an array of nothing is not cut behind its bracket
    obtain ⟨c, q, rfl⟩ := List.exists_cons_of_ne_nil start
    exact absurd (List.append_eq_nil_iff.mp (List.cons.inj behind).2.symm).2 cut
  | @cons v' text vs texts first each =>
    obtain ⟨here, torn⟩ := List.forall_mem_cons.mp torn
    refine parseValue_bracket (follows.skipSpace_cut (commaSep_opens first.visible texts _) behind) ?_
      (parseItems_torn follows each torn first here behind cut (by omega))
    obtain ⟨c, tail, rfl, other, -⟩ := first.opens
    obtain ⟨others, split, -⟩ := commaSep_cons (c :: tail) texts
    obtain ⟨d, q, rfl⟩ := List.exists_cons_of_ne_nil start
    rw [split] at behind
    obtain ⟨rfl, -⟩ := List.cons.inj behind
    rintro ⟨⟩
    simp at other

end

/-! ## Objects -/

/-- The text of a member, and of its value when it is cut short. -/
def TornMember (escape : Char → List Char) (w : List Char) (f : PyString × Value) (text : List Char) : Prop :=
  ∃ k body, f.1 = ofString k ∧ text = compactString escape f.1 ++ ':' :: body ∧ Writes f.2 body ∧ Torn w body

theorem TornMember.writes {escape : Char → List Char} {w : List Char} {f : PyString × Value} {text : List Char}
    (member : TornMember escape w f text) : WritesMember escape f text := by
  obtain ⟨k, body, key, same, writes, -⟩ := member
  exact ⟨k, body, key, same, writes⟩

theorem TornMember.visible {escape : Char → List Char} {w : List Char} {f : PyString × Value} {text : List Char}
    (member : TornMember escape w f text) : ∃ c tail, text = c :: tail ∧ isSpace c = false := by
  obtain ⟨k, body, -, rfl, -⟩ := member
  exact ⟨'"', _, rfl, by decide⟩

/-- An object does not go on behind a key that was cut short. -/
theorem parseMembers_broken_key {n : Nat} {src : List Char} (broken : ∀ k rest, stringBody src = some (k, rest) → Stuck rest) :
    parseMembers (n + 1) ('"' :: src) = none := by
  rw [parseMembers]
  split
  · rfl
  · rename_i k rest read
    split
    · rename_i same
      exact absurd same ((show Broken rest from .inr (broken k rest read)).skipSpace_ne (by decide) _)
    · rfl

/-- An object does not go on behind a value that was cut short. -/
theorem parseMembers_broken_value {n : Nat} {src rest : List Char} {k : PyString} (key : stringBody src = some (k, ':' :: rest))
    (broken : ∀ v more, parseValue n (skipSpace rest) = some (v, more) → Broken more) :
    parseMembers (n + 1) ('"' :: src) = none := by
  rw [parseMembers, key]
  simp only [skipSpace_head (c := ':') rfl]
  split
  · rfl
  · rename_i v more read
    split
    · rename_i same
      exact absurd same ((broken v more read).skipSpace_ne (by decide) _)
    · rename_i same
      exact absurd same ((broken v more read).skipSpace_ne (by decide) _)
    · rfl

theorem parseMembers_brace (n : Nat) (tail : List Char) : parseMembers n ('{' :: tail) = none := by
  cases n with
  | zero => rfl
  | succ n =>
    rw [parseMembers]
    rintro _ ⟨⟩

section

variable {escape : Char → List Char} (escapes : Escapes escape) {w : List Char} (follows : Follows w)

include escapes follows

/-- A member that was cut short. -/
theorem parseMembers_cut {f : PyString × Value} {text q more : List Char} (member : TornMember escape w f text)
    (inside : text = q ++ more) {n : Nat} (enough : 2 * (q ++ w).length ≤ n) : parseMembers (n + 1) (q ++ w) = none := by
  obtain ⟨key, v⟩ := f
  obtain ⟨k, body, rfl : key = ofString k, rfl, writes, torn⟩ := member
  cases q with
  | nil =>
    obtain ⟨_, _, _, rfl, -⟩ := follows.opens
    exact parseMembers_brace _ _
  | cons c q =>
    obtain rfl : '"' = c := (List.cons.inj inside).1
    rcases List.append_eq_append_iff.mp inside with ⟨between, same, behind⟩ | ⟨between, same, -⟩
    · cases between with
      | nil => exact parseMembers_broken_key fun s rest read =>
        stringBody_torn_string follows escapes k (by rw [List.append_nil, same, List.append_nil]) read
      | cons c rest =>
        obtain ⟨rfl, cut⟩ := List.cons.inj behind
        obtain ⟨tail, quoted, read⟩ := stringBody_compactString escapes k (':' :: (rest ++ w))
        rw [same, List.append_assoc, List.cons_append, quoted]
        refine parseMembers_broken_value read fun v more found => ?_
        rw [follows.skipSpace_cut writes.visible cut] at found
        refine follows.broken_value torn cut ?_ v more found
        have lengths := congrArg List.length same
        simp only [List.length_append, List.length_cons] at enough lengths ⊢
        omega
    · exact parseMembers_broken_key fun s rest read => stringBody_torn_string follows escapes k same read

/-- **The members of an object that was cut short are not read.** -/
theorem parseMembers_torn {fields : List (PyString × Value)} {texts : List (List Char)}
    (each : List.Forall₂ (TornMember escape w) fields texts) {f : PyString × Value} {text : List Char}
    (first : TornMember escape w f text) {q r : List Char} (whole : commaSep (text :: texts) ++ ['}'] = q ++ r)
    (cut : r ≠ []) {n : Nat} (enough : 2 * (q ++ w).length < n) : parseMembers n (q ++ w) = none := by
  induction each generalizing f text q n with
  | nil =>
    obtain ⟨n, rfl⟩ : ∃ m, n = m + 1 := ⟨n - 1, by omega⟩
    obtain ⟨more, inside⟩ | ⟨_, _, _, ⟨⟩, -⟩ := commaSep_cut whole cut
    exact parseMembers_cut escapes follows first inside (by omega)
  | @cons g next fields texts second each ih =>
    obtain ⟨n, rfl⟩ : ∃ m, n = m + 1 := ⟨n - 1, by omega⟩
    obtain ⟨more, inside⟩ | ⟨_, _, more, -, rfl, later⟩ := commaSep_cut whole cut
    · exact parseMembers_cut escapes follows first inside (by omega)
    · rw [List.length_append, List.length_append, List.length_cons] at enough
      rw [List.append_assoc, List.cons_append, parseMembers_compact escapes first.writes (by omega) (numberEnds_cons (by decide) _)]
      simp only [skipSpace_head (c := ',') rfl]
      rw [follows.skipSpace_cut (commaSep_opens second.visible texts _) later,
        ih second later (by rw [List.length_append]; omega)]
      rfl

/-- An object that was cut short. -/
theorem torn_object {fields : List (PyString × Value)} {texts : List (List Char)} (distinct : (fields.map Prod.fst).Nodup)
    (each : List.Forall₂ (TornMember escape w) fields texts) : Torn w ('{' :: (commaSep texts ++ ['}'])) := by
  intro q r whole inside n enough v rest read
  by_cases cut : r = []
  · rw [cut, List.append_nil] at whole
    rw [← whole] at enough read
    exact (writes_object escapes distinct (each.imp fun _ _ => TornMember.writes)).torn_whole follows enough read
  obtain ⟨c, q, rfl⟩ := List.exists_cons_of_ne_nil inside
  obtain ⟨rfl, behind⟩ := List.cons.inj whole
  rw [List.cons_append, List.length_cons] at enough
  obtain ⟨n, rfl⟩ : ∃ m, n = m + 1 := ⟨n - 1, by omega⟩
  suffices nothing : parseValue (n + 1) ('{' :: (q ++ w)) = none by
    rw [List.cons_append, nothing] at read
    cases read
  by_cases start : q = []
  · obtain ⟨_, _, _, rfl, -⟩ := follows.opens
    rw [start, List.nil_append, parseValue_object, skipSpace_head (by decide), parseMembers_brace]
    · rfl
    · rw [skipSpace_head (by decide)]
      rintro ⟨⟩
  cases each with
  | nil =>
    -- an object of nothing is not cut behind its brace
    obtain ⟨c, q, rfl⟩ := List.exists_cons_of_ne_nil start
    exact absurd (List.append_eq_nil_iff.mp (List.cons.inj behind).2.symm).2 cut
  | @cons f text fields texts first each =>
    have skip := follows.skipSpace_cut (commaSep_opens first.visible texts _) behind
    rw [parseValue_object, skip, parseMembers_torn escapes follows each first behind cut (by omega)]
    · rfl
    · obtain ⟨d, q, rfl⟩ := List.exists_cons_of_ne_nil start
      obtain ⟨k, body, -, rfl, -⟩ := first
      obtain ⟨others, split, -⟩ := commaSep_cons (compactString escape f.1 ++ ':' :: body) texts
      rw [split] at behind
      obtain ⟨rfl, -⟩ := List.cons.inj behind
      rw [skip]
      rintro ⟨⟩

/-! ## Any value -/

/-- **Whatever value is written, the reader is stuck behind a text of it that was cut short.** -/
theorem torn_compact {v : Value} (dumpable : Dumpable v) : Torn w (compact escape v) := by
  induction dumpable with
  | null => exact torn_loose follows (@loose_of_all "null".toList (by decide))
  | bool b =>
    cases b
    · exact torn_loose follows (@loose_of_all "false".toList (by decide))
    · exact torn_loose follows (@loose_of_all "true".toList (by decide))
  | int n => exact torn_loose follows fun c member => loose_of_number (chars_number (.inl ⟨n, rfl⟩) c member)
  | float shape => exact torn_loose follows fun c member => loose_of_number (chars_number (.inr ⟨_, rfl, shape⟩) c member)
  | str s => exact torn_string follows escapes s
  | @arr vs items ih =>
    rw [compact]
    suffices each : List.Forall₂ Writes vs (compactItems escape vs) ∧ ∀ text ∈ compactItems escape vs, Torn w text from
      torn_array follows each.1 each.2
    induction vs with
    | nil => exact ⟨.nil, fun _ member => absurd member List.not_mem_nil⟩
    | cons v vs inner =>
      obtain ⟨dumpable, items⟩ := List.forall_mem_cons.mp items
      obtain ⟨here, later⟩ := List.forall_mem_cons.mp ih
      obtain ⟨written, torn⟩ := inner items later
      exact ⟨.cons (writes_compact escapes dumpable) written, List.forall_mem_cons.mpr ⟨here, torn⟩⟩
  | @obj fields distinct keys values ih =>
    rw [compact]
    refine torn_object escapes follows distinct ?_
    clear distinct
    induction fields with
    | nil => exact .nil
    | cons f fields inner =>
      obtain ⟨⟨k, key⟩, keys⟩ := List.forall_mem_cons.mp keys
      obtain ⟨dumpable, values⟩ := List.forall_mem_cons.mp values
      obtain ⟨here, later⟩ := List.forall_mem_cons.mp ih
      exact .cons ⟨k, _, key, rfl, writes_compact escapes dumpable, here⟩ (inner keys values later)

end

/-! ## Objects that follow each other -/

/-- The text of an object whose first key does not look like a part of a list. -/
def OpensObject (text : List Char) : Prop :=
  ∃ c tail, text = '{' :: '"' :: c :: tail ∧ c ∉ [',', '}', ']', ':'] ∧ isSpace c = false

theorem opensObject_compact {escape : Char → List Char} (escapes : Escapes escape) {k : String} {c : Char} {cs : List Char}
    (key : k.toList = c :: cs) (other : c ∉ [',', '}', ']', ':']) (visible : isSpace c = false) (v : Value)
    (fields : List (PyString × Value)) : OpensObject (compact escape (.obj ((ofString k, v) :: fields))) := by
  have head : ∃ d more, escape c = d :: more ∧ d ∉ [',', '}', ']', ':'] ∧ isSpace d = false := by
    have stands := escapes c
    generalize escape c = text at stands ⊢
    cases stands with
    | plain => exact ⟨c, [], rfl, other, visible⟩
    | short => exact ⟨'\\', _, rfl, by decide, by decide⟩
    | unicode => exact ⟨'\\', _, rfl, by decide, by decide⟩
    | pair => exact ⟨'\\', _, rfl, by decide, by decide⟩
  obtain ⟨d, more, text, other, visible⟩ := head
  obtain ⟨tail, split, -⟩ := commaSep_cons (compactString escape (ofString k) ++ ':' :: compact escape v) (compactMembers escape fields)
  obtain ⟨inner, quoted⟩ : ∃ inner, compactString escape (ofString k) = '"' :: d :: inner := by
    rw [compactString, ofString, key, List.map_cons, List.flatMap_cons]
    dsimp only
    rw [text]
    exact ⟨_, rfl⟩
  rw [quoted] at split
  rw [compact, compactMembers, quoted, split]
  exact ⟨d, _, rfl, other, visible⟩

theorem Writes.follows {v : Value} {text : List Char} (writes : Writes v text) (opens : OpensObject text) : Follows text where
  opens := by
    obtain ⟨c, tail, rfl, other⟩ := opens
    exact ⟨0, c, tail, rfl, other⟩
  ends n v' rest enough read := by
    have whole := writes.reads n [] (by omega) (by rintro _ ⟨⟩)
    rw [List.append_nil, read] at whole
    cases whole
    exact .inl rfl

/-- A text that was cut short may follow another one. -/
theorem Follows.cut {w text q r : List Char} (follows : Follows w) (torn : Torn w text) (opens : OpensObject text)
    (whole : text = q ++ r) (inside : q ≠ []) : Follows (q ++ w) where
  opens := by
    obtain ⟨c, tail, rfl, other⟩ := opens
    obtain ⟨k, d, more, rfl, other'⟩ := follows.opens
    obtain ⟨a, q, rfl⟩ := List.exists_cons_of_ne_nil inside
    obtain ⟨rfl, behind⟩ := List.cons.inj whole
    cases q with
    | nil => exact ⟨k + 1, d, more, rfl, other'⟩
    | cons b q =>
      obtain ⟨rfl, behind'⟩ := List.cons.inj behind
      cases q with
      | nil => exact ⟨0, '{', _, rfl, by decide, by decide⟩
      | cons e q =>
        obtain ⟨rfl, -⟩ := List.cons.inj behind'
        exact ⟨0, c, _, rfl, other⟩
  ends n v rest enough read := .inr (torn q r whole inside n enough v rest read)

/-- **A text that was cut short, and another one behind it, are no JSON text.** -/
theorem loads_torn {w text q r : List Char} (follows : Follows w) (torn : Torn w text) (opens : OpensObject text)
    (whole : text = q ++ r) (inside : q ≠ []) : loads (String.ofList (q ++ w)) = none := by
  have skip : skipSpace (q ++ w) = q ++ w := by
    obtain ⟨c, tail, same, -⟩ := opens
    exact follows.skipSpace_cut ⟨'{', _, same, by decide⟩ whole
  rw [loads, String.toList_ofList, skip]
  split
  · rfl
  · split
    · rename_i v rest read
      have stuck := torn q r whole inside _ (by omega) v rest read
      rw [stuck.skipSpace, if_neg]
      obtain ⟨c, tail, rfl, -⟩ := stuck
      exact List.cons_ne_nil c tail
    · rfl

end McpSsh.Json
