import McpSsh.Json.Value
import McpSsh.Toml.Plain

/-!
# What is written is read back

`loads` after `dumps`, for values whose strings have no surrogates, whose keys are
distinct and whose floats are numbers. Induction is on the value; a written value takes
no more turns than its text has characters.
-/

set_option autoImplicit false

namespace McpSsh.Json

open Toml (isDigit isHexDigit digitValue digitsValue)

/-! ## Strings -/

theorem hexDigit_spec : ∀ d < 16, isHexDigit (hexDigit d) = true ∧ digitValue (hexDigit d) = d ∧ hexDigit d ≠ '_' := by
  decide

/-- The four digits of an escape. -/
theorem digitsValue_hex {n : Nat} (small : n < 65536) :
    digitsValue 16 [hexDigit (n / 4096), hexDigit (n / 256 % 16), hexDigit (n / 16 % 16), hexDigit (n % 16)] = n := by
  obtain ⟨-, v₃, u₃⟩ := hexDigit_spec (n / 4096) (by omega)
  obtain ⟨-, v₂, u₂⟩ := hexDigit_spec (n / 256 % 16) (by omega)
  obtain ⟨-, v₁, u₁⟩ := hexDigit_spec (n / 16 % 16) (by omega)
  obtain ⟨-, v₀, u₀⟩ := hexDigit_spec (n % 16) (by omega)
  simp only [digitsValue, List.foldl_cons, List.foldl_nil, if_neg u₃, if_neg u₂, if_neg u₁, if_neg u₀, v₃, v₂, v₁, v₀]
  omega

theorem stringBody_unicodeEscape {n : Nat} (small : n < 65536) (tail : List Char) :
    stringBody (unicodeEscape n ++ tail) = (stringBody tail).map fun r => (joined (pointOf n) r.1, r.2) := by
  have hex : [hexDigit (n / 4096), hexDigit (n / 256 % 16), hexDigit (n / 16 % 16), hexDigit (n % 16)].all isHexDigit =
      true := by
    simp only [List.all_cons, List.all_nil, Bool.and_true, Bool.and_eq_true]
    exact ⟨(hexDigit_spec _ (by omega)).1, (hexDigit_spec _ (by omega)).1, (hexDigit_spec _ (by omega)).1,
      (hexDigit_spec _ (by omega)).1⟩
  simp only [unicodeEscape, List.cons_append, List.nil_append]
  rw [stringBody, if_neg (by decide), if_pos rfl]
  simp only [hex, if_true, digitsValue_hex small]

theorem joined_low {lo : Nat} (low : 0xdc00 ≤ lo) (s : PyString) : joined (.surrogate lo) s = .surrogate lo :: s := by
  cases s with
  | nil => rfl
  | cons p s =>
    cases p with
    | char c => rfl
    | surrogate n => exact if_neg fun both => by omega

theorem joined_pair {hi lo : Nat} (high : hi < 0xdc00) (low : 0xdc00 ≤ lo) (s : PyString) :
    joined (.surrogate hi) (.surrogate lo :: s) =
      .char (Char.ofNat (0x10000 + (hi - 0xd800) * 0x400 + (lo - 0xdc00))) :: s := if_pos ⟨high, low⟩

theorem stringBody_quote (rest : List Char) : stringBody ('"' :: rest) = some ([], rest) := by
  rw [stringBody.eq_def]
  rfl

theorem stringBody_plain {c : Char} (notQuote : c ≠ '"') (notBackslash : c ≠ '\\') (visible : ¬ c.toNat < 32)
    (rest : List Char) : stringBody (c :: rest) = (stringBody rest).map fun r => (.char c :: r.1, r.2) := by
  rw [stringBody.eq_def]
  simp only [if_neg notQuote, if_neg notBackslash, if_neg visible]

theorem toNat_lt (c : Char) : c.toNat < 0x110000 ∧ ¬ (0xd800 ≤ c.toNat ∧ c.toNat < 0xe000) := by
  have valid := c.valid
  simp only [UInt32.isValidChar, Nat.isValidChar] at valid
  have same : c.toNat = c.val.toNat := rfl
  omega

/-- **A written character is read back.** -/
theorem stringBody_writeChar (c : Char) (tail : List Char) :
    stringBody (writeChar c ++ tail) = (stringBody tail).map fun r => (.char c :: r.1, r.2) := by
  unfold writeChar
  split
  · rename_i s found
    have member := List.mem_of_find?_eq_some found
    have same : s.2 = c := by simpa using List.find?_some found
    subst same
    simp only [shortEscapes, List.mem_cons, List.not_mem_nil, or_false] at member
    obtain rfl | rfl | rfl | rfl | rfl | rfl | rfl := member <;> rfl
  · rename_i none_
    have other : ∀ s ∈ shortEscapes, s.2 ≠ c := by simpa using none_
    have notQuote : c ≠ '"' := fun same => other ('"', '"') (by simp [shortEscapes]) same.symm
    have notBackslash : c ≠ '\\' := fun same => other ('\\', '\\') (by simp [shortEscapes]) same.symm
    obtain ⟨small, scalar⟩ := toNat_lt c
    split
    · rename_i visible
      exact stringBody_plain notQuote notBackslash (by omega) tail
    · split
      · rename_i short
        rw [stringBody_unicodeEscape short]
        rw [pointOf, if_neg scalar, Char.ofNat_toNat]
        rfl
      · rename_i long
        -- a pair of surrogates
        rw [List.append_assoc, stringBody_unicodeEscape (by omega), stringBody_unicodeEscape (by omega), Option.map_map]
        have hi : pointOf (0xd800 + (c.toNat - 0x10000) / 0x400) = .surrogate (0xd800 + (c.toNat - 0x10000) / 0x400) :=
          if_pos (by omega)
        have lo : pointOf (0xdc00 + (c.toNat - 0x10000) % 0x400) = .surrogate (0xdc00 + (c.toNat - 0x10000) % 0x400) :=
          if_pos (by omega)
        have both : 0x10000 + (0xd800 + (c.toNat - 0x10000) / 0x400 - 0xd800) * 0x400 +
            (0xdc00 + (c.toNat - 0x10000) % 0x400 - 0xdc00) = c.toNat := by omega
        refine Option.map_congr fun r _ => ?_
        have apart := joined_low (show 0xdc00 ≤ 0xdc00 + (c.toNat - 0x10000) % 0x400 by omega) r.1
        rw [Function.comp_apply, hi, lo]
        dsimp only
        rw [apart, joined_pair (by omega) (by omega), both, Char.ofNat_toNat]

theorem stringBody_written (s : List Char) (rest : List Char) :
    stringBody ((s.map CodePoint.char).flatMap writePoint ++ '"' :: rest) = some (s.map .char, rest) := by
  induction s with
  | nil => exact stringBody_quote rest
  | cons c s ih =>
    rw [List.map_cons, List.flatMap_cons, List.append_assoc, writePoint, stringBody_writeChar, ih]
    rfl

/-- A written string is read back. -/
theorem stringBody_ofString (s : String) (rest : List Char) :
    stringBody ((ofString s).flatMap writePoint ++ '"' :: rest) = some (ofString s, rest) :=
  stringBody_written s.toList rest

/-! ## Numbers -/

/-- No number goes on here. -/
def NumberEnds (rest : List Char) : Prop := ∀ c, rest.head? = some c → isDigit c = false ∧ c ∉ ['.', 'e', 'E']

/-- The digits before the point: zero alone, or digits that do not start with zero. -/
def Whole (whole : List Char) : Prop :=
  whole = ['0'] ∨ whole ≠ [] ∧ (∀ c ∈ whole, isDigit c = true) ∧ whole.head? ≠ some '0'

def Fraction (fraction : List Char) : Prop :=
  fraction = [] ∨ ∃ digits, fraction = '.' :: digits ∧ digits ≠ [] ∧ ∀ c ∈ digits, isDigit c = true

def Exponent (exponent : List Char) : Prop :=
  exponent = [] ∨ ∃ e sign digits, exponent = e :: (sign ++ digits) ∧ (e = 'e' ∨ e = 'E') ∧
    sign ∈ [[], ['+'], ['-']] ∧ digits ≠ [] ∧ ∀ c ∈ digits, isDigit c = true

/-- The text of a number with a fraction or an exponent. -/
def FloatText (text : List Char) : Prop := ∃ minus whole fraction exponent,
  text = minus ++ (whole ++ (fraction ++ exponent)) ∧ minus ∈ [[], ['-']] ∧ Whole whole ∧ Fraction fraction ∧
    Exponent exponent ∧ ¬ (fraction = [] ∧ exponent = [])

theorem takeWhile_digits {digits rest : List Char} (all : ∀ c ∈ digits, isDigit c = true)
    (ends : ∀ c, rest.head? = some c → isDigit c = false) : (digits ++ rest).takeWhile isDigit = digits := by
  rw [List.takeWhile_append_of_pos all]
  cases rest with
  | nil => simp
  | cons c rest => simp [ends c rfl]

theorem wholePart_whole {whole rest : List Char} (shape : Whole whole)
    (ends : ∀ c, rest.head? = some c → isDigit c = false) : wholePart (whole ++ rest) = whole := by
  obtain rfl | ⟨some_, digits, head⟩ := shape
  · rfl
  · rw [wholePart.eq_2, takeWhile_digits digits ends]
    intro tail same
    cases whole with
    | nil => exact some_ rfl
    | cons c whole => exact head (congrArg List.head? same)

theorem fractionPart_fraction {fraction rest : List Char} (shape : Fraction fraction)
    (ends : fraction = [] → rest.head? ≠ some '.')
    (stops : ∀ c, rest.head? = some c → isDigit c = false) : fractionPart (fraction ++ rest) = fraction := by
  obtain rfl | ⟨digits, rfl, some_, all⟩ := shape
  · rw [List.nil_append, fractionPart.eq_2]
    intro tail same
    exact ends rfl (congrArg List.head? same)
  · rw [List.cons_append, fractionPart, takeWhile_digits all stops]
    simp [some_]

theorem exponentPart_exponent {exponent rest : List Char} (shape : Exponent exponent) (ends : NumberEnds rest) :
    exponentPart (exponent ++ rest) = exponent := by
  obtain rfl | ⟨e, sign, digits, rfl, letter, signed, some_, all⟩ := shape
  · cases rest with
    | nil => rfl
    | cons c rest =>
      obtain ⟨-, other⟩ := ends c rfl
      simp only [List.mem_cons, List.not_mem_nil, or_false, not_or] at other
      rw [List.nil_append, exponentPart]
      simp [other]
  · have stops : ∀ c, rest.head? = some c → isDigit c = false := fun c head => (ends c head).1
    have part : signPart (sign ++ digits ++ rest) = sign := by
      simp only [List.mem_cons, List.not_mem_nil, or_false] at signed
      obtain rfl | rfl | rfl := signed
      · cases digits with
        | nil => exact absurd rfl some_
        | cons d digits =>
          have digit := all d (by simp)
          rw [List.nil_append, List.cons_append, signPart.eq_3]
          · rintro _ ⟨⟩
            revert digit
            decide
          · rintro _ ⟨⟩
            revert digit
            decide
      · rfl
      · rfl
    rw [List.cons_append, exponentPart, part, List.append_assoc, List.drop_left, takeWhile_digits all stops]
    simp [letter, some_]

theorem head_digit {whole : List Char} (shape : Whole whole) : ∃ c tail, whole = c :: tail ∧ isDigit c = true := by
  obtain rfl | ⟨some_, digits, -⟩ := shape
  · exact ⟨'0', [], rfl, by decide⟩
  · obtain ⟨c, tail, rfl⟩ := List.exists_cons_of_ne_nil some_
    exact ⟨c, tail, rfl, digits c (by simp)⟩

/-- **The parts of a number are found again.** -/
theorem parseNumber_parts {minus whole fraction exponent rest : List Char} (sign : minus ∈ [[], ['-']])
    (first : Whole whole) (second : Fraction fraction) (third : Exponent exponent) (ends : NumberEnds rest) :
    parseNumber (minus ++ (whole ++ (fraction ++ (exponent ++ rest)))) =
      some (if fraction = [] ∧ exponent = [] then
          .int (if minus = [] then digitsValue 10 whole else -(digitsValue 10 whole : Int))
        else .float (String.ofList (minus ++ whole ++ fraction ++ exponent)), rest) := by
  obtain ⟨d, tail, rfl, digit⟩ := head_digit first
  have signed : minusPart (minus ++ (d :: tail ++ (fraction ++ (exponent ++ rest)))) = minus := by
    simp only [List.mem_cons, List.not_mem_nil, or_false] at sign
    obtain rfl | rfl := sign
    · rw [List.nil_append, List.cons_append, minusPart.eq_2]
      rintro _ ⟨⟩
      revert digit
      decide
    · rfl
  -- what comes after each part stops it
  have afterExponent : ∀ c, (exponent ++ rest).head? = some c → isDigit c = false ∧ c ≠ '.' := by
    obtain rfl | ⟨e, _, _, rfl, letter, -⟩ := third
    · intro c head
      obtain ⟨stop, other⟩ := ends c head
      exact ⟨stop, fun same => other (by simp [same])⟩
    · rintro _ ⟨⟩
      obtain rfl | rfl := letter <;> decide
  have afterFraction : ∀ c, (fraction ++ (exponent ++ rest)).head? = some c → isDigit c = false := by
    obtain rfl | ⟨_, rfl, -⟩ := second
    · exact fun c head => (afterExponent c head).1
    · rintro _ ⟨⟩
      decide
  have wholes := wholePart_whole first afterFraction
  have fractions := fractionPart_fraction second (fun _ head => (afterExponent _ head).2 rfl)
    (fun c head => (afterExponent c head).1)
  have exponents := exponentPart_exponent third ends
  simp only [parseNumber, signed, List.drop_left, wholes, fractions, exponents, List.cons_ne_nil, if_false]
  split
  · rfl
  · rfl

theorem whole_digits (n : Nat) : Whole (Nat.toDigits 10 n) := by
  rcases Nat.eq_zero_or_pos n with rfl | positive
  · exact .inl rfl
  · exact .inr ⟨Nat.toDigits_ne_nil, fun c => Toml.isDigit_digits, Toml.digits_head positive⟩

/-- A written integer is read back. -/
theorem parseNumber_int (n : Int) {rest : List Char} (ends : NumberEnds rest) :
    parseNumber ((toString n).toList ++ rest) = some (.int n, rest) := by
  have none_ : Fraction [] ∧ Exponent [] := ⟨.inl rfl, .inl rfl⟩
  obtain ⟨m, value, text⟩ | ⟨m, value, text⟩ := Toml.toList_toString_int n
  · have read := @parseNumber_parts [] _ _ _ _ (by simp) (whole_digits m) none_.1 none_.2 ends
    rw [text, value]
    simpa [Toml.digitsValue_digits] using read
  · have read := @parseNumber_parts ['-'] _ _ _ _ (by simp) (whole_digits m) none_.1 none_.2 ends
    rw [text, value]
    simpa [Toml.digitsValue_digits] using read

/-- A float is read back as it was written. -/
theorem parseNumber_float {literal : String} (shape : FloatText literal.toList) {rest : List Char}
    (ends : NumberEnds rest) : parseNumber (literal.toList ++ rest) = some (.float literal, rest) := by
  obtain ⟨minus, whole, fraction, exponent, text, sign, first, second, third, float⟩ := shape
  have read := parseNumber_parts sign first second third ends
  rw [if_neg float] at read
  have same : String.ofList (minus ++ whole ++ fraction ++ exponent) = literal := by
    rw [List.append_assoc, List.append_assoc, ← text, String.ofList_toList]
  rw [text, List.append_assoc, List.append_assoc, List.append_assoc, read, same]

theorem not_isPrefixOf {a b : Char} (different : a ≠ b) (as bs : List Char) :
    (a :: as).isPrefixOf (b :: bs) = false := by
  simp [List.isPrefixOf, different]

/-- A number does not start like another value. -/
theorem number_head {minus whole : List Char} (sign : minus ∈ [[], ['-']]) (first : Whole whole) (tail : List Char) :
    parseConstant (minus ++ (whole ++ tail)) = none ∧ ∃ c rest, minus ++ (whole ++ tail) = c :: rest ∧
      c ∉ ['"', '[', '{', ']', '\ufeff'] ∧ isSpace c = false := by
  obtain ⟨d, digits, rfl, digit⟩ := head_digit first
  have different : ∀ c, isDigit c = false → c ≠ d := fun c other => (Toml.digit_ne digit other).symm
  simp only [List.mem_cons, List.not_mem_nil, or_false] at sign
  obtain rfl | rfl := sign
  · refine ⟨?_, d, digits ++ tail, rfl, ?_, ?_⟩
    · rw [parseConstant, Option.map_eq_none_iff, List.find?_eq_none]
      intro c member
      rw [Bool.not_eq_true]
      simp only [constants, List.mem_cons, List.not_mem_nil, or_false] at member
      obtain rfl | rfl | rfl | rfl | rfl | rfl := member <;> exact not_isPrefixOf (different _ (by decide)) _ _
    · intro member
      simp only [List.mem_cons, List.not_mem_nil, or_false] at member
      obtain rfl | rfl | rfl | rfl | rfl := member <;> exact absurd digit (by decide)
    · have visible : ∀ c, isSpace c = true → isDigit c = false := by
        intro c space
        simp only [isSpace, Bool.or_eq_true, decide_eq_true_eq] at space
        obtain ((rfl | rfl) | rfl) | rfl := space <;> decide
      by_contra space
      rw [visible d (by simpa using space)] at digit
      cases digit
  · refine ⟨?_, '-', d :: (digits ++ tail), rfl, by decide, by decide⟩
    rw [parseConstant, Option.map_eq_none_iff, List.find?_eq_none]
    intro c member
    rw [Bool.not_eq_true]
    simp only [constants, List.mem_cons, List.not_mem_nil, or_false] at member
    obtain rfl | rfl | rfl | rfl | rfl | rfl := member
    case inr.inr.inr.inr.inr =>
      exact (congrArg (_ && ·) (not_isPrefixOf (different 'I' (by decide)) _ _)).trans (Bool.and_false _)
    all_goals exact not_isPrefixOf (by decide) _ _

/-! ## Values -/

/-- A value that is written and read back: no surrogates, distinct keys, and floats that
are numbers. -/
inductive Dumpable : Value → Prop where
  | null : Dumpable .null
  | bool (b : Bool) : Dumpable (.bool b)
  | int (n : Int) : Dumpable (.int n)
  | float {literal : String} (shape : FloatText literal.toList) : Dumpable (.float literal)
  | str (s : String) : Dumpable (.str (ofString s))
  | arr {vs : List Value} (items : ∀ v ∈ vs, Dumpable v) : Dumpable (.arr vs)
  | obj {fields : List (PyString × Value)} (distinct : (fields.map Prod.fst).Nodup)
      (keys : ∀ f ∈ fields, ∃ k, f.1 = ofString k) (values : ∀ f ∈ fields, Dumpable f.2) : Dumpable (.obj fields)

/-- The written value is read back, whatever follows it. -/
def ReadsBack (v : Value) : Prop :=
  ∀ n depth rest, (write depth v).length ≤ n → NumberEnds rest → parseValue n (write depth v ++ rest) = some (v, rest)

/-- The text of a number. -/
theorem write_number {v : Value} (depth : Nat)
    (number : (∃ n, v = .int n) ∨ ∃ literal : String, v = .float literal ∧ FloatText literal.toList) :
    ∃ minus whole tail, write depth v = minus ++ (whole ++ tail) ∧ minus ∈ [[], ['-']] ∧ Whole whole ∧
      ∀ rest, NumberEnds rest → parseNumber (write depth v ++ rest) = some (v, rest) := by
  obtain ⟨n, rfl⟩ | ⟨literal, rfl, shape⟩ := number
  · have read := fun rest => @parseNumber_int n rest
    simp only [write]
    obtain ⟨m, -, text⟩ | ⟨m, -, text⟩ := Toml.toList_toString_int n
    · exact ⟨[], _, [], by simpa using text, by simp, whole_digits m, read⟩
    · exact ⟨['-'], _, [], by simpa using text, by simp, whole_digits m, read⟩
  · have read := fun rest => @parseNumber_float literal shape rest
    simp only [write]
    obtain ⟨minus, whole, fraction, exponent, text, sign, first, -⟩ := shape
    exact ⟨minus, whole, _, text, sign, first, read⟩

/-- No value is written with white space or a closing bracket first. -/
theorem write_head {v : Value} (dumpable : Dumpable v) (depth : Nat) :
    ∃ c tail, write depth v = c :: tail ∧ c ∉ [']', '\ufeff'] ∧ isSpace c = false := by
  have number : ((∃ n, v = .int n) ∨ ∃ literal : String, v = .float literal ∧ FloatText literal.toList) →
      ∃ c tail, write depth v = c :: tail ∧ c ∉ [']', '\ufeff'] ∧ isSpace c = false := by
    intro number
    obtain ⟨minus, whole, tail, text, sign, first, -⟩ := write_number depth number
    obtain ⟨-, c, rest, head, other, visible⟩ := number_head sign first tail
    refine ⟨c, rest, text.trans head, fun member => other ?_, visible⟩
    simp only [List.mem_cons, List.not_mem_nil, or_false] at member ⊢
    tauto
  cases dumpable with
  | null => exact ⟨_, _, by rw [write]; rfl, by decide, by decide⟩
  | bool b => cases b <;> exact ⟨_, _, by rw [write]; rfl, by decide, by decide⟩
  | int n => exact number (.inl ⟨n, rfl⟩)
  | float shape => exact number (.inr ⟨_, rfl, shape⟩)
  | str s => exact ⟨_, _, by rw [write]; rfl, by decide, by decide⟩
  | @arr vs =>
    cases vs with
    | nil => exact ⟨_, _, by rw [write]; rfl, by decide, by decide⟩
    | cons v vs => exact ⟨_, _, by rw [write], by decide, by decide⟩
  | @obj fields => cases fields <;> exact ⟨_, _, by rw [write], by decide, by decide⟩

theorem skipSpace_head {c : Char} (visible : isSpace c = false) (tail : List Char) :
    skipSpace (c :: tail) = c :: tail := by
  simp [skipSpace, visible]

theorem skipSpace_newline (depth : Nat) (src : List Char) : skipSpace (newline depth ++ src) = skipSpace src := by
  have spaces : ∀ n, skipSpace (List.replicate n ' ' ++ src) = skipSpace src := by
    intro n
    rw [skipSpace, List.dropWhile_append_of_pos]
    · rfl
    · intro c member
      rw [List.eq_of_mem_replicate member]
      rfl
  exact spaces (2 * depth)

/-- White space before a written value is skipped, and no more. -/
theorem skipSpace_write {v : Value} (dumpable : Dumpable v) (depth : Nat) (rest : List Char) :
    skipSpace (write depth v ++ rest) = write depth v ++ rest := by
  obtain ⟨c, tail, text, -, visible⟩ := write_head dumpable depth
  rw [text, List.cons_append, skipSpace_head visible]

theorem numberEnds_cons {c : Char} (other : isDigit c = false ∧ c ∉ ['.', 'e', 'E']) (tail : List Char) :
    NumberEnds (c :: tail) := by
  rintro _ ⟨⟩
  exact other

theorem numberEnds_items (depth outer : Nat) (vs : List Value) (rest : List Char) :
    NumberEnds (writeItems depth vs ++ (newline outer ++ ']' :: rest)) := by
  cases vs with
  | nil => exact numberEnds_cons (by decide) _
  | cons v vs =>
    rw [writeItems]
    exact numberEnds_cons (by decide) _

/-- **The items of an array are read back** if each of them is. -/
theorem parseItems_write {vs : List Value} (depth outer : Nat) (rest : List Char) (dumpable : ∀ v ∈ vs, Dumpable v)
    (each : ∀ v ∈ vs, ReadsBack v) {v : Value} (first : ReadsBack v) {n : Nat}
    (enough : (write depth v ++ writeItems depth vs).length < n) :
    parseItems n (write depth v ++ (writeItems depth vs ++ (newline outer ++ ']' :: rest))) = some (v :: vs, rest) := by
  induction vs generalizing v n with
  | nil =>
    obtain ⟨n, rfl⟩ : ∃ m, n = m + 1 := ⟨n - 1, by omega⟩
    rw [List.length_append] at enough
    rw [parseItems, first n depth _ (by omega) (numberEnds_items depth outer [] rest)]
    dsimp only
    rw [writeItems, List.nil_append, skipSpace_newline]
    rfl
  | cons w vs ih =>
    obtain ⟨n, rfl⟩ : ∃ m, n = m + 1 := ⟨n - 1, by omega⟩
    rw [List.forall_mem_cons] at dumpable each
    rw [List.length_append] at enough
    rw [parseItems, first n depth _ (by omega) (numberEnds_items depth outer (w :: vs) rest)]
    rw [writeItems] at enough ⊢
    simp only [List.cons_append, List.append_assoc, skipSpace_head (c := ',') rfl, skipSpace_newline,
      skipSpace_write dumpable.1]
    rw [ih dumpable.2 each.2 each.1]
    · rfl
    · simp only [List.length_cons, List.length_append] at enough ⊢
      omega

theorem numberEnds_members (depth outer : Nat) (fields : List (PyString × Value)) (rest : List Char) :
    NumberEnds (writeMembers depth fields ++ (newline outer ++ '}' :: rest)) := by
  cases fields with
  | nil => exact numberEnds_cons (by decide) _
  | cons f fields =>
    rw [writeMembers]
    exact numberEnds_cons (by decide) _

theorem stringBody_writeString (k : String) (rest : List Char) :
    ∃ tail, writeString (ofString k) ++ rest = '"' :: tail ∧ stringBody tail = some (ofString k, rest) := by
  refine ⟨_, rfl, ?_⟩
  show stringBody (((ofString k).flatMap writePoint ++ ['"']) ++ rest) = _
  rw [List.append_assoc]
  exact stringBody_ofString k rest

/-- The first member of an object. -/
theorem parseMembers_first {v : Value} (dumpable : Dumpable v) (first : ReadsBack v) (k : String) (depth : Nat) {n : Nat}
    (enough : (write depth v).length ≤ n) {tail : List Char} (ends : NumberEnds tail) :
    parseMembers (n + 1) (writeString (ofString k) ++ (':' :: ' ' :: (write depth v ++ tail))) =
      match skipSpace tail with
      | ',' :: rest => (parseMembers n (skipSpace rest)).map fun r => ((ofString k, v) :: r.1, r.2)
      | '}' :: rest => some ([(ofString k, v)], rest)
      | _ => none := by
  obtain ⟨body, quoted, key⟩ := stringBody_writeString k (':' :: ' ' :: (write depth v ++ tail))
  have value : parseValue n (skipSpace (' ' :: (write depth v ++ tail))) = some (v, tail) := by
    have space : skipSpace (' ' :: (write depth v ++ tail)) = write depth v ++ tail := skipSpace_write dumpable depth tail
    rw [space]
    exact first n depth tail enough ends
  rw [quoted, parseMembers, key]
  simp only [skipSpace_head (c := ':') rfl]
  generalize parseValue n (skipSpace (' ' :: (write depth v ++ tail))) = found at value ⊢
  subst value
  rfl

theorem skipSpace_writeString (s : PyString) (rest : List Char) :
    skipSpace (writeString s ++ rest) = writeString s ++ rest := rfl

/-- **The members of an object are read back** if their values are. -/
theorem parseMembers_write {fields : List (PyString × Value)} (depth outer : Nat) (rest : List Char)
    (keys : ∀ f ∈ fields, ∃ k, f.1 = ofString k) (dumpable : ∀ f ∈ fields, Dumpable f.2)
    (each : ∀ f ∈ fields, ReadsBack f.2) {k : String} {v : Value} (firstDumpable : Dumpable v)
    (first : ReadsBack v) {n : Nat}
    (enough : (write depth v ++ writeMembers depth fields).length < n) :
    parseMembers n (writeString (ofString k) ++ (':' :: ' ' :: (write depth v ++
      (writeMembers depth fields ++ (newline outer ++ '}' :: rest))))) = some ((ofString k, v) :: fields, rest) := by
  induction fields generalizing k v n with
  | nil =>
    obtain ⟨n, rfl⟩ : ∃ m, n = m + 1 := ⟨n - 1, by omega⟩
    rw [List.length_append] at enough
    rw [parseMembers_first firstDumpable first k depth (by omega) (numberEnds_members depth outer [] rest)]
    rw [writeMembers, List.nil_append, skipSpace_newline]
    rfl
  | cons f fields ih =>
    obtain ⟨n, rfl⟩ : ∃ m, n = m + 1 := ⟨n - 1, by omega⟩
    rw [List.forall_mem_cons] at keys dumpable each
    obtain ⟨key, value⟩ := f
    obtain ⟨k', rfl⟩ : ∃ k', key = ofString k' := keys.1
    rw [List.length_append] at enough
    rw [parseMembers_first firstDumpable first k depth (by omega) (numberEnds_members depth outer _ rest)]
    rw [writeMembers] at enough ⊢
    simp only [List.cons_append, List.append_assoc, skipSpace_head (c := ',') rfl, skipSpace_newline,
      skipSpace_writeString]
    rw [ih keys.2 dumpable.2 each.2 dumpable.1 each.1]
    · rfl
    · simp only [List.length_cons, List.length_append] at enough ⊢
      omega

/-- Distinct keys stay in their order. -/
theorem foldl_put {done todo : List (PyString × Value)} (distinct : ((done ++ todo).map Prod.fst).Nodup) :
    todo.foldl put done = done ++ todo := by
  induction todo generalizing done with
  | nil => simp
  | cons member todo ih =>
    have fresh : member.1 ∉ done.map Prod.fst := by
      intro old
      rw [List.map_append, List.map_cons, List.nodup_append] at distinct
      exact distinct.2.2 _ old _ (List.mem_cons_self) rfl
    rw [List.foldl_cons, put, if_neg fresh, ih (by simpa using distinct)]
    simp

/-! ## Any value -/

theorem parseValue_other {c : Char} (other : c ∉ ['"', '[', '{']) (n : Nat) (tail : List Char) :
    parseValue (n + 1) (c :: tail) = (parseConstant (c :: tail)).or (parseNumber (c :: tail)) := by
  simp only [List.mem_cons, List.not_mem_nil, or_false, not_or] at other
  rw [parseValue]
  · rintro _ ⟨⟩
    exact other.1 rfl
  · rintro _ ⟨⟩
    exact other.2.1 rfl
  · rintro _ ⟨⟩
    exact other.2.2 rfl

theorem parseValue_array {src : List Char} (some_ : (skipSpace src).head? ≠ some ']') (n : Nat) :
    parseValue (n + 1) ('[' :: src) = (parseItems n (skipSpace src)).map fun r => (.arr r.1, r.2) := by
  rw [parseValue]
  split
  · rename_i rest same
    rw [same] at some_
    exact absurd rfl some_
  · rfl

theorem parseValue_object {src : List Char} (some_ : (skipSpace src).head? ≠ some '}') (n : Nat) :
    parseValue (n + 1) ('{' :: src) = (parseMembers n (skipSpace src)).map fun r => (.obj (r.1.foldl put []), r.2) := by
  rw [parseValue]
  split
  · rename_i rest same
    rw [same] at some_
    exact absurd rfl some_
  · rfl

theorem readsBack_number {v : Value}
    (number : (∃ n, v = .int n) ∨ ∃ literal : String, v = .float literal ∧ FloatText literal.toList) : ReadsBack v := by
  intro n depth rest enough ends
  obtain ⟨minus, whole, tail, text, sign, first, read⟩ := write_number depth number
  have found := read rest ends
  rw [text, List.append_assoc, List.append_assoc] at found
  obtain ⟨none_, c, more, head, other, -⟩ := number_head sign first (tail ++ rest)
  obtain ⟨n, rfl⟩ : ∃ m, n = m + 1 := by
    refine ⟨n - 1, ?_⟩
    obtain ⟨d, digits, rfl, -⟩ := head_digit first
    rw [text] at enough
    simp only [List.length_append, List.length_cons] at enough
    omega
  rw [text, List.append_assoc, List.append_assoc, head, parseValue_other, ← head, none_, found]
  · rfl
  · intro member
    apply other
    simp only [List.mem_cons, List.not_mem_nil, or_false] at member ⊢
    tauto

theorem readsBack_array {vs : List Value} (items : ∀ v ∈ vs, Dumpable v) (each : ∀ v ∈ vs, ReadsBack v) :
    ReadsBack (.arr vs) := by
  intro n depth rest enough ends
  cases vs with
  | nil =>
    obtain ⟨n, rfl⟩ : ∃ m, n = m + 1 := ⟨n - 1, by simp [write] at enough; omega⟩
    rw [write]
    rfl
  | cons v vs =>
    rw [List.forall_mem_cons] at items each
    rw [write] at enough ⊢
    obtain ⟨n, rfl⟩ : ∃ m, n = m + 1 := ⟨n - 1, by simp at enough; omega⟩
    have skip := (skipSpace_newline (depth + 1) _).trans (skipSpace_write items.1 (depth + 1)
      (writeItems (depth + 1) vs ++ (newline depth ++ ']' :: rest)))
    obtain ⟨c, tail, text, other, -⟩ := write_head items.1 (depth + 1)
    simp only [List.cons_append, List.append_assoc, List.nil_append]
    rw [parseValue_array, skip, parseItems_write (depth + 1) depth rest items.2 each.2 each.1]
    · rfl
    · simp only [List.length_cons, List.length_append] at enough ⊢
      omega
    · rw [skip, text]
      rintro ⟨⟩
      simp at other

theorem readsBack_object {fields : List (PyString × Value)} (distinct : (fields.map Prod.fst).Nodup)
    (keys : ∀ f ∈ fields, ∃ k, f.1 = ofString k) (values : ∀ f ∈ fields, Dumpable f.2)
    (each : ∀ f ∈ fields, ReadsBack f.2) : ReadsBack (.obj fields) := by
  intro n depth rest enough ends
  cases fields with
  | nil =>
    obtain ⟨n, rfl⟩ : ∃ m, n = m + 1 := ⟨n - 1, by simp [write] at enough; omega⟩
    rw [write]
    rfl
  | cons f fields =>
    have order := @foldl_put [] _ distinct
    rw [List.forall_mem_cons] at keys values each
    obtain ⟨key, v⟩ := f
    obtain ⟨k, rfl⟩ : ∃ k, key = ofString k := keys.1
    rw [write] at enough ⊢
    obtain ⟨n, rfl⟩ : ∃ m, n = m + 1 := ⟨n - 1, by simp at enough; omega⟩
    simp only [List.cons_append, List.append_assoc, List.nil_append]
    rw [parseValue_object, skipSpace_newline, skipSpace_writeString,
      parseMembers_write (depth + 1) depth rest keys.2 values.2 each.2 values.1 each.1, Option.map_some, order]
    · rfl
    · simp only [List.length_cons, List.length_append] at enough ⊢
      omega
    · rw [skipSpace_newline, skipSpace_writeString]
      rintro ⟨⟩

/-- **A dumpable value is read back.** -/
theorem readsBack_of_dumpable {v : Value} (dumpable : Dumpable v) : ReadsBack v := by
  induction dumpable with
  | int n => exact readsBack_number (.inl ⟨n, rfl⟩)
  | float shape => exact readsBack_number (.inr ⟨_, rfl, shape⟩)
  | null =>
    intro n depth rest enough ends
    obtain ⟨n, rfl⟩ : ∃ m, n = m + 1 := ⟨n - 1, by simp [write] at enough; omega⟩
    rw [write]
    exact parseValue_other (by decide) n _
  | bool b =>
    intro n depth rest enough ends
    obtain ⟨n, rfl⟩ : ∃ m, n = m + 1 := ⟨n - 1, by cases b <;> simp [write] at enough <;> omega⟩
    cases b
    · rw [write]
      exact parseValue_other (by decide) n _
    · rw [write]
      exact parseValue_other (by decide) n _
  | str s =>
    intro n depth rest enough ends
    rw [write] at enough ⊢
    obtain ⟨n, rfl⟩ : ∃ m, n = m + 1 := ⟨n - 1, by simp [writeString] at enough; omega⟩
    obtain ⟨body, quoted, read⟩ := stringBody_writeString s rest
    rw [quoted, parseValue, read]
    rfl
  | arr items ih => exact readsBack_array items ih
  | obj distinct keys values ih => exact readsBack_object distinct keys values ih

/-- **`json.loads` reads what `json.dumps` wrote.** -/
theorem loads_dumps {v : Value} (dumpable : Dumpable v) : loads (dumps v) = some v := by
  obtain ⟨c, tail, text, other, visible⟩ := write_head dumpable 0
  have read := readsBack_of_dumpable dumpable (2 * (write 0 v).length + 2) 0 [] (by omega) (by rintro _ ⟨⟩)
  rw [List.append_nil] at read
  have mark : (write 0 v).head? ≠ some '\ufeff' := by
    rw [text]
    rintro ⟨⟩
    simp at other
  have start := skipSpace_write dumpable 0 []
  rw [List.append_nil] at start
  rw [loads, dumps, String.toList_ofList, if_neg mark, start, read]
  rfl

/-! ## Keys -/

/-- No object of the value has a key twice. -/
inductive Distinct : Value → Prop where
  | null : Distinct .null
  | bool (b : Bool) : Distinct (.bool b)
  | int (n : Int) : Distinct (.int n)
  | float (literal : String) : Distinct (.float literal)
  | str (s : PyString) : Distinct (.str s)
  | arr {vs : List Value} (items : ∀ v ∈ vs, Distinct v) : Distinct (.arr vs)
  | obj {fields : List (PyString × Value)} (keys : (fields.map Prod.fst).Nodup)
      (values : ∀ f ∈ fields, Distinct f.2) : Distinct (.obj fields)

theorem keys_put {fields : List (PyString × Value)} (distinct : (fields.map Prod.fst).Nodup)
    (member : PyString × Value) : ((put fields member).map Prod.fst).Nodup := by
  unfold put
  split
  · have same : (fields.map fun f => if f.1 = member.1 then member else f).map Prod.fst = fields.map Prod.fst := by
      rw [List.map_map]
      refine List.map_congr_left fun f _ => ?_
      by_cases here : f.1 = member.1 <;> simp [here]
    rw [same]
    exact distinct
  · rename_i fresh
    rw [List.map_append, List.nodup_append]
    refine ⟨distinct, by simp, ?_⟩
    rintro k old _ new rfl
    obtain rfl : k = member.1 := by simpa using new
    exact fresh old

theorem mem_put {fields : List (PyString × Value)} {member f : PyString × Value} (inside : f ∈ put fields member) :
    f ∈ fields ∨ f = member := by
  unfold put at inside
  split at inside
  · obtain ⟨g, old, rfl⟩ := List.mem_map.mp inside
    by_cases here : g.1 = member.1
    · exact .inr (if_pos here)
    · rw [if_neg here]
      exact .inl old
  · simpa using inside

theorem distinct_foldl_put {fields members : List (PyString × Value)} (keys : (fields.map Prod.fst).Nodup)
    (old : ∀ f ∈ fields, Distinct f.2) (new : ∀ m ∈ members, Distinct m.2) :
    Distinct (.obj (members.foldl put fields)) := by
  induction members generalizing fields with
  | nil => exact .obj keys old
  | cons m members ih =>
    rw [List.forall_mem_cons] at new
    refine ih (keys_put keys m) (fun f inside => ?_) new.2
    obtain there | rfl := mem_put inside
    · exact old f there
    · exact new.1

theorem distinct_constant {src rest : List Char} {v : Value} (read : parseConstant src = some (v, rest)) : Distinct v := by
  obtain ⟨c, found, same⟩ := Option.map_eq_some_iff.mp read
  obtain ⟨rfl, -⟩ := Prod.mk.inj same
  have member := List.mem_of_find?_eq_some found
  simp only [constants, List.mem_cons, List.not_mem_nil, or_false] at member
  obtain rfl | rfl | rfl | rfl | rfl | rfl := member
  · exact .null
  · exact .bool true
  · exact .bool false
  · exact .float _
  · exact .float _
  · exact .float _

theorem distinct_number {src rest : List Char} {v : Value} (read : parseNumber src = some (v, rest)) : Distinct v := by
  unfold parseNumber at read
  dsimp only at read
  split at read
  · cases read
  split at read
  · obtain ⟨rfl, -⟩ := Prod.mk.inj (Option.some.inj read)
    exact .int _
  · obtain ⟨rfl, -⟩ := Prod.mk.inj (Option.some.inj read)
    exact .float _

/-- What the three parsers read with some fuel has distinct keys. -/
structure ReadsDistinct (n : Nat) : Prop where
  value : ∀ src v rest, parseValue n src = some (v, rest) → Distinct v
  items : ∀ src vs rest, parseItems n src = some (vs, rest) → ∀ v ∈ vs, Distinct v
  members : ∀ src ms rest, parseMembers n src = some (ms, rest) → ∀ m ∈ ms, Distinct m.2

section

variable {n : Nat} (reads : ReadsDistinct n) {src rest : List Char}

include reads

theorem distinct_parseValue {v : Value} (read : parseValue (n + 1) src = some (v, rest)) : Distinct v := by
  rw [parseValue.eq_def] at read
  dsimp only at read
  split at read
  · obtain ⟨r, -, same⟩ := Option.map_eq_some_iff.mp read
    obtain ⟨rfl, -⟩ := Prod.mk.inj same
    exact .str _
  · split at read
    · obtain ⟨rfl, -⟩ := Prod.mk.inj (Option.some.inj read)
      exact .arr (by simp)
    · obtain ⟨r, inner, same⟩ := Option.map_eq_some_iff.mp read
      obtain ⟨rfl, -⟩ := Prod.mk.inj same
      exact .arr (reads.items _ _ _ inner)
  · split at read
    · obtain ⟨rfl, -⟩ := Prod.mk.inj (Option.some.inj read)
      exact .obj (by simp) (by simp)
    · obtain ⟨r, inner, same⟩ := Option.map_eq_some_iff.mp read
      obtain ⟨rfl, -⟩ := Prod.mk.inj same
      exact distinct_foldl_put (by simp) (by simp) (reads.members _ _ _ inner)
  · obtain constant | ⟨-, number⟩ := Option.or_eq_some_iff.mp read
    · exact distinct_constant constant
    · exact distinct_number number

theorem distinct_parseItems {vs : List Value} (read : parseItems (n + 1) src = some (vs, rest)) : ∀ v ∈ vs, Distinct v := by
  rw [parseItems.eq_def] at read
  dsimp only at read
  split at read
  · cases read
  rename_i v after first
  have here := reads.value _ _ _ first
  split at read
  · obtain ⟨r, inner, same⟩ := Option.map_eq_some_iff.mp read
    obtain ⟨rfl, -⟩ := Prod.mk.inj same
    exact List.forall_mem_cons.mpr ⟨here, reads.items _ _ _ inner⟩
  · obtain ⟨rfl, -⟩ := Prod.mk.inj (Option.some.inj read)
    exact List.forall_mem_singleton.mpr here
  · cases read

theorem distinct_parseMembers {ms : List (PyString × Value)} (read : parseMembers (n + 1) src = some (ms, rest)) :
    ∀ m ∈ ms, Distinct m.2 := by
  rw [parseMembers.eq_def] at read
  dsimp only at read
  split at read
  swap
  · cases read
  split at read
  · cases read
  split at read
  swap
  · cases read
  split at read
  · cases read
  rename_i v after first
  have here := reads.value _ _ _ first
  split at read
  · obtain ⟨r, inner, same⟩ := Option.map_eq_some_iff.mp read
    obtain ⟨rfl, -⟩ := Prod.mk.inj same
    exact List.forall_mem_cons.mpr ⟨here, reads.members _ _ _ inner⟩
  · obtain ⟨rfl, -⟩ := Prod.mk.inj (Option.some.inj read)
    exact List.forall_mem_singleton.mpr here
  · cases read

end

/-- **A read value has distinct keys.** -/
theorem readsDistinct (n : Nat) : ReadsDistinct n := by
  induction n with
  | zero => exact ⟨by rintro _ _ _ ⟨⟩, by rintro _ _ _ ⟨⟩, by rintro _ _ _ ⟨⟩⟩
  | succ n ih =>
    exact ⟨fun _ _ _ => distinct_parseValue ih, fun _ _ _ => distinct_parseItems ih, fun _ _ _ => distinct_parseMembers ih⟩

theorem distinct_loads {text : String} {v : Value} (read : loads text = some v) : Distinct v := by
  unfold loads at read
  dsimp only at read
  split at read
  · cases read
  split at read
  · rename_i v' rest parsed
    obtain ⟨-, ⟨⟩⟩ := Option.ite_none_right_eq_some.mp read
    exact (readsDistinct _).value _ _ _ parsed
  · cases read

end McpSsh.Json
