import McpSsh.Toml.Document

/-!
# Plain text read back

Strings without quotes, backslashes and control characters, bare keys and decimal
integers are read as they are written. Each lemma leaves the source behind the
text arbitrary, up to the character that ends the token.
-/

set_option autoImplicit false

namespace McpSsh.Toml

/-- A character that stands for itself between double quotes. -/
def isPlainChar (c : Char) : Bool := c ≠ '"' && c ≠ '\\' && !isIllegal c

/-- A string that stands for itself between double quotes. -/
def isPlain (s : String) : Bool := s.toList.all isPlainChar

/-- A string that stands for itself as a part of a key. -/
def isBareKey (s : String) : Bool := !s.toList.isEmpty && s.toList.all isBareKeyChar

theorem isPlainChar_iff {c : Char} : isPlainChar c = true ↔ c ≠ '"' ∧ c ≠ '\\' ∧ isIllegal c = false := by
  simp [isPlainChar, and_assoc]

/-! ## Strings -/

theorem parseBasicStr_plain {s rest : List Char} {n : Nat} (plain : ∀ c ∈ s, isPlainChar c = true)
    (enough : s.length < n) : parseBasicStr false n (s ++ '"' :: rest) = .ok (s, rest) := by
  induction s generalizing n with
  | nil =>
    obtain ⟨n, rfl⟩ := Nat.exists_eq_succ_of_ne_zero (Nat.ne_of_gt enough)
    simp [parseBasicStr]
  | cons c s ih =>
    obtain ⟨n, rfl⟩ := Nat.exists_eq_succ_of_ne_zero (Nat.ne_of_gt (Nat.zero_lt_of_lt enough))
    obtain ⟨quote, escape, legal⟩ := isPlainChar_iff.mp (plain c (by simp))
    have tail := ih (n := n) (fun d member => plain d (by simp [member])) (by simpa using enough)
    rw [List.cons_append, parseBasicStr.eq_5 _ _ _ _ quote escape]
    simp [legal, tail, Except.map]

theorem parseOneLineBasicStr_plain {s : String} (plain : isPlain s = true) (rest : List Char) :
    parseOneLineBasicStr (s.toList ++ '"' :: rest) = .ok (s.toList, rest) := by
  apply parseBasicStr_plain (List.all_eq_true.mp plain)
  simp only [List.length_append, List.length_cons]
  omega

/-- A quoted plain string is that string, unless a third quote follows. -/
theorem parseValue_plain {s : String} (plain : isPlain s = true) {rest : List Char} (ends : rest.head? ≠ some '"')
    (n : Nat) : parseValue (n + 1) ('"' :: (s.toList ++ '"' :: rest)) = .ok (.str s, rest) := by
  rw [parseValue.eq_3]
  · simp [parseOneLineBasicStr_plain plain, Except.map]
  · -- three quotes in a row: the string would be empty and a quote would follow
    intro after three
    cases chars : s.toList with
    | nil =>
      rw [chars] at three
      simp only [List.nil_append, List.cons.injEq, true_and] at three
      simp [three] at ends
    | cons c cs =>
      rw [chars] at three
      simp only [List.cons_append, List.cons.injEq] at three
      have first := List.all_eq_true.mp plain c (by simp [chars])
      simp [three.1, isPlainChar] at first

/-! ## Keys -/

theorem bareKey_ne {c : Char} (bare : isBareKeyChar c = true) : c ≠ '"' ∧ c ≠ '\'' := by
  refine ⟨?_, ?_⟩ <;> rintro rfl <;> exact absurd bare (by decide)

theorem takeWhile_run {p : Char → Bool} {s rest : List Char} (all : ∀ c ∈ s, p c = true)
    (ends : ∀ c, rest.head? = some c → p c = false) :
    (s ++ rest).takeWhile p = s ∧ (s ++ rest).dropWhile p = rest := by
  induction s with
  | nil =>
    cases rest with
    | nil => simp
    | cons c rest => simp [ends c rfl]
  | cons c s ih =>
    have head := all c (by simp)
    have tail := ih fun d member => all d (by simp [member])
    simp [head, tail]

theorem isBareKey_iff {k : String} :
    isBareKey k = true ↔ k.toList ≠ [] ∧ ∀ c ∈ k.toList, isBareKeyChar c = true := by
  simp [isBareKey]

theorem isWs_bare {c : Char} (bare : isBareKeyChar c = true) : isWs c = false := by
  by_contra ws
  simp only [isWs, Bool.not_eq_false, Bool.or_eq_true, decide_eq_true_eq] at ws
  rcases ws with rfl | rfl <;> exact absurd bare (by decide)

/-- A bare key starts with a character that opens neither a string nor white space. -/
theorem bareKey_head {k : String} (bare : isBareKey k = true) :
    ∃ c cs, k.toList = c :: cs ∧ isBareKeyChar c = true := by
  obtain ⟨nonempty, all⟩ := isBareKey_iff.mp bare
  obtain ⟨c, cs, chars⟩ := List.exists_cons_of_ne_nil nonempty
  exact ⟨c, cs, chars, all c (by simp [chars])⟩

theorem parseKeyPart_bare {k : String} (bare : isBareKey k = true) (rest : List Char)
    (ends : ∀ c, rest.head? = some c → isBareKeyChar c = false) :
    parseKeyPart (k.toList ++ rest) = .ok (k, rest) := by
  obtain ⟨taken, dropped⟩ := takeWhile_run (isBareKey_iff.mp bare).2 ends
  obtain ⟨c, cs, chars, first⟩ := bareKey_head bare
  obtain ⟨quote, apostrophe⟩ := bareKey_ne first
  have restored : String.ofList (c :: cs) = k := by rw [← chars, String.ofList_toList]
  rw [parseKeyPart.eq_3, taken, dropped, chars]
  · simp [restored]
  · intro after same
    rw [chars] at same
    simp only [List.cons_append, List.cons.injEq] at same
    exact quote same.1
  · intro after same
    rw [chars] at same
    simp only [List.cons_append, List.cons.injEq] at same
    exact apostrophe same.1

/-- A bare key before ` = `. -/
theorem parseKey_bare {k : String} (bare : isBareKey k = true) (rest : List Char) (n : Nat) :
    parseKey (n + 1) (k.toList ++ ' ' :: '=' :: rest) = .ok ([k], '=' :: rest) := by
  have part := parseKeyPart_bare bare (' ' :: '=' :: rest) (by
    intro c first
    simp only [List.head?_cons, Option.some.injEq] at first
    rw [← first]
    decide)
  rw [parseKey]
  simp [part, bind, Except.bind, isWs, pure, Except.pure]

/-- A single bare key before a closing bracket. -/
theorem parseKey_section {k : String} (bare : isBareKey k = true) (rest : List Char) (n : Nat) :
    parseKey (n + 1) (k.toList ++ ']' :: rest) = .ok ([k], ']' :: rest) := by
  have part := parseKeyPart_bare bare (']' :: rest) (by
    intro c first
    simp only [List.head?_cons, Option.some.injEq] at first
    rw [← first]
    decide)
  rw [parseKey]
  simp [part, bind, Except.bind, isWs, pure, Except.pure]

/-- A dotted key of two bare parts before a closing bracket. -/
theorem parseKey_header {j k : String} (outer : isBareKey j = true) (inner : isBareKey k = true)
    (rest : List Char) (n : Nat) :
    parseKey (n + 2) (j.toList ++ '.' :: (k.toList ++ ']' :: rest)) = .ok ([j, k], ']' :: rest) := by
  have first := parseKeyPart_bare outer ('.' :: (k.toList ++ ']' :: rest)) (by
    intro c first
    simp only [List.head?_cons, Option.some.injEq] at first
    rw [← first]
    decide)
  have second := parseKeyPart_bare inner (']' :: rest) (by
    intro c first
    simp only [List.head?_cons, Option.some.injEq] at first
    rw [← first]
    decide)
  have stay : (k.toList ++ ']' :: rest).dropWhile isWs = k.toList ++ ']' :: rest := by
    obtain ⟨c, cs, chars, head⟩ := bareKey_head inner
    simp [chars, isWs_bare head]
  rw [parseKey]
  simp only [first, bind, Except.bind]
  rw [show ('.' :: (k.toList ++ ']' :: rest)).dropWhile isWs = '.' :: (k.toList ++ ']' :: rest) from by
    simp [isWs]]
  simp only [stay]
  rw [parseKey]
  simp [second, bind, Except.bind, isWs, pure, Except.pure]

/-! ## Decimal integers -/

theorem isDigit_digits {n : Nat} {c : Char} (member : c ∈ Nat.toDigits 10 n) : isDigit c = true :=
  Nat.isDigit_of_mem_toDigits (by decide) (by decide) member

theorem digit_ne {c d : Char} (digit : isDigit c = true) (other : isDigit d = false) : c ≠ d := by
  rintro rfl
  rw [digit] at other
  cases other

/-- The decimal digits of a positive number do not start with zero. -/
theorem digits_head {n : Nat} (positive : 0 < n) : (Nat.toDigits 10 n).head? ≠ some '0' := by
  induction n using Nat.strongRecOn with
  | ind n ih =>
    by_cases small : n < 10
    · have nonzero : ∀ d < 10, 0 < d → [Nat.digitChar d].head? ≠ some '0' := by decide
      rw [Nat.toDigits_of_lt_base small]
      exact nonzero n small positive
    · rw [Nat.toDigits_of_base_le (by decide) (by omega)]
      have shorter := ih (n / 10) (by omega) (by omega)
      cases digits : Nat.toDigits 10 (n / 10) with
      | nil => exact absurd digits Nat.toDigits_ne_nil
      | cons c cs => simpa [digits] using shorter

theorem digitsValue_digits (n : Nat) : digitsValue 10 (Nat.toDigits 10 n) = n := by
  have agree : ∀ (ds : List Char) (start : Nat), (∀ c ∈ ds, isDigit c = true) →
      ds.foldl (fun n c => if c = '_' then n else n * 10 + digitValue c) start = Nat.ofDigitChars 10 ds start := by
    intro ds
    induction ds with
    | nil => intro start _; rfl
    | cons c ds ih =>
      intro start digits
      have digit := digits c (by simp)
      have notUnderscore := digit_ne digit (d := '_') (by decide)
      have value : digitValue c = c.toNat - '0'.toNat := by simp [digitValue, digit]
      rw [List.foldl_cons, ih _ fun d member => digits d (by simp [member]), if_neg notUnderscore, value,
        Nat.mul_comm start 10]
      rfl
  rw [digitsValue, agree _ _ fun c => isDigit_digits, Nat.ofDigitChars_ten_toDigits]

theorem digitRun_digits {ds rest : List Char} (digits : ∀ c ∈ ds, isDigit c = true)
    (ends : ∀ c, rest.head? = some c → isDigit c = false ∧ c ≠ '_') : digitRun isDigit (ds ++ rest) = ds := by
  induction ds with
  | nil =>
    cases rest with
    | nil => rfl
    | cons c rest =>
      obtain ⟨stop, notUnderscore⟩ := ends c rfl
      rw [List.nil_append, digitRun.eq_2 _ _ _ fun _ _ same _ => notUnderscore same]
      simp [stop]
  | cons c ds ih =>
    have digit := digits c (by simp)
    have notUnderscore := digit_ne digit (d := '_') (by decide)
    rw [List.cons_append, digitRun.eq_2 _ _ _ fun _ _ same _ => notUnderscore same]
    simp [digit, ih fun d member => digits d (by simp [member])]

/-- Digits of a fixed width followed by `expected`: impossible inside a run of
digits that ends with a newline. -/
theorem fixedDigits_stop {n lo hi v : Nat} {ds rest after : List Char} (digits : ∀ c ∈ ds, isDigit c = true)
    (read : fixedDigits n lo hi (ds ++ '\n' :: rest) = some (v, after)) (expected : Char)
    (other : isDigit expected = false) (notNewline : expected ≠ '\n') : expectChar expected after = none := by
  simp only [fixedDigits, Option.ite_none_right_eq_some, Bool.and_eq_true, decide_eq_true_eq,
    Option.some.injEq, Prod.mk.injEq] at read
  obtain ⟨⟨⟨⟨length, allDigits⟩, -⟩, -⟩, -, rfl⟩ := read
  have within : n ≤ ds.length := by
    by_contra beyond
    have newline : '\n' ∈ (ds ++ '\n' :: rest).take n := by
      rw [List.take_append]
      obtain ⟨k, more⟩ := Nat.exists_eq_succ_of_ne_zero (show n - ds.length ≠ 0 by omega)
      simp [more]
    exact absurd (List.all_eq_true.mp allDigits _ newline) (by decide)
  rw [List.drop_append_of_le_length within]
  cases left : ds.drop n with
  | nil => simp [expectChar, notNewline]
  | cons c cs =>
    have digit := digits c (List.mem_of_mem_drop (i := n) (by simp [left]))
    simp [expectChar, (digit_ne digit other).symm]

theorem dateTime_digits {ds : List Char} (digits : ∀ c ∈ ds, isDigit c = true) (rest : List Char) :
    dateTime (ds ++ '\n' :: rest) = none := by
  rw [dateTime]
  cases year : fixedDigits 4 0 9999 (ds ++ '\n' :: rest) with
  | none => rfl
  | some r =>
    simp [fixedDigits_stop digits year '-' (by decide) (by decide)]

theorem clockTime_digits {ds : List Char} (digits : ∀ c ∈ ds, isDigit c = true) (rest : List Char) :
    clockTime (ds ++ '\n' :: rest) = none := by
  rw [clockTime]
  cases hour : fixedDigits 2 0 23 (ds ++ '\n' :: rest) with
  | none => rfl
  | some r =>
    simp [fixedDigits_stop digits hour ':' (by decide) (by decide)]

theorem fixedDigits_sign (n lo hi : Nat) (src : List Char) : fixedDigits (n + 1) lo hi ('-' :: src) = none := by
  simp [fixedDigits, show isDigit '-' = false from by decide]

theorem decimalPart_digits (n : Nat) (rest : List Char) :
    decimalPart (Nat.toDigits 10 n ++ '\n' :: rest) = some (Nat.toDigits 10 n) := by
  rcases Nat.eq_zero_or_pos n with rfl | positive
  · rfl
  · have head := digits_head positive
    cases digits : Nat.toDigits 10 n with
    | nil => exact absurd digits Nat.toDigits_ne_nil
    | cons c cs =>
      have digit : ∀ d ∈ c :: cs, isDigit d = true := fun d member => isDigit_digits (by rw [digits]; exact member)
      rw [List.cons_append, decimalPart.eq_2]
      · rw [numeral, digitRun_digits (fun d member => digit d (by simp [member])) (by simp; decide)]
        simp [digit c (by simp)]
      · intro tail same
        simp only [List.cons.injEq] at same
        simp [digits, same.1] at head

theorem prefixedInt_digits (n : Nat) (rest : List Char) : prefixedInt (Nat.toDigits 10 n ++ '\n' :: rest) = none := by
  rcases Nat.eq_zero_or_pos n with rfl | positive
  · rfl
  · have head := digits_head positive
    rw [prefixedInt.eq_2]
    intro x after same
    cases digits : Nat.toDigits 10 n with
    | nil => exact Nat.toDigits_ne_nil digits
    | cons c cs =>
      rw [digits] at same
      simp only [List.cons_append, List.cons.injEq] at same
      simp [digits, same.1] at head

theorem signPart_digits (n : Nat) (rest : List Char) :
    signPart (Nat.toDigits 10 n ++ rest) = ([], Nat.toDigits 10 n ++ rest) := by
  cases digits : Nat.toDigits 10 n with
  | nil => exact absurd digits Nat.toDigits_ne_nil
  | cons c cs =>
    have digit : isDigit c = true := isDigit_digits (by rw [digits]; simp)
    rw [signPart.eq_3]
    · intro after same
      simp only [List.cons_append, List.cons.injEq] at same
      exact digit_ne digit (d := '+') (by decide) same.1
    · intro after same
      simp only [List.cons_append, List.cons.injEq] at same
      exact digit_ne digit (d := '-') (by decide) same.1

/-- The text of an integer: its digits, behind a minus sign when it is negative. -/
theorem toList_toString_int (n : Int) :
    (∃ m : Nat, n = m ∧ (toString n).toList = Nat.toDigits 10 m) ∨
      ∃ m : Nat, n = -(m : Int) ∧ (toString n).toList = '-' :: Nat.toDigits 10 m := by
  cases n with
  | ofNat m => exact .inl ⟨m, rfl, Nat.toList_repr⟩
  | negSucc m =>
    refine .inr ⟨m + 1, Int.negSucc_eq m, ?_⟩
    rw [Int.toString_eq_repr, Int.repr, String.toList_append, Nat.toList_repr]
    rfl

theorem decimalNumber_digits (sign : List Char) (n : Nat) (rest : List Char) :
    decimalNumber sign (Nat.toDigits 10 n ++ '\n' :: rest) =
      some (.int (if sign = ['-'] then -(n : Int) else n), '\n' :: rest) := by
  have stop : (Nat.toDigits 10 n ++ '\n' :: rest).drop (Nat.toDigits 10 n).length = '\n' :: rest := List.drop_left
  simp [decimalNumber, decimalPart_digits, stop, fractionPart, exponentPart, digitsValue_digits]

/-- A decimal integer at the end of a line is that integer. -/
theorem parseOther_int (n : Int) (rest : List Char) :
    parseOther ((toString n).toList ++ '\n' :: rest) = .ok (.int n, '\n' :: rest) := by
  rcases toList_toString_int n with ⟨m, value, text⟩ | ⟨m, value, text⟩
  · have digits : ∀ c ∈ Nat.toDigits 10 m, isDigit c = true := fun c => isDigit_digits
    rw [text, value, parseOther, dateTime_digits digits, clockTime_digits digits, parseNumber,
      prefixedInt_digits, signPart_digits, decimalNumber_digits]
    simp
  · have noDate : ∀ src, dateTime ('-' :: src) = none := fun src => by
      simp [dateTime, fixedDigits_sign]
    have noTime : ∀ src, clockTime ('-' :: src) = none := fun src => by
      simp [clockTime, fixedDigits_sign]
    have noPrefix : ∀ src, prefixedInt ('-' :: src) = none := fun src => by
      rw [prefixedInt.eq_2]
      simp
    rw [text, value, List.cons_append, parseOther, noDate, noTime, parseNumber, noPrefix]
    simp [signPart, decimalNumber_digits]

/-- Integers are read by the last of the value rules. -/
theorem parseValue_int (n : Int) (rest : List Char) (fuel : Nat) :
    parseValue (fuel + 1) ((toString n).toList ++ '\n' :: rest) = .ok (.int n, '\n' :: rest) := by
  have head : ∃ c cs, (toString n).toList = c :: cs ∧ (c = '-' ∨ isDigit c = true) := by
    rcases toList_toString_int n with ⟨m, -, text⟩ | ⟨m, -, text⟩
    · obtain ⟨c, cs, chars⟩ := List.exists_cons_of_ne_nil (Nat.toDigits_ne_nil (n := m) (b := 10))
      exact ⟨c, cs, text.trans chars, .inr (isDigit_digits (n := m) (by simp [chars]))⟩
    · exact ⟨'-', _, text, .inl rfl⟩
  obtain ⟨c, cs, chars, first⟩ := head
  have differs : ∀ d, isDigit d = false → d ≠ '-' → ∀ tail, (toString n).toList ++ '\n' :: rest ≠ d :: tail := by
    intro d other notMinus tail same
    rw [chars, List.cons_append, List.cons.injEq] at same
    rcases first with minus | digit
    · exact notMinus (same.1.symm.trans minus)
    · exact digit_ne digit other same.1
  rw [parseValue.eq_10, parseOther_int]
  all_goals exact fun tail => differs _ (by decide) (by decide) _

end McpSsh.Toml
