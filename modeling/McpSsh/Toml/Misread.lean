import McpSsh.Base.Dict
import McpSsh.Toml.Section
import Mathlib.Data.List.TakeWhile

/-!
# Text that is not read as it is written

A string written between quotes as it is comes back as that string only when it is
plain. The reader may stop inside the string, or run over the closing quote into the
text behind it; a count of the places where a quote stands before two given
characters shows that what it then returns is another string.
-/

set_option autoImplicit false

namespace McpSsh.Toml

open Base

/-! ## Quotes before two characters -/

/-- The number of places where `"`, `a` and `c` stand in a row. -/
def quoteRuns (a c : Char) : List Char → Nat
  | [] => 0
  | d :: rest => (if d = '"' ∧ [a, c] <+: rest then 1 else 0) + quoteRuns a c rest

section

variable {a c : Char}

theorem quoteRuns_cons_ne {d : Char} (other : d ≠ '"') (rest : List Char) :
    quoteRuns a c (d :: rest) = quoteRuns a c rest := by
  simp [quoteRuns, other]

theorem quoteRuns_le_append (before rest : List Char) : quoteRuns a c rest ≤ quoteRuns a c (before ++ rest) := by
  induction before with
  | nil => exact Nat.le_refl _
  | cons d before ih =>
    rw [List.cons_append, quoteRuns]
    omega

theorem quoteRuns_append_of_not_mem {before : List Char} (none_ : '"' ∉ before) (rest : List Char) :
    quoteRuns a c (before ++ rest) = quoteRuns a c rest := by
  induction before with
  | nil => rfl
  | cons d before ih =>
    rw [List.mem_cons, not_or] at none_
    rw [List.cons_append, quoteRuns_cons_ne (Ne.symm none_.1), ih none_.2]

theorem quoteRuns_le_append_right (s rest : List Char) : quoteRuns a c s ≤ quoteRuns a c (s ++ rest) := by
  induction s with
  | nil => exact Nat.zero_le _
  | cons d s ih =>
    simp only [List.cons_append, quoteRuns]
    by_cases here : d = '"' ∧ [a, c] <+: s
    · rw [if_pos here, if_pos ⟨here.1, here.2.trans (List.prefix_append s _)⟩]
      omega
    · rw [if_neg here]
      omega

/-- A quote before the two characters counts. -/
theorem quoteRuns_lt_append (s : List Char) : quoteRuns a c s < quoteRuns a c (s ++ ['"', a, c]) := by
  induction s with
  | nil => simp [quoteRuns]
  | cons d s ih =>
    simp only [List.cons_append, quoteRuns]
    by_cases here : d = '"' ∧ [a, c] <+: s
    · rw [if_pos here, if_pos ⟨here.1, here.2.trans (List.prefix_append s _)⟩]
      omega
    · rw [if_neg here]
      omega

/-- More runs behind a quote, if the two characters stay where they are. -/
theorem quoteRuns_cons_quote_le {rest rest' : List Char} (fewer : quoteRuns a c rest ≤ quoteRuns a c rest')
    (kept : [a, c] <+: rest → [a, c] <+: rest') : quoteRuns a c ('"' :: rest) ≤ quoteRuns a c ('"' :: rest') := by
  simp only [quoteRuns, true_and]
  by_cases here : [a, c] <+: rest
  · rw [if_pos here, if_pos (kept here)]
    omega
  · rw [if_neg here]
    omega

end

/-! ## Windows line ends -/

theorem replaceCrLf_cons {d : Char} (other : d ≠ '\r') (rest : List Char) :
    replaceCrLf (d :: rest) = d :: replaceCrLf rest :=
  replaceCrLf.eq_2 _ _ fun _ same _ => other same

theorem length_replaceCrLf (s : List Char) :
    (replaceCrLf s).length < s.length ∨ replaceCrLf s = s := by
  induction s using replaceCrLf.induct with
  | case1 rest ih =>
    simp only [replaceCrLf, List.length_cons]
    have bound : (replaceCrLf rest).length ≤ rest.length := ih.elim Nat.le_of_lt fun same =>
      Nat.le_of_eq (congrArg List.length same)
    omega
  | case2 c rest other ih =>
    rw [replaceCrLf.eq_2 _ _ other]
    rcases ih with shorter | same
    · simp only [List.length_cons]
      omega
    · exact .inr (by rw [same])
  | case3 => exact .inr rfl

/-- Replacing line ends works piece by piece, apart from the middle of a line end. -/
theorem replaceCrLf_append {s rest : List Char} (whole : rest.head? ≠ some '\n') :
    replaceCrLf (s ++ rest) = replaceCrLf s ++ replaceCrLf rest := by
  induction s using replaceCrLf.induct with
  | case1 s ih =>
    simp only [List.cons_append, replaceCrLf, ih]
  | case2 d s other ih =>
    rw [List.cons_append, replaceCrLf.eq_2 _ _ other, replaceCrLf.eq_2, ih, List.cons_append]
    intro after isReturn begins
    cases s with
    | nil =>
      rw [List.nil_append] at begins
      exact whole (by rw [begins]; rfl)
    | cons e s =>
      rw [List.cons_append, List.cons.injEq] at begins
      exact other s isReturn (by rw [begins.1])
  | case3 => rfl

theorem replaceCrLf_append_of_not_mem {s : List Char} (clean : '\r' ∉ s) (rest : List Char) :
    replaceCrLf (s ++ rest) = s ++ replaceCrLf rest := by
  induction s with
  | nil => rfl
  | cons d s ih =>
    rw [List.mem_cons, not_or] at clean
    rw [List.cons_append, replaceCrLf_cons (Ne.symm clean.1), ih clean.2, List.cons_append]

theorem head_replaceCrLf {s : List Char} (quoted : (replaceCrLf s).head? = some '"') : s.head? = some '"' := by
  cases s using replaceCrLf.induct with
  | case1 rest =>
    rw [replaceCrLf, List.head?_cons] at quoted
    cases quoted
  | case2 d rest other =>
    rw [replaceCrLf.eq_2 _ _ other] at quoted
    exact quoted
  | case3 => cases quoted

theorem prefix_replaceCrLf {a c : Char} (plainA : a ≠ '\r') (plainC : c ≠ '\r') {s : List Char}
    (here : [a, c] <+: s) : [a, c] <+: replaceCrLf s := by
  obtain ⟨rest, rfl⟩ := here
  rw [List.cons_append, List.singleton_append, replaceCrLf_cons plainA, replaceCrLf_cons plainC]
  exact ⟨replaceCrLf rest, rfl⟩

theorem quoteRuns_replaceCrLf {a c : Char} (plainA : a ≠ '\r') (plainC : c ≠ '\r') (s : List Char) :
    quoteRuns a c s ≤ quoteRuns a c (replaceCrLf s) := by
  induction s using replaceCrLf.induct with
  | case1 rest ih =>
    rw [replaceCrLf, quoteRuns_cons_ne (by decide), quoteRuns_cons_ne (by decide), quoteRuns_cons_ne (by decide)]
    exact ih
  | case2 d rest other ih =>
    rw [replaceCrLf.eq_2 _ _ other]
    by_cases quote : d = '"'
    · subst quote
      exact quoteRuns_cons_quote_le ih (prefix_replaceCrLf plainA plainC)
    · rw [quoteRuns_cons_ne quote, quoteRuns_cons_ne quote]
      exact ih
  | case3 => exact Nat.le_refl _

/-! ## The body of a quoted string -/

theorem dropWhile_append_stop {p : Char → Bool} {stop : Char} (stops : p stop = false) (s rest : List Char) :
    (s ++ stop :: rest).dropWhile p = s.dropWhile p ++ stop :: rest := by
  induction s with
  | nil => simp [stops]
  | cons c s ih => by_cases skipped : p c = true <;> simp [skipped, ih]

theorem hexChar_cases {len : Nat} {s after escaped rest : List Char}
    (read : parseHexChar len (s ++ '"' :: after) = .ok (escaped, rest)) :
    escaped.length ≤ 1 ∧ '"' ∉ s.take len ∧ rest = s.drop len ++ '"' :: after := by
  unfold parseHexChar at read
  simp only at read
  split at read
  · cases read
  rename_i digits
  simp only [Bool.or_eq_true, decide_eq_true_eq, Bool.not_eq_true', not_or, Decidable.not_not, Bool.not_eq_false,
    List.all_eq_true] at digits
  have within : len ≤ s.length := by
    by_contra beyond
    have quote : '"' ∈ (s ++ '"' :: after).take len := by
      rw [List.take_append]
      obtain ⟨k, more⟩ := Nat.exists_eq_succ_of_ne_zero (show len - s.length ≠ 0 by omega)
      simp [more]
    exact absurd (digits.2 _ quote) (by decide)
  rw [List.take_append_of_le_length within, List.drop_append_of_le_length within] at *
  split at read
  · simp only [Except.ok.injEq, Prod.mk.injEq] at read
    obtain ⟨rfl, rfl⟩ := read
    refine ⟨Nat.le_refl _, fun member => ?_, rfl⟩
    exact absurd (digits.2 _ member) (by decide)
  · cases read

/-- The escape reads a part of `s` and yields at most one character: a quote where it
read a quote, and it reads no other. -/
def EscapesWithin (s after escaped rest : List Char) : Prop :=
  ∃ used left, s = used ++ left ∧ rest = left ++ '"' :: after ∧ used ≠ [] ∧ escaped.length ≤ 1 ∧
    ('"' ∉ used ∨ (used = ['"'] ∧ escaped = ['"']))

/-- A backslash at the end of a line swallows white space of the string only. -/
theorem lineEnd_cases {s after next escaped rest : List Char}
    (begins : (s ++ '"' :: after).dropWhile isWs = '\n' :: next)
    (read : (.ok ([], next.dropWhile isWsOrNewline) : Except TomlError _) = .ok (escaped, rest)) :
    EscapesWithin s after escaped rest := by
  simp only [Except.ok.injEq, Prod.mk.injEq] at read
  obtain ⟨rfl, rfl⟩ := read
  rw [dropWhile_append_stop (by decide)] at begins
  cases kept : s.dropWhile isWs with
  | nil =>
    rw [kept] at begins
    cases begins
  | cons newline left =>
    rw [kept, List.cons_append, List.cons.injEq] at begins
    obtain ⟨rfl, rfl⟩ := begins
    refine ⟨s.takeWhile isWs ++ '\n' :: left.takeWhile isWsOrNewline, left.dropWhile isWsOrNewline, ?_,
      dropWhile_append_stop (by decide) _ _, by simp, Nat.zero_le _, .inl fun member => ?_⟩
    · rw [List.append_assoc, List.cons_append, List.takeWhile_append_dropWhile, ← kept,
        List.takeWhile_append_dropWhile]
    · rcases List.mem_append.mp member with blank | newline
      · exact absurd (List.mem_takeWhile_imp (p := isWs) blank) (by decide)
      · rcases List.mem_cons.mp newline with same | blank
        · cases same
        · exact absurd (List.mem_takeWhile_imp (p := isWsOrNewline) blank) (by decide)

/-- An escape in front of the closing quote stays before it, or is the quote itself. -/
theorem escape_cases {multiline : Bool} {s after escaped rest : List Char}
    (read : parseBasicStrEscape multiline (s ++ '"' :: after) = .ok (escaped, rest)) :
    (s = [] ∧ escaped = ['"'] ∧ rest = after) ∨ EscapesWithin s after escaped rest := by
  cases s with
  | nil =>
    simp only [List.nil_append, parseBasicStrEscape, Except.ok.injEq, Prod.mk.injEq] at read
    exact .inl ⟨rfl, read.1.symm, read.2.symm⟩
  | cons d s =>
    have hex : ∀ len : Nat, d ≠ '"' → parseHexChar len (s ++ '"' :: after) = .ok (escaped, rest) →
        EscapesWithin (d :: s) after escaped rest := by
      intro len other parsed
      obtain ⟨length, none_, same⟩ := hexChar_cases parsed
      refine ⟨d :: s.take len, s.drop len, by simp, same, by simp, length, .inl ?_⟩
      simp [none_, other.symm]
    have single : ∀ e : Char, ('"' ∉ [d] ∨ [d] = ['"'] ∧ [e] = ['"']) →
        (.ok ([e], s ++ '"' :: after) : Except TomlError _) = .ok (escaped, rest) →
        EscapesWithin (d :: s) after escaped rest := by
      intro e marked parsed
      simp only [Except.ok.injEq, Prod.mk.injEq] at parsed
      obtain ⟨rfl, rfl⟩ := parsed
      exact ⟨[d], s, rfl, rfl, by simp, Nat.le_refl _, marked⟩
    refine .inr ?_
    rw [List.cons_append] at read
    unfold parseBasicStrEscape at read
    split at read <;> rename_i source <;> try (rw [List.cons.injEq] at source; obtain ⟨rfl, rfl⟩ := source)
    · exact hex 4 (by decide) read
    · exact hex 8 (by decide) read
    · exact single _ (.inl (by decide)) read
    · exact single _ (.inl (by decide)) read
    · exact single _ (.inl (by decide)) read
    · exact single _ (.inl (by decide)) read
    · exact single _ (.inl (by decide)) read
    · exact single _ (.inr (by decide)) read
    · exact single _ (.inl (by decide)) read
    · split at read
      · split at read
        · rename_i blank
          rw [← List.cons_append, dropWhile_append_stop (by decide)] at blank
          simp at blank
        · rename_i begins
          exact lineEnd_cases begins read
        · cases read
      · cases read
    · cases source

/-- A character that is no quote and no backslash is read as it is. -/
theorem parseBasicStr_other {multiline : Bool} {n : Nat} {d : Char} {src body rest : List Char}
    (other : d ≠ '"' ∧ d ≠ '\\') (read : parseBasicStr multiline n (d :: src) = .ok (body, rest)) :
    ∃ m more, n = m + 1 ∧ body = d :: more ∧ parseBasicStr multiline m src = .ok (more, rest) ∧
      (multiline = false → isPlainChar d = true) := by
  cases n with
  | zero => cases read
  | succ n =>
    rw [parseBasicStr.eq_5 _ _ _ _ other.1 other.2] at read
    by_cases illegal : (if multiline then isIllegalMultiline d else isIllegal d) = true
    · rw [if_pos illegal] at read
      cases read
    · rw [if_neg illegal] at read
      cases parsed : parseBasicStr multiline n src with
      | error e =>
        rw [parsed] at read
        cases read
      | ok r =>
        rw [parsed] at read
        cases read
        refine ⟨n, r.1, rfl, rfl, parsed, fun oneLine => ?_⟩
        subst oneLine
        simpa [isPlainChar, other] using illegal

/-- What follows the closing quote: two characters that are no quote and no backslash,
or the end of the last line. -/
inductive Follows (a c : Char) : List Char → Prop where
  | more (rest : List Char) : Follows a c (a :: c :: rest)
  | last : Follows a c ['\n']

/-- How a string between quotes may be read: too short; as it is, when it is plain; or
with the text behind the closing quote. -/
inductive Misread (multiline : Bool) (a c : Char) (s body : List Char) : Prop where
  | short (less : body.length + (if multiline then 2 else 1) ≤ s.length)
  | exact (oneLine : multiline = false) (same : body = s) (plain : ∀ d ∈ s, isPlainChar d = true)
  | beyond (more : quoteRuns a c (s ++ ['"', a, c]) ≤ quoteRuns a c body)

section

variable {multiline : Bool} {a c : Char} (plainA : a ≠ '"' ∧ a ≠ '\\') (plainC : c ≠ '"' ∧ c ≠ '\\')

include plainA plainC

/-- The two characters are read as they are. -/
theorem prefix_of_parseBasicStr {n : Nat} {src body rest : List Char} (here : [a, c] <+: src)
    (read : parseBasicStr multiline n src = .ok (body, rest)) : [a, c] <+: body := by
  obtain ⟨after, rfl⟩ := here
  obtain ⟨m, more, -, rfl, read, -⟩ := parseBasicStr_other plainA read
  obtain ⟨m, more, -, rfl, -, -⟩ := parseBasicStr_other plainC read
  exact ⟨more, rfl⟩

/-- A reader that runs over the closing quote keeps the two characters behind it. -/
theorem prefix_of_follows {after : List Char} (follows : Follows a c after) {n : Nat} {body rest : List Char}
    (read : parseBasicStr multiline n after = .ok (body, rest)) : [a, c] <+: body := by
  cases follows with
  | more tail => exact prefix_of_parseBasicStr plainA plainC ⟨tail, rfl⟩ read
  | last =>
    obtain ⟨m, more, -, rfl, read, -⟩ := parseBasicStr_other (by decide) read
    cases m <;> cases read

/-- The two characters in front of the closing quote stand in the string already. -/
theorem prefix_before_quote {s after : List Char} (here : [a, c] <+: s ++ ['"', a, c]) :
    [a, c] <+: s ++ '"' :: after := by
  obtain ⟨rest, same⟩ := here
  cases s with
  | nil => exact absurd (List.cons.inj same).1 plainA.1
  | cons d s =>
    obtain ⟨first, tail⟩ := List.cons.inj same
    cases s with
    | nil => exact absurd (List.cons.inj tail).1 plainC.1
    | cons e s =>
      rw [← first, ← (List.cons.inj tail).1]
      exact ⟨s ++ '"' :: after, rfl⟩

omit plainC in
theorem not_quotes_of_follows {after : List Char} (follows : Follows a c after) (rest : List Char) : after ≠ '"' :: rest := by
  intro same
  cases follows with
  | more tail => exact plainA.1 (List.cons.inj same).1
  | last => exact absurd (List.cons.inj same).1 (by decide)

/-- A quote that belongs to the text: what is read after it starts like the text. -/
theorem quoteRuns_quote_le {s after more rest : List Char} {m : Nat}
    (fewer : quoteRuns a c (s ++ ['"', a, c]) ≤ quoteRuns a c more)
    (read : parseBasicStr multiline m (s ++ '"' :: after) = .ok (more, rest)) :
    quoteRuns a c ('"' :: (s ++ ['"', a, c])) ≤ quoteRuns a c ('"' :: more) :=
  quoteRuns_cons_quote_le fewer fun here =>
    prefix_of_parseBasicStr plainA plainC (prefix_before_quote plainA plainC here) read

/-- The closing quote belongs to the text: the two characters follow. -/
theorem quoteRuns_closing_le {after more rest : List Char} (follows : Follows a c after) {m : Nat}
    (read : parseBasicStr multiline m after = .ok (more, rest)) :
    quoteRuns a c ['"', a, c] ≤ quoteRuns a c ('"' :: more) := by
  have count : quoteRuns a c ['"', a, c] = 1 := by
    rw [quoteRuns, quoteRuns_cons_ne plainA.1, quoteRuns_cons_ne plainC.1]
    simp [quoteRuns]
  have here := prefix_of_follows plainA plainC follows read
  rw [count, quoteRuns, if_pos ⟨rfl, here⟩]
  omega

theorem misread_nil {after : List Char} (follows : Follows a c after) {n : Nat} {body rest : List Char}
    (read : parseBasicStr multiline (n + 1) ('"' :: after) = .ok (body, rest)) : Misread multiline a c [] body := by
  rw [parseBasicStr.eq_3] at read
  cases multiline with
  | false =>
    cases read
    exact .exact rfl rfl (by simp)
  | true =>
    have apart : ['"', '"'].isPrefixOf after = false := by
      by_contra begins
      rw [Bool.not_eq_false, List.isPrefixOf_iff_prefix] at begins
      obtain ⟨rest, same⟩ := begins
      exact not_quotes_of_follows plainA follows _ same.symm
    simp only [Bool.not_true, Bool.false_eq_true, if_false, apart, map_eq_ok_iff] at read
    obtain ⟨r, read, same⟩ := read
    cases same
    exact .beyond (quoteRuns_closing_le plainA plainC follows read)

section

-- how what comes behind the first character is read
variable {after : List Char} {n : Nat}
  (tail : ∀ {s body rest : List Char}, parseBasicStr multiline n (s ++ '"' :: after) = .ok (body, rest) →
    Misread multiline a c s body)

include tail

/-- A quote ends the string, or is read as a part of it. -/
theorem misread_quote (follows : Follows a c after) {s body rest : List Char}
    (read : parseBasicStr multiline (n + 1) ('"' :: (s ++ '"' :: after)) = .ok (body, rest)) :
    Misread multiline a c ('"' :: s) body := by
  rw [parseBasicStr.eq_3] at read
  cases multiline with
  | false =>
    cases read
    exact .short (by simp)
  | true =>
    simp only [Bool.not_true, Bool.false_eq_true, if_false] at read
    split at read
    · rename_i closes
      cases read
      cases s with
      | nil =>
        rw [List.nil_append, List.isPrefixOf_iff_prefix] at closes
        obtain ⟨rest, same⟩ := closes
        exact absurd (List.cons.inj same).2.symm (not_quotes_of_follows plainA follows _)
      | cons e s => exact .short (by simp)
    · obtain ⟨r, inner, same⟩ := map_eq_ok_iff.mp read
      cases same
      cases tail inner with
      | short less => exact .short (by simpa using less)
      | exact oneLine => cases oneLine
      | beyond more => exact .beyond (quoteRuns_quote_le plainA plainC more inner)

/-- An escape yields less than it reads, unless it is the closing quote that it reads. -/
theorem misread_escape (follows : Follows a c after) {s body rest : List Char}
    (read : parseBasicStr multiline (n + 1) ('\\' :: (s ++ '"' :: after)) = .ok (body, rest)) :
    Misread multiline a c ('\\' :: s) body := by
  rw [parseBasicStr.eq_4] at read
  obtain ⟨⟨yielded, left⟩, escaped, read⟩ := bind_eq_ok.mp read
  obtain ⟨⟨more, behind⟩, inner, same⟩ := bind_eq_ok.mp read
  cases same
  rcases escape_cases escaped with ⟨rfl, rfl, rfl⟩ | ⟨used, left, rfl, rfl, some_, one, marked⟩
  · refine .beyond (Nat.le_trans (Nat.le_of_eq ?_) (quoteRuns_closing_le plainA plainC follows inner))
    exact quoteRuns_cons_ne (by decide) _
  have positive : 0 < used.length := List.length_pos_iff.mpr some_
  cases tail inner with
  | short less =>
    refine .short ?_
    simp only [List.length_append, List.length_cons]
    omega
  | exact oneLine same plain =>
    refine .short ?_
    subst oneLine same
    simp only [Bool.false_eq_true, if_false, List.length_append, List.length_cons]
    omega
  | beyond fewer =>
    refine .beyond ?_
    rw [List.cons_append, quoteRuns_cons_ne (by decide), List.append_assoc]
    rcases marked with none_ | ⟨rfl, rfl⟩
    · rw [quoteRuns_append_of_not_mem none_]
      exact Nat.le_trans fewer (quoteRuns_le_append yielded more)
    · exact quoteRuns_quote_le plainA plainC fewer inner

omit plainA plainC in
/-- Any other character is read as it is. -/
theorem misread_other {d : Char} (other : d ≠ '"' ∧ d ≠ '\\') {s body rest : List Char}
    (read : parseBasicStr multiline (n + 1) (d :: (s ++ '"' :: after)) = .ok (body, rest)) :
    Misread multiline a c (d :: s) body := by
  obtain ⟨m, more, fuel, rfl, inner, plain⟩ := parseBasicStr_other other read
  rw [Nat.succ.injEq] at fuel
  subst fuel
  cases tail inner with
  | short less =>
    refine .short ?_
    simp only [List.length_cons]
    omega
  | exact oneLine same rest_ =>
    refine .exact oneLine (by rw [same]) fun e member => ?_
    rcases List.mem_cons.mp member with rfl | later
    · exact plain oneLine
    · exact rest_ e later
  | beyond fewer =>
    refine .beyond ?_
    rw [List.cons_append, quoteRuns_cons_ne other.1, quoteRuns_cons_ne other.1]
    exact fewer

end

/-- **The body of a string that stands between quotes**, with `after` behind it. -/
theorem misread {after : List Char} (follows : Follows a c after) {n : Nat} {s body rest : List Char}
    (read : parseBasicStr multiline n (s ++ '"' :: after) = .ok (body, rest)) : Misread multiline a c s body := by
  induction n generalizing s body rest with
  | zero => cases read
  | succ n ih =>
    cases s with
    | nil => exact misread_nil plainA plainC follows read
    | cons d s =>
      by_cases quote : d = '"'
      · subst quote
        exact misread_quote plainA plainC ih follows read
      by_cases escape : d = '\\'
      · subst escape
        exact misread_escape plainA plainC ih follows read
      · exact misread_other ih ⟨quote, escape⟩ read

/-! ## Strings that open with three quotes -/

/-- The source without the line end right behind the opening quotes. -/
def afterOpening : List Char → List Char
  | '\n' :: rest => rest
  | src => src

omit plainA plainC in
theorem length_extraQuotes (delim : Char) (src : List Char) : (extraQuotes delim src).1.length ≤ 2 := by
  unfold extraQuotes
  repeat' split
  all_goals simp

omit plainA plainC in
theorem parseMultilineStr_eq (src : List Char) : parseMultilineStr false src =
    (parseBasicStr true ((afterOpening src).length + 1) (afterOpening src)).map fun r =>
      (r.1 ++ (extraQuotes '"' r.2).1, (extraQuotes '"' r.2).2) := by
  have unfolded : parseMultilineStr false src = (do
      let r ← parseBasicStr true ((afterOpening src).length + 1) (afterOpening src)
      return (r.1 ++ (extraQuotes '"' r.2).1, (extraQuotes '"' r.2).2)) := by
    cases src with
    | nil => rfl
    | cons d rest =>
      by_cases newline : d = '\n'
      · subst newline
        rfl
      · rw [afterOpening.eq_2 _ fun _ begins => newline (List.cons.inj begins).1]
        simp only [parseMultilineStr, Bool.false_eq_true, if_false]
        split
        · rename_i begins
          exact absurd (List.cons.inj begins).1 newline
        · rfl
  rw [unfolded]
  cases parseBasicStr true ((afterOpening src).length + 1) (afterOpening src) <;> rfl

omit plainA plainC in
/-- A text that starts with neither a quote nor a backslash is not read as one that
starts with a quote. -/
theorem head_ne_quote {n : Nat} {d : Char} {src body rest : List Char} (other : d ≠ '"' ∧ d ≠ '\\')
    (read : parseBasicStr multiline n (d :: src) = .ok (body, rest)) (extra more : List Char) : body ++ extra ≠ '"' :: more := by
  obtain ⟨m, tail, -, rfl, -⟩ := parseBasicStr_other other read
  intro same
  exact other.1 (List.cons.inj same).1

omit plainA plainC in
theorem afterOpening_append (s rest : List Char) :
    afterOpening (s ++ '"' :: rest) = afterOpening s ++ '"' :: rest := by
  cases s with
  | nil => rfl
  | cons d s =>
    by_cases newline : d = '\n'
    · subst newline
      rfl
    · have other : ∀ tail : List Char, afterOpening (d :: tail) = d :: tail := fun tail =>
        afterOpening.eq_2 _ fun _ begins => newline (List.cons.inj begins).1
      rw [List.cons_append, other, other, List.cons_append]

omit plainA plainC in
theorem afterOpening_spec (s : List Char) :
    (afterOpening s).length ≤ s.length ∧ quoteRuns a c (afterOpening s) = quoteRuns a c s := by
  unfold afterOpening
  split
  · exact ⟨Nat.le_succ _, (quoteRuns_cons_ne (by decide) _).symm⟩
  · exact ⟨Nat.le_refl _, rfl⟩

/-- What comes right behind three opening quotes is not read as a text that starts with
a quote, if the two characters do. -/
theorem opened_ne {n : Nat} {rest body left : List Char}
    (read : parseBasicStr true n (afterOpening (a :: c :: rest)) = .ok (body, left)) (extra more : List Char) :
    body ++ extra ≠ '"' :: more := by
  by_cases newline : a = '\n'
  · subst newline
    exact head_ne_quote plainC read extra more
  · rw [afterOpening.eq_2 _ fun _ begins => newline (List.cons.inj begins).1] at read
    exact head_ne_quote plainA read extra more

/-- A string that is a single quote. -/
theorem quote_misread {after : List Char} (follows : Follows a c after) {text rest : List Char}
    (read : parseMultilineStr false after = .ok (text, rest)) : text ≠ ['"'] := by
  rw [parseMultilineStr_eq] at read
  obtain ⟨r, body, same⟩ := map_eq_ok_iff.mp read
  cases same
  cases follows with
  | more tail => exact opened_ne plainA plainC body _ []
  | last => cases body

/-- A string that starts with two quotes. -/
theorem quotes_misread {after : List Char} (follows : Follows a c after) (returnA : a ≠ '\r') (returnC : c ≠ '\r')
    {s text rest : List Char} (read : parseMultilineStr false (replaceCrLf s ++ '"' :: after) = .ok (text, rest)) :
    text ≠ '"' :: '"' :: s := by
  rw [parseMultilineStr_eq] at read
  obtain ⟨r, body, same⟩ := map_eq_ok_iff.mp read
  cases same
  by_cases here : [a, c] <+: s
  · obtain ⟨tail, begins⟩ := prefix_replaceCrLf returnA returnC here
    rw [← begins] at body
    exact opened_ne plainA plainC body _ _
  rw [afterOpening_append] at body
  have shorter : (replaceCrLf s).length ≤ s.length :=
    (length_replaceCrLf s).elim Nat.le_of_lt fun same => Nat.le_of_eq (congrArg List.length same)
  obtain ⟨opened, sameRuns⟩ := afterOpening_spec (a := a) (c := c) (replaceCrLf s)
  intro same
  cases misread plainA plainC follows body with
  | short less =>
    have length := congrArg List.length same
    have extra := length_extraQuotes '"' r.2
    simp only [List.length_append, List.length_cons, if_true] at length less
    omega
  | exact oneLine => cases oneLine
  | beyond more =>
    have runs := congrArg (quoteRuns a c) same
    have apart : ¬ [a, c] <+: '"' :: s := fun ⟨tail, begins⟩ => plainA.1 (List.cons.inj begins).1
    have count : quoteRuns a c ('"' :: '"' :: s) = quoteRuns a c s := by
      simp [quoteRuns, apart, here]
    have grows := quoteRuns_lt_append (a := a) (c := c) (afterOpening (replaceCrLf s))
    have kept := quoteRuns_replaceCrLf returnA returnC s
    have inside := quoteRuns_le_append_right (a := a) (c := c) r.1 (extraQuotes '"' r.2).1
    omega

/-- A one-line string. -/
theorem line_misread {after : List Char} (follows : Follows a c after) (returnA : a ≠ '\r') (returnC : c ≠ '\r')
    {s text rest : List Char} (read : parseOneLineBasicStr (replaceCrLf s ++ '"' :: after) = .ok (text, rest))
    (same : text = s) : ∀ d ∈ s, isPlainChar d = true := by
  subst same
  cases misread plainA plainC follows read with
  | short less =>
    simp only [Bool.false_eq_true, if_false] at less
    rcases length_replaceCrLf text with shorter | whole
    · omega
    · rw [whole] at less
      omega
  | exact oneLine same plain => exact same ▸ plain
  | beyond more =>
    have grows := quoteRuns_lt_append (a := a) (c := c) (replaceCrLf text)
    have kept := quoteRuns_replaceCrLf returnA returnC text
    omega

omit plainC in
/-- Three quotes open a string that starts with two quotes, or is one. -/
theorem three_quotes {after : List Char} (follows : Follows a c after) {s rest : List Char}
    (begins : replaceCrLf s ++ '"' :: after = '"' :: '"' :: rest) :
    (s = ['"'] ∧ rest = after) ∨ ∃ t, s = '"' :: '"' :: t ∧ rest = replaceCrLf t ++ '"' :: after := by
  have quoteHead : ∀ {t u : List Char}, replaceCrLf t = '"' :: u → ∃ v, t = '"' :: v ∧ u = replaceCrLf v := by
    intro t u same
    have head := head_replaceCrLf (s := t) (by rw [same]; rfl)
    obtain ⟨v, rfl⟩ := List.head?_eq_some_iff.mp head
    rw [replaceCrLf_cons (by decide), List.cons.injEq] at same
    exact ⟨v, rfl, same.2.symm⟩
  cases first : replaceCrLf s with
  | nil =>
    rw [first, List.nil_append, List.cons.injEq] at begins
    exact absurd begins.2 (not_quotes_of_follows plainA follows _)
  | cons d u =>
    rw [first, List.cons_append, List.cons.injEq] at begins
    obtain ⟨rfl, begins⟩ := begins
    obtain ⟨t, rfl, rfl⟩ := quoteHead first
    cases second : replaceCrLf t with
    | nil =>
      rw [second, List.nil_append, List.cons.injEq] at begins
      cases t using replaceCrLf.induct with
      | case1 => cases second
      | case2 e t other =>
        rw [replaceCrLf.eq_2 _ _ other] at second
        cases second
      | case3 => exact .inl ⟨rfl, begins.2.symm⟩
    | cons e u =>
      rw [second, List.cons_append, List.cons.injEq] at begins
      obtain ⟨rfl, begins⟩ := begins
      obtain ⟨v, rfl, rfl⟩ := quoteHead second
      exact .inr ⟨v, rfl, begins.symm⟩

/-- **A quoted string that is read as the same string is plain.** -/
theorem plain_of_parseValue {after : List Char} (follows : Follows a c after) (returnA : a ≠ '\r') (returnC : c ≠ '\r')
    {v : String} {n : Nat} {value : Value} {rest : List Char}
    (read : parseValue (n + 1) ('"' :: (replaceCrLf v.toList ++ '"' :: after)) = .ok (value, rest)) :
    ∃ w, value = .str w ∧ (w = v → isPlain v = true) := by
  by_cases opens : ∃ tail, replaceCrLf v.toList ++ '"' :: after = '"' :: '"' :: tail
  · obtain ⟨tail, begins⟩ := opens
    rw [begins, parseValue.eq_2] at read
    obtain ⟨r, text, same⟩ := map_eq_ok_iff.mp read
    cases same
    refine ⟨_, rfl, fun same => ?_⟩
    have chars : r.1 = v.toList := by rw [← same, String.toList_ofList]
    rcases three_quotes plainA follows begins with ⟨single, rfl⟩ | ⟨t, double, rfl⟩
    · exact absurd (chars.trans single) (quote_misread plainA plainC follows text)
    · exact absurd (chars.trans double) (quotes_misread plainA plainC follows returnA returnC text)
  · rw [parseValue.eq_3 _ _ fun tail begins => opens ⟨tail, begins⟩] at read
    obtain ⟨r, text, same⟩ := map_eq_ok_iff.mp read
    cases same
    refine ⟨_, rfl, fun same => ?_⟩
    have chars : r.1 = v.toList := by rw [← same, String.toList_ofList]
    exact List.all_eq_true.mpr (line_misread plainA plainC follows returnA returnC text chars)

end

end McpSsh.Toml
