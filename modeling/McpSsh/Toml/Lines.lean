import McpSsh.Toml.Plain

/-!
# Documents read line by line

What the parser does with one line that holds a table header, a pair of a bare
key and a value, or nothing; and with a document that is such a list of lines.
-/

set_option autoImplicit false

namespace McpSsh.Toml

/-- Reading `line` with its newline takes `d` to `d'`, whatever follows. -/
def Reads (line : String) (d d' : Doc) : Prop :=
  ∀ (n : Nat) (rest : List Char), statements (n + 1) d (line.toList ++ '\n' :: rest) = statements n d' rest

/-- The source text of a list of lines. -/
def linesText (lines : List String) : List Char := lines.flatMap fun line => line.toList ++ ['\n']

inductive ReadsAll : List String → Doc → Doc → Prop where
  | nil {d : Doc} : ReadsAll [] d d
  | cons {line : String} {lines : List String} {d d' d'' : Doc} :
      Reads line d d' → ReadsAll lines d' d'' → ReadsAll (line :: lines) d d''

theorem ReadsAll.append {first second : List String} {d d' d'' : Doc} (start : ReadsAll first d d')
    (next : ReadsAll second d' d'') : ReadsAll (first ++ second) d d'' := by
  induction start with
  | nil => exact next
  | cons reads _ ih => exact .cons reads (ih next)

/-- **A document made of lines is read to its end.** -/
theorem ReadsAll.statements {lines : List String} {d d' : Doc} (reads : ReadsAll lines d d') {n : Nat}
    (enough : lines.length < n) : statements n d (linesText lines) = .ok d'.data := by
  induction reads generalizing n with
  | nil =>
    obtain ⟨n, rfl⟩ := Nat.exists_eq_succ_of_ne_zero (Nat.ne_of_gt enough)
    simp [linesText, Toml.statements]
  | @cons line lines d d' d'' reads _ ih =>
    obtain ⟨n, rfl⟩ := Nat.exists_eq_succ_of_ne_zero (Nat.ne_of_gt (Nat.zero_lt_of_lt enough))
    have step := reads n (linesText lines)
    rw [show linesText (line :: lines) = line.toList ++ '\n' :: linesText lines from by simp [linesText]]
    rw [step]
    exact ih (by simpa using enough)

theorem reads_blank (d : Doc) : Reads "" d d := by
  intro n rest
  simp [Toml.statements, isWs]

/-! ## One statement on a line -/

/-- A line whose first character starts a statement, and whose statement ends at
the newline, is read as that statement. -/
theorem reads_statement {line : String} {d d' : Doc} {c : Char} {cs : List Char} (chars : line.toList = c :: cs)
    (notWs : isWs c = false) (notNewline : c ≠ '\n')
    (read : ∀ rest, statement d (c :: (cs ++ '\n' :: rest)) = .ok (d', '\n' :: rest)) : Reads line d d' := by
  intro n rest
  rw [Toml.statements.eq_2, chars, List.cons_append,
    show (c :: (cs ++ '\n' :: rest)).dropWhile isWs = c :: (cs ++ '\n' :: rest) from by simp [notWs]]
  have after : skipComment (('\n' :: rest).dropWhile isWs) = .ok ('\n' :: rest) := by
    rw [show ('\n' :: rest).dropWhile isWs = '\n' :: rest from by simp [isWs], skipComment.eq_2]
    simp
  split
  · contradiction
  · rename_i same
    rw [List.cons.injEq] at same
    exact absurd same.1 notNewline
  · simp [read, after, bind, Except.bind]

/-- A pair under a bare key is stored in the table of the last header. -/
theorem reads_pair {key : String} (bare : isBareKey key = true) {text : String} (value : Value) {d : Doc} {data : Table}
    (visible : ∀ c, text.toList.head? = some c → isWs c = false)
    (read : ∀ (rest : List Char) (n : Nat), text.toList.length ≤ n →
      parseValue (n + 1) (text.toList ++ '\n' :: rest) = .ok (value, '\n' :: rest))
    (open_ : d.flags.has d.header .frozen = false)
    (stored : updateNest true (addKey key value .overwrittenValue) d.header d.data = .ok data) :
    Reads (key ++ " = " ++ text) d { d with data, flags := freeze value (d.header ++ [key]) d.flags } := by
  obtain ⟨c, cs, chars, first⟩ := bareKey_head bare
  have line : (key ++ " = " ++ text).toList = c :: (cs ++ ' ' :: '=' :: ' ' :: text.toList) := by
    simp [String.toList_append, chars]
  refine reads_statement line (isWs_bare first) ?_ fun rest => ?_
  · rintro rfl
    exact absurd first (by decide)
  have notBracket : c ≠ '[' := by
    rintro rfl
    exact absurd first (by decide)
  have notHash : c ≠ '#' := by
    rintro rfl
    exact absurd first (by decide)
  have source : c :: (cs ++ ' ' :: '=' :: ' ' :: text.toList ++ '\n' :: rest) =
      key.toList ++ ' ' :: '=' :: (' ' :: (text.toList ++ '\n' :: rest)) := by
    simp [chars]
  have value_ : (' ' :: (text.toList ++ '\n' :: rest)).dropWhile isWs = text.toList ++ '\n' :: rest := by
    rw [List.dropWhile_cons_of_pos (by decide)]
    cases left : text.toList with
    | nil => simp [isWs]
    | cons e es => simp [visible e (by simp [left])]
  rw [statement.eq_4 _ _ _ (fun _ same _ => notBracket same) notBracket notHash,
    if_pos (by simp [isKeyInitial, first]), source, keyValueRule, parseKey_bare bare]
  have enough := read rest (2 * (key.toList ++ ' ' :: '=' :: (' ' :: (text.toList ++ '\n' :: rest))).length + 1)
    (by simp only [List.length_append, List.length_cons]; omega)
  simp only [bind, Except.bind, value_, enough, properPrefixes, List.length_singleton, Nat.sub_self, List.range_zero,
    List.map_nil, List.find?_nil, List.dropLast_singleton, List.append_nil, open_, Bool.false_eq_true, if_false,
    show [key].getLastD "" = key from rfl, stored, pure, Except.pure]

/-- A quoted plain string. -/
theorem reads_text {key : String} (bare : isBareKey key = true) {s : String} (plain : isPlain s = true) {d : Doc}
    {data : Table} (open_ : d.flags.has d.header .frozen = false)
    (stored : updateNest true (addKey key (.str s) .overwrittenValue) d.header d.data = .ok data) :
    Reads (key ++ " = " ++ ("\"" ++ s ++ "\"")) d { d with data } := by
  have chars : ("\"" ++ s ++ "\"").toList = '"' :: (s.toList ++ ['"']) := by simp [String.toList_append]
  refine reads_pair bare (.str s) ?_ ?_ open_ stored
  · intro c first
    rw [chars, List.head?_cons, Option.some.injEq] at first
    rw [← first]
    decide
  · intro rest n _
    rw [chars, List.cons_append, List.append_assoc, List.singleton_append]
    exact parseValue_plain plain (by simp) n

/-- A decimal integer. -/
theorem reads_int {key : String} (bare : isBareKey key = true) (n : Int) {d : Doc} {data : Table}
    (open_ : d.flags.has d.header .frozen = false)
    (stored : updateNest true (addKey key (.int n) .overwrittenValue) d.header d.data = .ok data) :
    Reads (key ++ " = " ++ toString n) d { d with data } := by
  refine reads_pair bare (.int n) ?_ (fun rest fuel _ => parseValue_int n rest fuel) open_ stored
  intro c first
  rcases toList_toString_int n with ⟨m, -, text⟩ | ⟨m, -, text⟩
  · have digit : isDigit c = true := isDigit_digits (n := m) (List.mem_of_head? (text ▸ first))
    exact isWs_bare (by simp [isBareKeyChar, digit])
  · rw [text, List.head?_cons, Option.some.injEq] at first
    rw [← first]
    decide

/-- A table header whose key `text` reads as, for a namespace not opened before. -/
theorem reads_header {text : String} {key : Key} {d : Doc} {data : Table}
    (parsed : ∀ (rest : List Char) (n : Nat), parseKey (n + 2) (text.toList ++ ']' :: rest) = .ok (key, ']' :: rest))
    (visible : ∀ c, text.toList.head? = some c → isBareKeyChar c = true) (nonempty : text.toList ≠ [])
    (settled : d.pending = []) (new : d.flags.has key .explicitNest = false) (open_ : d.flags.has key .frozen = false)
    (created : updateNest true .ok key d.data = .ok data) :
    Reads ("[" ++ text ++ "]") d ⟨data, d.flags.set key .explicitNest false, [], key⟩ := by
  obtain ⟨c, cs, chars⟩ := List.exists_cons_of_ne_nil nonempty
  have bare := visible c (by simp [chars])
  have line : ("[" ++ text ++ "]").toList = '[' :: (text.toList ++ [']']) := by simp [String.toList_append]
  refine reads_statement line (by decide) (by decide) fun rest => ?_
  have notBracket : c ≠ '[' := by
    rintro rfl
    exact absurd bare (by decide)
  have visible_ : (text.toList ++ ']' :: '\n' :: rest).dropWhile isWs = text.toList ++ ']' :: '\n' :: rest := by
    simp [chars, isWs_bare bare]
  have same : d.finalizePending = d := by
    obtain ⟨data, flags, pending, header⟩ := d
    subst settled
    rfl
  obtain ⟨n, fuel⟩ : ∃ n, (text.toList ++ ']' :: '\n' :: rest).length + 1 = n + 2 :=
    ⟨(text.toList ++ '\n' :: rest).length, by simp only [List.length_append, List.length_cons]; omega⟩
  rw [List.append_assoc, List.singleton_append, statement.eq_2, same, createDictRule, fuel, visible_, parsed]
  · simp [bind, Except.bind, new, open_, created, pure, Except.pure, settled]
  · intro after bracket
    rw [chars, List.cons_append, List.cons.injEq] at bracket
    exact notBracket bracket.1

/-! ## Inline tables of strings -/

def pairText (e : String × String) : String := e.1 ++ " = \"" ++ e.2 ++ "\""

/-- One pair of an inline table, whatever stands behind its closing quote. -/
theorem parseInlineTable_pair {e : String × String} (bare : isBareKey e.1 = true) (plain : isPlain e.2 = true)
    {data : Table} (fresh : lookup e.1 data = none) (after : List Char) (ends : after.head? ≠ some '"') (n : Nat) :
    parseInlineTable (n + 2) ⟨data, []⟩ ((pairText e).toList ++ after) =
      match after.dropWhile isWs with
      | '}' :: rest => .ok (data ++ [(e.1, .str e.2)], rest)
      | ',' :: rest => parseInlineTable (n + 1) ⟨data ++ [(e.1, .str e.2)], []⟩ (rest.dropWhile isWs)
      | _ => .error .unclosedInlineTable := by
  have source : (pairText e).toList ++ after =
      e.1.toList ++ ' ' :: '=' :: (' ' :: '"' :: (e.2.toList ++ '"' :: after)) := by
    simp [pairText, String.toList_append]
  have value_ : (' ' :: '"' :: (e.2.toList ++ '"' :: after)).dropWhile isWs =
      '"' :: (e.2.toList ++ '"' :: after) := by
    simp [isWs]
  have read := parseInlineTable.eq_2 ⟨data, []⟩ ((pairText e).toList ++ after) (n + 1)
  rw [source, parseKey_bare bare] at read
  simp only [bind, Except.bind, value_, parseValue_plain plain ends, InlineTable.add, Flags.has,
    List.any_nil, Bool.false_eq_true, if_false, List.dropLast_singleton, updateNest, addKey,
    show [e.1].getLastD "" = e.1 from rfl, fresh, freeze, pure, Except.pure] at read
  rw [source]
  exact read

theorem lookup_nil (k : String) : lookup k [] = none := rfl

theorem lookup_cons (k : String) (e : String × Value) (t : Table) :
    lookup k (e :: t) = if e.1 = k then some e.2 else lookup k t := by
  by_cases same : e.1 = k <;> simp [lookup, same]

theorem lookup_append (k : String) (t u : Table) : lookup k (t ++ u) = (lookup k t).or (lookup k u) := by
  simp [lookup, List.find?_append, Option.map_or]

theorem lookup_append_none {k : String} {t u : Table} : lookup k (t ++ u) = none ↔ lookup k t = none ∧ lookup k u = none := by
  simp [lookup]

/-- The text of the pairs starts with the first key. -/
theorem head_pairs {items : List (String × String)} (nonempty : items ≠ [])
    (bare : ∀ e ∈ items, isBareKey e.1 = true) :
    ∃ c cs, (", ".intercalate (items.map pairText)).toList = c :: cs ∧ isBareKeyChar c = true := by
  obtain ⟨e, items, rfl⟩ := List.exists_cons_of_ne_nil nonempty
  obtain ⟨c, cs, chars, head⟩ := bareKey_head (bare e (by simp))
  cases items with
  | nil => simp [pairText, String.toList_append, chars, head]
  | cons f items => simp [String.intercalate_cons_cons, pairText, String.toList_append, chars, head]

theorem visible_pairs (items : List (String × String)) (nonempty : items ≠ [])
    (bare : ∀ e ∈ items, isBareKey e.1 = true) (rest : List Char) :
    ((", ".intercalate (items.map pairText)).toList ++ rest).dropWhile isWs =
      (", ".intercalate (items.map pairText)).toList ++ rest := by
  obtain ⟨c, cs, text, head⟩ := head_pairs nonempty bare
  rw [text, List.cons_append, List.dropWhile_cons_of_neg (by simp [isWs_bare head])]

theorem parseInlineTable_pairs {items : List (String × String)} (nonempty : items ≠ [])
    (bare : ∀ e ∈ items, isBareKey e.1 = true) (plain : ∀ e ∈ items, isPlain e.2 = true) (data : Table)
    (fresh : ∀ e ∈ items, lookup e.1 data = none) (distinct : (items.map Prod.fst).Nodup) (rest : List Char) {n : Nat}
    (enough : items.length < n) :
    parseInlineTable n ⟨data, []⟩ ((", ".intercalate (items.map pairText)).toList ++ ' ' :: '}' :: rest) =
      .ok (data ++ items.map fun e => (e.1, .str e.2), rest) := by
  induction items generalizing data n with
  | nil => exact absurd rfl nonempty
  | cons e items ih =>
    obtain ⟨n, rfl⟩ : ∃ m, n = m + 2 := ⟨n - 2, by simp only [List.length_cons] at enough; omega⟩
    have pair := fun after ends => parseInlineTable_pair (bare e (by simp)) (plain e (by simp)) (fresh e (by simp))
      after ends n
    cases items with
    | nil =>
      rw [List.map_singleton, String.intercalate_singleton, pair _ (by simp)]
      simp [isWs]
    | cons f items =>
      have joined : (", ".intercalate ((e :: f :: items).map pairText)).toList ++ ' ' :: '}' :: rest =
          (pairText e).toList ++
            ',' :: ' ' :: ((", ".intercalate ((f :: items).map pairText)).toList ++ ' ' :: '}' :: rest) := by
        rw [List.map_cons, List.map_cons, String.intercalate_cons_cons, ← List.map_cons]
        simp [String.toList_append]
      have visible := visible_pairs (f :: items) (by simp) (fun g member => bare g (by simp [member]))
        (' ' :: '}' :: rest)
      rw [joined, pair _ (by simp), List.dropWhile_cons_of_neg (by decide)]
      simp only [List.dropWhile_cons_of_pos (show isWs ' ' = true by decide), visible]
      rw [ih (by simp) (fun g member => bare g (by simp [member])) (fun g member => plain g (by simp [member])) _ ?_
        (List.nodup_cons.mp distinct).2 (by simp only [List.length_cons] at enough ⊢; omega)]
      · simp
      · intro g member
        rw [lookup_append_none]
        refine ⟨fresh g (by simp [member]), ?_⟩
        have apart : e.1 ≠ g.1 := by
          rintro same
          rw [List.map_cons, List.nodup_cons] at distinct
          exact distinct.1 (same ▸ List.mem_map_of_mem member)
        simp [lookup, apart]

/-- An inline table of plain strings under bare keys. -/
theorem parseValue_pairs {items : List (String × String)} (nonempty : items ≠ [])
    (bare : ∀ e ∈ items, isBareKey e.1 = true) (plain : ∀ e ∈ items, isPlain e.2 = true)
    (distinct : (items.map Prod.fst).Nodup) (rest : List Char) {n : Nat} (enough : items.length < n) :
    parseValue (n + 1) (("\x7b " ++ ", ".intercalate (items.map pairText) ++ " \x7d").toList ++ '\n' :: rest) =
      .ok (.table (items.map fun e => (e.1, .str e.2)), '\n' :: rest) := by
  have source : ("\x7b " ++ ", ".intercalate (items.map pairText) ++ " \x7d").toList ++ '\n' :: rest =
      '{' :: (' ' :: ((", ".intercalate (items.map pairText)).toList ++ ' ' :: '}' :: '\n' :: rest)) := by
    simp [String.toList_append]
  obtain ⟨c, cs, text, head⟩ := head_pairs nonempty bare
  have read := parseInlineTable_pairs nonempty bare plain [] (by simp [lookup]) distinct ('\n' :: rest) enough
  rw [source, parseValue.eq_9, List.dropWhile_cons_of_pos (by decide), visible_pairs items nonempty bare]
  split
  · rename_i closed
    rw [text, List.cons_append, List.cons.injEq] at closed
    rw [closed.1] at head
    exact absurd head (by decide)
  · rw [read]
    rfl

/-- A pair whose value is an inline table. -/
theorem reads_pairs {key : String} (bareKey : isBareKey key = true) {items : List (String × String)} (nonempty : items ≠ [])
    (bare : ∀ e ∈ items, isBareKey e.1 = true) (plain : ∀ e ∈ items, isPlain e.2 = true)
    (distinct : (items.map Prod.fst).Nodup) {d : Doc} {data : Table} (open_ : d.flags.has d.header .frozen = false)
    (stored : updateNest true (addKey key (.table (items.map fun e => (e.1, .str e.2))) .overwrittenValue) d.header d.data
      = .ok data) :
    Reads (key ++ " = " ++ ("\x7b " ++ ", ".intercalate (items.map pairText) ++ " \x7d")) d
      { d with data, flags := d.flags.set (d.header ++ [key]) .frozen true } := by
  have long : ∀ items : List (String × String), items.length ≤ (", ".intercalate (items.map pairText)).toList.length := by
    intro items
    induction items with
    | nil => simp
    | cons e items ih =>
      cases items with
      | nil =>
        simp only [List.map_singleton, String.intercalate_singleton, pairText, String.toList_append,
          List.length_append, List.length_singleton, show ("\"").toList.length = 1 from rfl]
        omega
      | cons f items =>
        rw [List.map_cons, List.map_cons, String.intercalate_cons_cons, ← List.map_cons]
        simp only [String.toList_append, List.length_append, List.length_cons, show (", ").toList.length = 2 from rfl]
          at ih ⊢
        omega
  refine reads_pair bareKey (.table (items.map fun e => (e.1, .str e.2))) ?_ (fun rest n enough => ?_) open_
    stored
  · intro c first
    simp only [String.toList_append] at first
    cases first
    decide
  · refine parseValue_pairs nonempty bare plain distinct rest ?_
    have bound := long items
    simp only [String.toList_append, List.length_append] at enough
    have brace : ("\x7b ").toList.length = 2 := rfl
    omega

end McpSsh.Toml
