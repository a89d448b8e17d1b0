import McpSsh.Toml.Leaf

/-!
# Sections that are read as something else

A section in which some quoted string is not plain is either rejected or leaves, at
the end of the document, another string in the place of one of its own.
-/

set_option autoImplicit false

namespace McpSsh.Toml

open Base

namespace Emitted

/-- The keys of the value are bare, each once. -/
def Keyed : Emitted → Prop
  | pairs items => items ≠ [] ∧ (∀ e ∈ items, isBareKey e.1 = true) ∧ (items.map Prod.fst).Nodup
  | _ => True

/-- In the table at the end stands another string than the one meant, behind the path
of the value. -/
def ChangedAt (path : Key) (result : Table) : Emitted → Prop
  | text s => ∃ w, w ≠ s ∧ HoldsAt w path (.table result)
  | int _ => False
  | pairs items => ∃ e ∈ items, ∃ w, w ≠ e.2 ∧ HoldsAt w (path ++ [e.1]) (.table result)

end Emitted

/-- The text behind a line is empty or starts with a character that stands for itself. -/
def Continues (tail : List Char) : Prop :=
  tail = [] ∨ ∃ c rest, tail = c :: rest ∧ c ≠ '"' ∧ c ≠ '\\' ∧ c ≠ '\r'

theorem holdsAt_fresh {k : String} {t : Table} (fresh : lookup k t = none) {s : String} {ks : Key} {v : Value}
    (held : HoldsAt s ks v) : HoldsAt s (k :: ks) (.table (t ++ [(k, v)])) := by
  refine ⟨by rw [lookup_append_fresh fresh]; rfl, fun e member key => ?_⟩
  rcases List.mem_append.mp member with old | new
  · have present := lookup_isSome_of_mem old
    rw [key, fresh] at present
    cases present
  · cases List.mem_singleton.mp new
    exact held

/-! ## Inline tables -/

/-- The text of some pairs, the closing brace and what is behind it. -/
def pairsText (items : List (String × String)) (rest : List Char) : List Char :=
  (", ".intercalate (items.map pairText)).toList ++ ' ' :: '}' :: rest

theorem pairsText_cons (e : String × String) (items : List (String × String)) (rest : List Char) :
    pairsText (e :: items) rest = (pairText e).toList ++
      if items = [] then ' ' :: '}' :: rest else ',' :: ' ' :: pairsText items rest := by
  cases items with
  | nil => simp [pairsText]
  | cons f items =>
    rw [pairsText, List.map_cons, List.map_cons, String.intercalate_cons_cons, ← List.map_cons]
    simp [pairsText, String.toList_append]

theorem pairText_toList (e : String × String) :
    (pairText e).toList = e.1.toList ++ ' ' :: '=' :: ' ' :: '"' :: (e.2.toList ++ ['"']) := by
  simp [pairText, String.toList_append]

theorem return_not_mem_bare {k : String} (bare : isBareKey k = true) : '\r' ∉ k.toList :=
  fun member => absurd ((isBareKey_iff.mp bare).2 _ member) (by decide)

theorem return_not_mem_plain {s : String} (plain : isPlain s = true) : '\r' ∉ s.toList :=
  fun member => absurd (List.all_eq_true.mp plain _ member) (by decide)

/-- The text of a quoted string once line ends are replaced. -/
theorem replaceCrLf_quoted (v : String) {a c : Char} (returnA : a ≠ '\r') (returnC : c ≠ '\r') (tail : List Char) :
    replaceCrLf ('"' :: (v.toList ++ '"' :: a :: c :: tail)) =
      '"' :: (replaceCrLf v.toList ++ '"' :: a :: c :: replaceCrLf tail) := by
  rw [replaceCrLf_cons (by decide), replaceCrLf_append (by simp), replaceCrLf_cons (by decide),
    replaceCrLf_cons returnA, replaceCrLf_cons returnC]

/-- One pair whose value is not plain. -/
theorem misread_pair {e : String × String} (bare : isBareKey e.1 = true) (quoted : isPlain e.2 = false)
    {data : Table} (fresh : lookup e.1 data = none) {a c : Char} (plainA : a ≠ '"' ∧ a ≠ '\\')
    (plainC : c ≠ '"' ∧ c ≠ '\\') (returnA : a ≠ '\r') (returnC : c ≠ '\r') {tail : List Char} {n : Nat} {result : Table}
    {rest : List Char}
    (read : parseInlineTable n ⟨data, []⟩ (replaceCrLf ((pairText e).toList ++ a :: c :: tail)) = .ok (result, rest)) :
    ∃ w, w ≠ e.2 ∧ HoldsAt w [e.1] (.table result) := by
  have source : replaceCrLf ((pairText e).toList ++ a :: c :: tail) =
      e.1.toList ++ ' ' :: '=' :: (' ' :: '"' :: (replaceCrLf e.2.toList ++ '"' :: a :: c :: replaceCrLf tail)) := by
    rw [← replaceCrLf_quoted _ returnA returnC, pairText_toList, List.append_assoc,
      replaceCrLf_append_of_not_mem (return_not_mem_bare bare)]
    simp [replaceCrLf_cons]
  have added : ∀ w : String, InlineTable.add ⟨data, []⟩ [e.1] (.str w) = .ok ⟨data ++ [(e.1, .str w)], []⟩ := by
    intro w
    simp [InlineTable.add, Flags.has, updateNest, addKey, fresh, freeze, bind, Except.bind, pure, Except.pure]
  rw [source] at read
  cases n with
  | zero => cases read
  | succ n =>
    rw [parseInlineTable.eq_2, parseKey_bare bare] at read
    obtain ⟨key, keyed, read⟩ := bind_eq_ok.mp read
    cases keyed
    obtain ⟨⟨value, left⟩, valued, read⟩ := bind_eq_ok.mp read
    rw [List.dropWhile_cons_of_pos (by decide), List.dropWhile_cons_of_neg (by decide)] at valued
    cases n with
    | zero => cases valued
    | succ n =>
      obtain ⟨w, rfl, same⟩ := plain_of_parseValue plainA plainC (.more _) returnA returnC valued
      have changed : w ≠ e.2 := fun equal => by rw [same equal] at quoted; cases quoted
      have held : HoldsAt w [e.1] (.table (data ++ [(e.1, .str w)])) := holdsAt_fresh fresh rfl
      obtain ⟨t, stored, read⟩ := bind_eq_ok.mp read
      cases (added w).symm.trans stored
      refine ⟨w, changed, ?_⟩
      split at read
      · cases read
        exact held
      · exact keeps_parseInlineTable read _ _ held
      · cases read

theorem return_not_mem_pair {e : String × String} (bare : isBareKey e.1 = true) (plain : isPlain e.2 = true) :
    '\r' ∉ (pairText e).toList := by
  rw [pairText_toList]
  simpa using ⟨return_not_mem_bare bare, return_not_mem_plain plain⟩

/-- The text of pairs starts with a key, line ends replaced or not. -/
theorem visible_pairsText {items : List (String × String)} (nonempty : items ≠ [])
    (bare : ∀ e ∈ items, isBareKey e.1 = true) (rest : List Char) :
    (replaceCrLf (pairsText items rest)).dropWhile isWs = replaceCrLf (pairsText items rest) := by
  obtain ⟨c, cs, text, head⟩ := head_pairs nonempty bare
  have noReturn : c ≠ '\r' := by
    rintro rfl
    exact absurd head (by decide)
  rw [pairsText, text, List.cons_append, replaceCrLf_cons noReturn,
    List.dropWhile_cons_of_neg (by simp [isWs_bare head])]

/-- A plain pair with more pairs behind it. -/
theorem parseInlineTable_next {e : String × String} (bare : isBareKey e.1 = true) (plain : isPlain e.2 = true)
    {data : Table} (fresh : lookup e.1 data = none) {src : List Char} (visible : src.dropWhile isWs = src) {n : Nat}
    {r : Table × List Char} (read : parseInlineTable n ⟨data, []⟩ ((pairText e).toList ++ ',' :: ' ' :: src) = .ok r) :
    ∃ m, n = m + 1 ∧ parseInlineTable m ⟨data ++ [(e.1, .str e.2)], []⟩ src = .ok r := by
  rcases n with _ | _ | n
  · cases read
  · have source : (pairText e).toList ++ ',' :: ' ' :: src =
        e.1.toList ++ ' ' :: '=' :: (' ' :: '"' :: (e.2.toList ++ '"' :: ',' :: ' ' :: src)) := by
      simp [pairText_toList]
    rw [source, parseInlineTable.eq_2, parseKey_bare bare] at read
    cases read
  · rw [parseInlineTable_pair bare plain fresh _ (by simp)] at read
    refine ⟨n + 1, rfl, ?_⟩
    rw [List.dropWhile_cons_of_neg (by decide)] at read
    simpa only [List.dropWhile_cons_of_pos (show isWs ' ' = true by decide), visible] using read

/-- **Pairs of which one is not plain.** -/
theorem misread_pairs {items : List (String × String)} (bare : ∀ e ∈ items, isBareKey e.1 = true)
    (quoted : ∃ e ∈ items, isPlain e.2 = false) (distinct : (items.map Prod.fst).Nodup) {data : Table}
    (fresh : ∀ e ∈ items, lookup e.1 data = none) {tail : List Char} {n : Nat} {result : Table} {rest : List Char}
    (read : parseInlineTable n ⟨data, []⟩ (replaceCrLf (pairsText items tail)) = .ok (result, rest)) :
    ∃ e ∈ items, ∃ w, w ≠ e.2 ∧ HoldsAt w [e.1] (.table result) := by
  induction items generalizing data n with
  | nil =>
    obtain ⟨e, member, -⟩ := quoted
    cases member
  | cons e items ih =>
    rw [pairsText_cons] at read
    by_cases plain : isPlain e.2 = true
    · have more : items ≠ [] := by
        rintro rfl
        obtain ⟨f, member, bad⟩ := quoted
        rw [List.mem_singleton.mp member, plain] at bad
        cases bad
      rw [if_neg more, replaceCrLf_append_of_not_mem (return_not_mem_pair (bare e List.mem_cons_self) plain),
        replaceCrLf_cons (by decide), replaceCrLf_cons (by decide)] at read
      obtain ⟨m, -, after⟩ := parseInlineTable_next (bare e List.mem_cons_self) plain (fresh e List.mem_cons_self)
        (visible_pairsText more (fun f member => bare f (List.mem_cons_of_mem _ member)) tail) read
      have quotedRest : ∃ f ∈ items, isPlain f.2 = false := by
        obtain ⟨f, member, bad⟩ := quoted
        rcases List.mem_cons.mp member with rfl | later
        · rw [plain] at bad
          cases bad
        · exact ⟨f, later, bad⟩
      have freshRest : ∀ f ∈ items, lookup f.1 (data ++ [(e.1, .str e.2)]) = none := by
        intro f member
        have apart : e.1 ≠ f.1 := fun same => (List.nodup_cons.mp distinct).1 (same ▸ List.mem_map_of_mem member)
        rw [lookup_append_none]
        exact ⟨fresh f (List.mem_cons_of_mem _ member), by simp [lookup, apart]⟩
      obtain ⟨f, member, changed⟩ := ih (fun f member => bare f (List.mem_cons_of_mem _ member)) quotedRest
        (List.nodup_cons.mp distinct).2 freshRest after
      exact ⟨f, List.mem_cons_of_mem _ member, changed⟩
    · have bad : isPlain e.2 = false := by simpa using plain
      refine ⟨e, List.mem_cons_self, ?_⟩
      by_cases last : items = []
      · rw [if_pos last] at read
        exact misread_pair (bare e List.mem_cons_self) bad (fresh e List.mem_cons_self) (by decide) (by decide) (by decide)
          (by decide) read
      · rw [if_neg last] at read
        exact misread_pair (bare e List.mem_cons_self) bad (fresh e List.mem_cons_self) (by decide) (by decide) (by decide)
          (by decide) read

/-! ## One field -/

/-- The document around a table shows the strings of the table behind `header`. -/
def Shows (header : Key) (rebuild : Table → Table) : Prop :=
  ∀ (s : String) (path : Key) (t : Table), HoldsAt s path (.table t) → HoldsAt s (header ++ path) (.table (rebuild t))

/-- A quoted string at the end of a line. -/
theorem misread_text {v : String} (quoted : isPlain v = false) {tail : List Char} (continues : Continues tail) {n : Nat}
    {value : Value} {rest : List Char}
    (read : parseValue n (replaceCrLf ('"' :: (v.toList ++ '"' :: '\n' :: tail))) = .ok (value, rest)) :
    ∃ w, w ≠ v ∧ value = .str w := by
  cases n with
  | zero => cases read
  | succ n =>
    rw [replaceCrLf_cons (by decide), replaceCrLf_append (by simp), replaceCrLf_cons (by decide),
      replaceCrLf_cons (by decide)] at read
    have differs : ∀ {w : String}, (w = v → isPlain v = true) → w ≠ v := fun same equal => by
      rw [same equal] at quoted
      cases quoted
    rcases continues with rfl | ⟨c, tail, rfl, quote, escape, noReturn⟩
    · obtain ⟨w, rfl, same⟩ := plain_of_parseValue (a := '\n') (c := 'x') (by decide) (by decide) .last (by decide)
        (by decide) read
      exact ⟨w, differs same, rfl⟩
    · rw [replaceCrLf_cons noReturn] at read
      obtain ⟨w, rfl, same⟩ := plain_of_parseValue (by decide) ⟨quote, escape⟩ (.more _) (by decide) noReturn read
      exact ⟨w, differs same, rfl⟩

/-- **A field that is not faithful** is another string in the value that is stored. -/
theorem misread_value {v : Emitted} (keyed : v.Keyed) (bad : ¬ v.Faithful) {tail : List Char}
    (continues : Continues tail) {n : Nat} {value : Value} {rest : List Char}
    (read : parseValue n (replaceCrLf (v.source.toList ++ '\n' :: tail)) = .ok (value, rest)) {key : String} {t : Table}
    (fresh : lookup key t = none) : v.ChangedAt [key] (t ++ [(key, value)]) := by
  cases v with
  | text s =>
    have quoted : isPlain s = false := by simpa [Emitted.Faithful] using bad
    have source : (Emitted.text s).source.toList ++ '\n' :: tail = '"' :: (s.toList ++ '"' :: '\n' :: tail) := by
      simp [Emitted.source, String.toList_append]
    rw [source] at read
    obtain ⟨w, changed, rfl⟩ := misread_text quoted continues read
    exact ⟨w, changed, holdsAt_fresh fresh rfl⟩
  | int m => exact absurd trivial bad
  | pairs items =>
    obtain ⟨nonempty, bare, distinct⟩ := keyed
    have quoted : ∃ e ∈ items, isPlain e.2 = false := by
      by_contra all
      refine bad ⟨nonempty, fun e member => ⟨bare e member, ?_⟩, distinct⟩
      by_contra notPlain
      exact all ⟨e, member, by simpa using notPlain⟩
    have source : (Emitted.pairs items).source.toList ++ '\n' :: tail = '{' :: ' ' :: pairsText items ('\n' :: tail) := by
      simp [Emitted.source, pairsText, String.toList_append]
    rw [source, replaceCrLf_cons (by decide), replaceCrLf_cons (by decide)] at read
    cases n with
    | zero => cases read
    | succ n =>
      rw [parseValue.eq_9, List.dropWhile_cons_of_pos (by decide), visible_pairsText nonempty bare] at read
      obtain ⟨c, cs, text, head⟩ := head_pairs nonempty bare
      split at read
      · rename_i closed
        rw [pairsText, text, List.cons_append, replaceCrLf_cons (by rintro rfl; exact absurd head (by decide)),
          List.cons.injEq] at closed
        rw [closed.1] at head
        exact absurd head (by decide)
      · obtain ⟨r, inner, same⟩ := map_eq_ok_iff.mp read
        cases same
        obtain ⟨e, member, w, changed, held⟩ := misread_pairs bare quoted distinct (by simp [lookup]) inner
        exact ⟨e, member, w, changed, holdsAt_fresh fresh held⟩

/-- A change behind a key of a table is a change behind the header of the table. -/
theorem Emitted.ChangedAt.rebuild {v : Emitted} {key : String} {t : Table} (changed : v.ChangedAt [key] t) {header : Key}
    {rebuild : Table → Table} (shows : Shows header rebuild) {result : Table}
    (kept : KeepsStrings (.table (rebuild t)) (.table result)) : v.ChangedAt (header ++ [key]) result := by
  cases v with
  | text s =>
    obtain ⟨w, differs, held⟩ := changed
    exact ⟨w, differs, kept _ _ (shows w [key] t held)⟩
  | int n => exact changed
  | pairs items =>
    obtain ⟨e, member, w, differs, held⟩ := changed
    refine ⟨e, member, w, differs, ?_⟩
    rw [List.append_assoc]
    exact kept _ _ (shows w [key, e.1] t held)

/-! ## A section -/

/-- A line of a bare key and a value, as far as it is read. -/
theorem statements_pair {key : String} (bare : isBareKey key = true) {src : List Char} (visible : src.dropWhile isWs = src)
    {header : Key} {rebuild : Table → Table} (focus : Focus header rebuild) {t : Table} (fresh : lookup key t = none)
    {flags : Flags} {n : Nat} {result : Table}
    (read : statements n ⟨rebuild t, flags, [], header⟩ (key.toList ++ ' ' :: '=' :: ' ' :: src) = .ok result) :
    ∃ m value rest, parseValue m src = .ok (value, rest) ∧
      KeepsStrings (.table (rebuild (t ++ [(key, value)]))) (.table result) := by
  obtain ⟨c, cs, chars, first⟩ := bareKey_head bare
  have apart : ∀ d, isBareKeyChar d = false → c ≠ d := by
    rintro d other rfl
    rw [first] at other
    cases other
  have source : key.toList ++ ' ' :: '=' :: ' ' :: src = c :: (cs ++ ' ' :: '=' :: ' ' :: src) := by simp [chars]
  cases n with
  | zero => cases read
  | succ n =>
    rw [source, statements.eq_2, List.dropWhile_cons_of_neg (by simp [isWs_bare first])] at read
    split at read
    · contradiction
    · rename_i same
      exact absurd (List.cons.inj same).1 (apart '\n' (by decide))
    obtain ⟨⟨d, left⟩, one, read⟩ := bind_eq_ok.mp read
    have later : KeepsStrings (.table d.data) (.table result) := by
      obtain ⟨left', -, read⟩ := bind_eq_ok.mp read
      split at read
      · cases read
        exact .refl _
      · exact keeps_statements read
      · cases read
    rw [statement.eq_4 _ _ _ (fun _ same _ => apart '[' (by decide) same) (apart '[' (by decide))
      (apart '#' (by decide)), if_pos (by simp [isKeyInitial, first]), ← source, keyValueRule, parseKey_bare bare] at one
    obtain ⟨parsed, keyed, one⟩ := bind_eq_ok.mp one
    cases keyed
    obtain ⟨⟨value, after⟩, valued, one⟩ := bind_eq_ok.mp one
    rw [List.dropWhile_cons_of_pos (by decide), visible] at valued
    refine ⟨_, value, after, valued, ?_⟩
    have stored : updateNest true (addKey key value .overwrittenValue) header (rebuild t) =
        .ok (rebuild (t ++ [(key, value)])) := focus _ _ _ (by simp [addKey, fresh])
    simp only [List.dropLast_singleton, List.append_nil, show [key].getLastD "" = key from rfl, stored] at one
    split at one
    · cases one
    split at one
    · cases one
    · cases one
      exact later

theorem head_source (v : Emitted) : ∃ c cs, v.source.toList = c :: cs ∧ isWs c = false ∧ c ≠ '\r' := by
  cases v with
  | text s => exact ⟨'"', s.toList ++ ['"'], by simp [Emitted.source, String.toList_append], by decide, by decide⟩
  | int n =>
    rcases toList_toString_int n with ⟨m, -, text⟩ | ⟨m, -, text⟩
    · obtain ⟨c, cs, chars⟩ := List.exists_cons_of_ne_nil (Nat.toDigits_ne_nil (n := m) (b := 10))
      have digit : isDigit c = true := isDigit_digits (n := m) (by simp [chars])
      exact ⟨c, cs, text.trans chars, isWs_bare (by simp [isBareKeyChar, digit]), digit_ne digit (by decide)⟩
    · exact ⟨'-', _, text, by decide, by decide⟩
  | pairs items =>
    refine ⟨'{', ' ' :: (", ".intercalate (items.map pairText)).toList ++ [' ', '}'], ?_, by decide, by decide⟩
    simp [Emitted.source, String.toList_append]

/-- **A field that is not faithful.** -/
theorem misread_field {f : Field} (bare : isBareKey f.1 = true) (keyed : f.2.Keyed) (bad : ¬ f.2.Faithful)
    {header : Key} {rebuild : Table → Table} (focus : Focus header rebuild) (shows : Shows header rebuild) {t : Table}
    (fresh : lookup f.1 t = none) {flags : Flags} {tail : List Char} (continues : Continues tail) {n : Nat} {result : Table}
    (read : statements n ⟨rebuild t, flags, [], header⟩ (replaceCrLf ((fieldLine f).toList ++ '\n' :: tail)) =
      .ok result) : f.2.ChangedAt (header ++ [f.1]) result := by
  have source : replaceCrLf ((fieldLine f).toList ++ '\n' :: tail) =
      f.1.toList ++ ' ' :: '=' :: ' ' :: replaceCrLf (f.2.source.toList ++ '\n' :: tail) := by
    rw [fieldLine, String.toList_append, String.toList_append, List.append_assoc, List.append_assoc,
      replaceCrLf_append_of_not_mem (return_not_mem_bare bare)]
    exact congrArg _ (replaceCrLf_append_of_not_mem (s := " = ".toList) (by decide) _)
  rw [source] at read
  obtain ⟨c, cs, chars, visible, noReturn⟩ := head_source f.2
  have stays : (replaceCrLf (f.2.source.toList ++ '\n' :: tail)).dropWhile isWs =
      replaceCrLf (f.2.source.toList ++ '\n' :: tail) := by
    rw [chars, List.cons_append, replaceCrLf_cons noReturn, List.dropWhile_cons_of_neg (by simp [visible])]
  obtain ⟨m, value, rest, valued, kept⟩ := statements_pair bare stays focus fresh read
  exact (misread_value keyed bad continues valued fresh).rebuild shows kept

/-- What is behind a line that is read. -/
theorem Reads.continue {line : String} {d d' : Doc} (reads : Reads line d d') (clean : '\r' ∉ line.toList) {n : Nat}
    {tail : List Char} {result : Table}
    (read : statements n d (replaceCrLf (line.toList ++ '\n' :: tail)) = .ok result) :
    ∃ m, statements m d' (replaceCrLf tail) = .ok result := by
  cases n with
  | zero => cases read
  | succ n =>
    rw [replaceCrLf_append_of_not_mem clean, replaceCrLf_cons (by decide), reads] at read
    exact ⟨n, read⟩

/-- What is behind lines that are read. -/
theorem ReadsAll.continue {lines : List String} {d d' : Doc} (reads : ReadsAll lines d d')
    (clean : ∀ line ∈ lines, '\r' ∉ line.toList) {n : Nat} {tail : List Char} {result : Table}
    (read : Toml.statements n d (replaceCrLf (linesText lines ++ tail)) = .ok result) :
    ∃ m, Toml.statements m d' (replaceCrLf tail) = .ok result := by
  induction reads generalizing n with
  | nil => exact ⟨n, by simpa [linesText] using read⟩
  | @cons line lines d d' d'' first rest ih =>
    have text : linesText (line :: lines) ++ tail = line.toList ++ '\n' :: (linesText lines ++ tail) := by
      simp [linesText]
    rw [text] at read
    obtain ⟨m, after⟩ := first.continue (clean line List.mem_cons_self) read
    exact ih (fun other member => clean other (List.mem_cons_of_mem _ member)) after

theorem continues_of_bare {k : String} (bare : isBareKey k = true) (rest : List Char) : Continues (k.toList ++ rest) := by
  obtain ⟨c, cs, chars, head⟩ := bareKey_head bare
  refine .inr ⟨c, cs ++ rest, by rw [chars, List.cons_append], ?_, ?_, ?_⟩ <;> rintro rfl <;>
    exact absurd head (by decide)

/-- **The fields of a section, of which one is not faithful.** -/
theorem misread_fields {fields : List Field} (bare : ∀ f ∈ fields, isBareKey f.1 = true)
    (keyed : ∀ f ∈ fields, f.2.Keyed) (bad : ∃ f ∈ fields, ¬ f.2.Faithful) (distinct : (fields.map Prod.fst).Nodup)
    {header : Key} {rebuild : Table → Table} (focus : Focus header rebuild) (shows : Shows header rebuild) {t : Table}
    (fresh : ∀ f ∈ fields, lookup f.1 t = none) {flags : Flags} (open_ : flags.has header .frozen = false)
    {tail : List Char} (continues : Continues tail) {n : Nat} {result : Table}
    (read : statements n ⟨rebuild t, flags, [], header⟩ (replaceCrLf (linesText (fields.map fieldLine) ++ tail)) =
      .ok result) : ∃ f ∈ fields, f.2.ChangedAt (header ++ [f.1]) result := by
  induction fields generalizing t flags n with
  | nil =>
    obtain ⟨f, member, -⟩ := bad
    cases member
  | cons f fields ih =>
    have here : f ∈ f :: fields := List.mem_cons_self
    have text : linesText ((f :: fields).map fieldLine) ++ tail =
        (fieldLine f).toList ++ '\n' :: (linesText (fields.map fieldLine) ++ tail) := by
      simp [linesText]
    rw [text] at read
    by_cases faithful : f.2.Faithful
    · obtain ⟨m, after⟩ := (reads_field (bare f here) faithful focus (fresh f here) open_).continue
        (return_not_mem_fieldLine (bare f here) faithful) read
      have badRest : ∃ g ∈ fields, ¬ g.2.Faithful := by
        obtain ⟨g, member, notFaithful⟩ := bad
        rcases List.mem_cons.mp member with rfl | later
        · exact absurd faithful notFaithful
        · exact ⟨g, later, notFaithful⟩
      have freshRest : ∀ g ∈ fields, lookup g.1 (t ++ [(f.1, f.2.value)]) = none := by
        intro g member
        have apart : f.1 ≠ g.1 := fun same => (List.nodup_cons.mp distinct).1 (same ▸ List.mem_map_of_mem member)
        rw [lookup_append_none]
        exact ⟨fresh g (List.mem_cons_of_mem _ member), by simp [lookup, apart]⟩
      obtain ⟨g, member, changed⟩ := ih (fun g member => bare g (List.mem_cons_of_mem _ member))
        (fun g member => keyed g (List.mem_cons_of_mem _ member)) badRest (List.nodup_cons.mp distinct).2 freshRest
        (has_freeze.trans open_) after
      exact ⟨g, List.mem_cons_of_mem _ member, changed⟩
    · refine ⟨f, here, misread_field (bare f here) (keyed f here) faithful focus shows (fresh f here) ?_ read⟩
      cases fields with
      | nil => exact continues
      | cons g fields =>
        have source : linesText ((g :: fields).map fieldLine) ++ tail = g.1.toList ++
            (" = ".toList ++ g.2.source.toList ++ '\n' :: (linesText (fields.map fieldLine) ++ tail)) := by
          simp [linesText, fieldLine, String.toList_append]
        rw [source]
        exact continues_of_bare (bare g (by simp)) _

end McpSsh.Toml
