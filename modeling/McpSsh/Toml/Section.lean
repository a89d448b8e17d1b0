import McpSsh.Toml.Lines

/-!
# Sections of plain pairs

A header followed by pairs of bare keys and plain values fills one table of the
document. Where that table lies is described by how the document is rebuilt
around it.
-/

set_option autoImplicit false

namespace McpSsh.Toml

/-- A value written without quoting. -/
inductive Emitted where
  | text (s : String)
  | int (n : Int)
  | pairs (items : List (String × String))

namespace Emitted

/-- The source text of the value. -/
def source : Emitted → String
  | text s => "\"" ++ s ++ "\""
  | int n => toString n
  | pairs items => "\x7b " ++ ", ".intercalate (items.map pairText) ++ " \x7d"

/-- The value meant. -/
def value : Emitted → Value
  | text s => .str s
  | int n => .int n
  | pairs items => .table (items.map fun e => (e.1, .str e.2))

/-- The source text stands for the value. -/
def Faithful : Emitted → Prop
  | text s => isPlain s = true
  | int _ => True
  | pairs items =>
    items ≠ [] ∧ (∀ e ∈ items, isBareKey e.1 = true ∧ isPlain e.2 = true) ∧ (items.map Prod.fst).Nodup

end Emitted

abbrev Field := String × Emitted

/-- `key = value`. -/
def fieldLine (f : Field) : String := f.1 ++ " = " ++ f.2.source

/-- The table of a list of fields. -/
def fieldTable (fields : List Field) : Table := fields.map fun f => (f.1, f.2.value)

/-- The flags after a list of fields under `header`. -/
def freezeAll (header : Key) (fields : List Field) (flags : Flags) : Flags :=
  fields.foldl (fun flags f => freeze f.2.value (header ++ [f.1]) flags) flags

/-- `rebuild` is the document around the table behind `header`. -/
def Focus (header : Key) (rebuild : Table → Table) : Prop :=
  ∀ (f : Table → Except TomlError Table) (t t' : Table), f t = .ok t' →
    updateNest true f header (rebuild t) = .ok (rebuild t')

/-- Pairs below a header are not inside a frozen namespace of their own making. -/
theorem has_freeze {value : Value} {header : Key} {key : String} {flags : Flags} :
    (freeze value (header ++ [key]) flags).has header .frozen = flags.has header .frozen := by
  have apart : header ++ [key] ≠ header := by simp
  have outside : (header ++ [key]).isPrefixOf header = false := by
    by_contra inside
    simp only [Bool.not_eq_false, List.isPrefixOf_iff_prefix] at inside
    have length := inside.length_le
    simp only [List.length_append, List.length_singleton] at length
    omega
  cases value <;> simp [freeze, Flags.set, Flags.has, outside]

theorem reads_field {f : Field} (bare : isBareKey f.1 = true) (faithful : f.2.Faithful) {header : Key}
    {rebuild : Table → Table} (focus : Focus header rebuild) {t : Table} (fresh : lookup f.1 t = none) {flags : Flags}
    (open_ : flags.has header .frozen = false) :
    Reads (fieldLine f) ⟨rebuild t, flags, [], header⟩
      ⟨rebuild (t ++ [(f.1, f.2.value)]), freeze f.2.value (header ++ [f.1]) flags, [], header⟩ := by
  have stored : updateNest true (addKey f.1 f.2.value .overwrittenValue) header (rebuild t) =
      .ok (rebuild (t ++ [(f.1, f.2.value)])) := focus _ _ _ (by simp [addKey, fresh])
  obtain ⟨key, emitted⟩ := f
  cases emitted with
  | text s => exact reads_text bare faithful open_ stored
  | int n => exact reads_int bare n open_ stored
  | pairs items =>
    obtain ⟨nonempty, sound, distinct⟩ := faithful
    exact reads_pairs bare nonempty (fun e member => (sound e member).1) (fun e member => (sound e member).2) distinct
      open_ stored

/-- Reading the pairs of a section appends them to its table. -/
theorem reads_fields {fields : List Field} (bare : ∀ f ∈ fields, isBareKey f.1 = true)
    (faithful : ∀ f ∈ fields, f.2.Faithful) (distinct : (fields.map Prod.fst).Nodup) {header : Key}
    {rebuild : Table → Table} (focus : Focus header rebuild) (t : Table) (fresh : ∀ f ∈ fields, lookup f.1 t = none)
    (flags : Flags) (open_ : flags.has header .frozen = false) :
    ReadsAll (fields.map fieldLine) ⟨rebuild t, flags, [], header⟩
      ⟨rebuild (t ++ fieldTable fields), freezeAll header fields flags, [], header⟩ := by
  induction fields generalizing t flags with
  | nil => simpa [fieldTable, freezeAll] using ReadsAll.nil
  | cons f fields ih =>
    have first := reads_field (bare f (by simp)) (faithful f (by simp)) focus (fresh f (by simp)) open_
    rw [List.map_cons, List.nodup_cons] at distinct
    have rest := ih (fun g member => bare g (by simp [member])) (fun g member => faithful g (by simp [member]))
      distinct.2 (t ++ [(f.1, f.2.value)]) ?_ (freeze f.2.value (header ++ [f.1]) flags) (has_freeze.trans open_)
    · rw [List.map_cons]
      refine .cons first ?_
      simpa [fieldTable, freezeAll] using rest
    · intro g member
      have apart : f.1 ≠ g.1 := fun same => distinct.1 (same ▸ List.mem_map_of_mem member)
      rw [lookup_append_none]
      exact ⟨fresh g (by simp [member]), by simp [lookup, apart]⟩

/-- **A section is read into its table.** -/
theorem reads_section {text : String} {header : Key} {fields : List Field}
    (parsed : ∀ (rest : List Char) (n : Nat), parseKey (n + 2) (text.toList ++ ']' :: rest) = .ok (header, ']' :: rest))
    (visible : ∀ c, text.toList.head? = some c → isBareKeyChar c = true) (nonempty : text.toList ≠ [])
    (bare : ∀ f ∈ fields, isBareKey f.1 = true) (faithful : ∀ f ∈ fields, f.2.Faithful)
    (distinct : (fields.map Prod.fst).Nodup) {rebuild : Table → Table} (focus : Focus header rebuild) {data : Table}
    (created : updateNest true .ok header data = .ok (rebuild [])) {flags : Flags} (before : Key)
    (new : flags.has header .explicitNest = false) (open_ : flags.has header .frozen = false) :
    ReadsAll (("[" ++ text ++ "]") :: fields.map fieldLine) ⟨data, flags, [], before⟩
      ⟨rebuild (fieldTable fields), freezeAll header fields (flags.set header .explicitNest false), [], header⟩ := by
  have head := reads_header (d := ⟨data, flags, [], before⟩) parsed visible nonempty rfl new open_ created
  have stillOpen : (flags.set header .explicitNest false).has header .frozen = false := by
    simpa [Flags.has, Flags.set] using open_
  have body := reads_fields bare faithful distinct focus [] (by simp [lookup]) _ stillOpen
  exact .cons head body

/-- The marks that the fields of a section leave are frozen and one level below
its header. -/
theorem mem_freezeAll {header : Key} {fields : List Field} (flags : Flags) {m : Mark}
    (member : m ∈ freezeAll header fields flags) :
    m ∈ flags ∨ (m.flag = .frozen ∧ m.key.length = header.length + 1) := by
  induction fields generalizing flags with
  | nil => exact .inl member
  | cons f fields ih =>
    rcases ih (freeze f.2.value (header ++ [f.1]) flags) member with earlier | new
    · cases emitted : f.2 with
      | text s => exact .inl (by simpa [emitted, Emitted.value, freeze] using earlier)
      | int n => exact .inl (by simpa [emitted, Emitted.value, freeze] using earlier)
      | pairs items =>
        simp only [emitted, Emitted.value, freeze, Flags.set, List.mem_append, List.mem_singleton] at earlier
        rcases earlier with earlier | rfl
        · exact .inl earlier
        · exact .inr ⟨rfl, by simp⟩
    · exact .inr new

/-! ## Nested tables -/

theorem updateNest_table {lists : Bool} {f : Table → Except TomlError Table} {k : String} (ks : Key) {t sub sub' : Table}
    (found : lookup k t = some (.table sub)) (inner : updateNest lists f ks sub = .ok sub') :
    updateNest lists f (k :: ks) t = .ok (assign k (.table sub') t) := by
  simp [updateNest, found, inner, bind, Except.bind, pure, Except.pure]

theorem updateNest_missing {lists : Bool} {f : Table → Except TomlError Table} {k : String} {ks : Key} {t sub : Table}
    (fresh : lookup k t = none) (inner : updateNest lists f ks [] = .ok sub) :
    updateNest lists f (k :: ks) t = .ok (t ++ [(k, .table sub)]) := by
  simp [updateNest, fresh, inner, bind, Except.bind, pure, Except.pure]

theorem assign_append {k : String} {v w : Value} {t : Table} (fresh : lookup k t = none) :
    assign k v (t ++ [(k, w)]) = t ++ [(k, v)] := by
  have same : assign k v t = t := by
    simp only [lookup, Option.map_eq_none_iff, List.find?_eq_none, decide_eq_true_eq] at fresh
    rw [assign, List.map_congr_left (g := id) fun e member => by simp [fresh e member], List.map_id]
  simp only [assign, List.map_append] at same ⊢
  simp [same]

theorem lookup_append_fresh {k : String} {w : Value} {t : Table} (fresh : lookup k t = none) :
    lookup k (t ++ [(k, w)]) = some w := by
  simp only [lookup, Option.map_eq_none_iff] at fresh
  simp [lookup, List.find?_append, fresh]

/-! ## The text of lines -/

theorem replaceCrLf_of_not_mem {src : List Char} (clean : '\r' ∉ src) : replaceCrLf src = src := by
  induction src with
  | nil => rfl
  | cons c src ih =>
    simp only [List.mem_cons, not_or] at clean
    rw [replaceCrLf.eq_2 _ _ fun _ same _ => clean.1 same.symm, ih clean.2]

/-- The value texts hold no carriage return. -/
theorem return_not_mem_source {v : Emitted} (faithful : v.Faithful) : '\r' ∉ v.source.toList := by
  have plainText : ∀ s : String, isPlain s = true → '\r' ∉ s.toList := fun s plain member =>
    absurd (List.all_eq_true.mp plain _ member) (by decide)
  cases v with
  | text s => simpa [Emitted.source, String.toList_append] using plainText s faithful
  | int n =>
    intro member
    rcases toList_toString_int n with ⟨m, -, text⟩ | ⟨m, -, text⟩
    · exact absurd (isDigit_digits (text ▸ member)) (by decide)
    · have inside : '\r' ∈ '-' :: Nat.toDigits 10 m := text ▸ member
      rw [List.mem_cons] at inside
      rcases inside with minus | digit
      · cases minus
      · exact absurd (isDigit_digits digit) (by decide)
  | pairs items =>
    have joined : ∀ items : List (String × String), (∀ e ∈ items, isBareKey e.1 = true ∧ isPlain e.2 = true) →
        '\r' ∉ (", ".intercalate (items.map pairText)).toList := by
      intro items sound
      induction items with
      | nil => simp
      | cons e items ih =>
        have key : '\r' ∉ e.1.toList := fun member =>
          absurd ((isBareKey_iff.mp (sound e (by simp)).1).2 _ member) (by decide)
        have pair : '\r' ∉ (pairText e).toList := by
          simpa [pairText, String.toList_append] using ⟨key, plainText _ (sound e (by simp)).2⟩
        cases items with
        | nil => simpa using pair
        | cons f items =>
          rw [List.map_cons, List.map_cons, String.intercalate_cons_cons, ← List.map_cons]
          simp only [String.toList_append, List.mem_append, not_or]
          exact ⟨⟨pair, by decide⟩, ih fun g member => sound g (by simp [member])⟩
    simp only [Emitted.source, String.toList_append, List.mem_append, not_or]
    exact ⟨⟨by decide, joined items faithful.2.1⟩, by decide⟩

theorem return_not_mem_fieldLine {f : Field} (bare : isBareKey f.1 = true) (faithful : f.2.Faithful) :
    '\r' ∉ (fieldLine f).toList := by
  have key : '\r' ∉ f.1.toList := fun member => absurd ((isBareKey_iff.mp bare).2 _ member) (by decide)
  simp only [fieldLine, String.toList_append, List.mem_append, not_or]
  exact ⟨⟨key, by decide⟩, return_not_mem_source faithful⟩

/-- Lines joined by newlines, when the last one is empty. -/
theorem toList_intercalate_lines (lines : List String) :
    ("\n".intercalate (lines ++ [""])).toList = linesText lines := by
  induction lines with
  | nil => rfl
  | cons line lines ih =>
    rw [List.cons_append, String.intercalate_cons_of_ne_nil (by simp), String.toList_append, ih]
    simp [linesText, String.toList_append]

/-- **Clean lines that the parser reads one by one are a document.** -/
theorem loads_lines {lines : List String} {d : Doc} (reads : ReadsAll lines Doc.initial d)
    (clean : ∀ line ∈ lines, '\r' ∉ line.toList) : loads ("\n".intercalate (lines ++ [""])) = .ok d.data := by
  have same : replaceCrLf (linesText lines) = linesText lines := by
    refine replaceCrLf_of_not_mem fun member => ?_
    simp only [linesText, List.mem_flatMap, List.mem_append, List.mem_singleton] at member
    obtain ⟨line, inside, text | newline⟩ := member
    · exact clean line inside text
    · cases newline
  have enough : lines.length < (linesText lines).length + 1 := by
    have long : ∀ lines : List String, lines.length ≤ (linesText lines).length := by
      intro lines
      induction lines with
      | nil => simp
      | cons line lines ih =>
        simp only [linesText, List.flatMap_cons, List.length_append, List.length_cons] at ih ⊢
        omega
    have bound := long lines
    omega
  rw [loads, toList_intercalate_lines, same]
  exact reads.statements enough

end McpSsh.Toml
