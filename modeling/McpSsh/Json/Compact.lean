import McpSsh.Json.RoundTrip

/-!
# JSON on one line

Values written without white space. How a character of a string is written is left open,
as long as JSON lets it stand for that character. Induction is on the value; the texts of
the items of an array and of the members of an object are taken as a list.
-/

set_option autoImplicit false

namespace McpSsh.Json

open Toml (isDigit isHexDigit digitsValue)

/-! ## Characters -/

/-- What may stand for a character in a string. -/
inductive CharText : Char → List Char → Prop where
  | plain {c : Char} (quote : c ≠ '"') (backslash : c ≠ '\\') (visible : ¬ c.toNat < 32) : CharText c [c]
  | short {e c : Char} (known : escaped e = some c) : CharText c ['\\', e]
  | unicode {c h₃ h₂ h₁ h₀ : Char} (hex : [h₃, h₂, h₁, h₀].all isHexDigit = true)
      (code : digitsValue 16 [h₃, h₂, h₁, h₀] = c.toNat) : CharText c ['\\', 'u', h₃, h₂, h₁, h₀]
  /-- Two surrogates. -/
  | pair {c h₃ h₂ h₁ h₀ l₃ l₂ l₁ l₀ : Char} (hex : [h₃, h₂, h₁, h₀].all isHexDigit = true)
      (hex' : [l₃, l₂, l₁, l₀].all isHexDigit = true)
      (high : 0xd800 ≤ digitsValue 16 [h₃, h₂, h₁, h₀] ∧ digitsValue 16 [h₃, h₂, h₁, h₀] < 0xdc00)
      (low : 0xdc00 ≤ digitsValue 16 [l₃, l₂, l₁, l₀] ∧ digitsValue 16 [l₃, l₂, l₁, l₀] < 0xe000)
      (code : 0x10000 + (digitsValue 16 [h₃, h₂, h₁, h₀] - 0xd800) * 0x400 +
        (digitsValue 16 [l₃, l₂, l₁, l₀] - 0xdc00) = c.toNat) :
      CharText c ['\\', 'u', h₃, h₂, h₁, h₀, '\\', 'u', l₃, l₂, l₁, l₀]

theorem stringBody_unicode {h₃ h₂ h₁ h₀ : Char} (hex : [h₃, h₂, h₁, h₀].all isHexDigit = true) (tail : List Char) :
    stringBody ('\\' :: 'u' :: h₃ :: h₂ :: h₁ :: h₀ :: tail) =
      (stringBody tail).map fun r => (joined (pointOf (digitsValue 16 [h₃, h₂, h₁, h₀])) r.1, r.2) := by
  rw [stringBody, if_neg (by decide), if_pos rfl]
  simp only [hex, if_true]

theorem escaped_ne_u {e c : Char} (known : escaped e = some c) : e ≠ 'u' := by
  rintro rfl
  cases known

/-- **What stands for a character is read as that character.** -/
theorem CharText.stringBody {c : Char} {text : List Char} (stands : CharText c text) (tail : List Char) :
    stringBody (text ++ tail) = (Json.stringBody tail).map fun r => (.char c :: r.1, r.2) := by
  cases stands with
  | plain quote backslash visible => exact stringBody_plain quote backslash visible tail
  | @short e _ known =>
    have other := escaped_ne_u known
    rw [List.cons_append, List.cons_append, List.nil_append, Json.stringBody.eq_def]
    simp only [if_neg (show '\\' ≠ '"' by decide), if_true]
    split
    · rename_i same
      exact absurd (List.cons.inj same).1 other
    · rename_i same
      cases same
      rw [known]
      rfl
    · rename_i same
      cases same
  | unicode hex code =>
    have scalar := (toNat_lt c).2
    have point : pointOf c.toNat = .char c := by rw [pointOf, if_neg scalar, Char.ofNat_toNat]
    simp only [List.cons_append, List.nil_append]
    rw [stringBody_unicode hex, code, point]
    rfl
  | pair hex hex' high low code =>
    simp only [List.cons_append, List.nil_append]
    rw [stringBody_unicode hex, stringBody_unicode hex', Option.map_map]
    refine Option.map_congr fun r _ => ?_
    rw [Function.comp_apply, pointOf, if_pos (by omega), pointOf, if_pos (by omega)]
    dsimp only
    rw [joined_low low.1, joined_pair high.2 low.1, code, Char.ofNat_toNat]

theorem not_hex_newline : isHexDigit '\n' = false := by decide

/-- Whatever stands for a character does not end the line. -/
theorem CharText.one_line {c : Char} {text : List Char} (stands : CharText c text) : '\n' ∉ text := by
  have digits : ∀ ds : List Char, ds.all isHexDigit = true → '\n' ∉ ds := by
    intro ds hex member
    have digit := List.all_eq_true.mp hex _ member
    rw [not_hex_newline] at digit
    cases digit
  cases stands with
  | plain quote backslash visible =>
    intro member
    obtain rfl := List.mem_singleton.mp member
    exact visible (by decide)
  | @short e _ known =>
    intro member
    rcases List.mem_pair.mp member with same | rfl
    · revert same
      decide
    · cases known
  | unicode hex code =>
    intro member
    rcases List.mem_append.mp (show '\n' ∈ ['\\', 'u'] ++ _ from member) with front | inside
    · revert front
      decide
    · exact digits _ hex inside
  | @pair _ h₃ h₂ h₁ h₀ l₃ l₂ l₁ l₀ hex hex' high low code =>
    intro member
    rcases List.mem_append.mp (show '\n' ∈ ['\\', 'u', h₃, h₂, h₁, h₀] ++ ['\\', 'u', l₃, l₂, l₁, l₀] from member) with
      first | second
    · rcases List.mem_append.mp (show '\n' ∈ ['\\', 'u'] ++ _ from first) with front | inside
      · revert front
        decide
      · exact digits _ hex inside
    · rcases List.mem_append.mp (show '\n' ∈ ['\\', 'u'] ++ _ from second) with front | inside
      · revert front
        decide
      · exact digits _ hex' inside

/-! ## Writing -/

/-- Texts with commas between them. -/
def commaSep : List (List Char) → List Char
  | [] => []
  | [text] => text
  | text :: texts => text ++ ',' :: commaSep texts

section

variable (escape : Char → List Char)

def compactString (s : PyString) : List Char :=
  '"' :: (s.flatMap (fun | .char c => escape c | .surrogate n => unicodeEscape n) ++ ['"'])

mutual

/-- A value on one line. -/
def compact : Value → List Char
  | .null => "null".toList
  | .bool true => "true".toList
  | .bool false => "false".toList
  | .int n => (toString n).toList
  | .float literal => literal.toList
  | .str s => compactString escape s
  | .arr vs => '[' :: (commaSep (compactItems vs) ++ [']'])
  | .obj fields => '{' :: (commaSep (compactMembers fields) ++ ['}'])

def compactItems : List Value → List (List Char)
  | [] => []
  | v :: vs => compact v :: compactItems vs

def compactMembers : List (PyString × Value) → List (List Char)
  | [] => []
  | (k, v) :: fields => (compactString escape k ++ ':' :: compact v) :: compactMembers fields

end

end

/-- How characters are escaped is legal. -/
def Escapes (escape : Char → List Char) : Prop := ∀ c, CharText c (escape c)

/-- Only what has to be escaped is. -/
def escapeControl (c : Char) : List Char :=
  match shortEscapes.find? fun s => s.2 = c with
  | some s => ['\\', s.1]
  | none => if c.toNat < 32 then unicodeEscape c.toNat else [c]

theorem escapes_escapeControl : Escapes escapeControl := by
  intro c
  rw [escapeControl]
  split
  · rename_i s found
    have each : ∀ s ∈ shortEscapes, escaped s.1 = some s.2 := by decide
    have same := List.find?_some found
    exact .short (by rw [each s (List.mem_of_find?_eq_some found), of_decide_eq_true same])
  · rename_i other
    have quote : c ≠ '"' := by
      rintro rfl
      revert other
      decide
    have backslash : c ≠ '\\' := by
      rintro rfl
      revert other
      decide
    split
    · refine .unicode ?_ (digitsValue_hex (by omega))
      have digit : ∀ d < 16, isHexDigit (hexDigit d) = true := fun d small => (hexDigit_spec d small).1
      simp only [List.all_cons, List.all_nil, Bool.and_true, Bool.and_eq_true]
      exact ⟨digit _ (by omega), digit _ (by omega), digit _ (by omega), digit _ (by omega)⟩
    · rename_i visible
      exact .plain quote backslash visible

/-! ## Reading back -/

/-- The text of a value on one line. -/
structure Writes (v : Value) (text : List Char) : Prop where
  opens : ∃ c tail, text = c :: tail ∧ c ∉ [']', '\ufeff'] ∧ isSpace c = false
  reads : ∀ n rest, text.length ≤ n → NumberEnds rest → parseValue n (text ++ rest) = some (v, rest)
  line : '\n' ∉ text

theorem Writes.skipSpace {v : Value} {text : List Char} (writes : Writes v text) (rest : List Char) :
    skipSpace (text ++ rest) = text ++ rest := by
  obtain ⟨c, tail, rfl, -, visible⟩ := writes.opens
  rw [List.cons_append, skipSpace_head visible]

/-- A value that has no parts is written as with an indent. -/
theorem writes_write {v : Value} (dumpable : Dumpable v) (line : '\n' ∉ write 0 v) : Writes v (write 0 v) :=
  ⟨write_head dumpable 0, fun n rest enough ends => readsBack_of_dumpable dumpable n 0 rest enough ends, line⟩

section

variable {escape : Char → List Char} (escapes : Escapes escape)

include escapes

theorem stringBody_compact (s : List Char) (rest : List Char) :
    stringBody ((s.map CodePoint.char).flatMap (fun | .char c => escape c | .surrogate n => unicodeEscape n) ++ '"' :: rest) =
      some (s.map .char, rest) := by
  induction s with
  | nil => exact stringBody_quote rest
  | cons c s ih =>
    rw [List.map_cons, List.flatMap_cons, List.append_assoc, (escapes c).stringBody, ih]
    rfl

/-- A string is read back. -/
theorem stringBody_compactString (s : String) (rest : List Char) :
    ∃ tail, compactString escape (ofString s) ++ rest = '"' :: tail ∧ stringBody tail = some (ofString s, rest) := by
  refine ⟨_, rfl, ?_⟩
  rw [List.append_eq, List.append_assoc]
  exact stringBody_compact escapes s.toList rest

theorem line_compactString (s : String) : '\n' ∉ compactString escape (ofString s) := by
  intro member
  rcases List.mem_cons.mp member with first | member
  · revert first
    decide
  rcases List.mem_append.mp member with inside | last
  · obtain ⟨p, point, written⟩ := List.mem_flatMap.mp inside
    obtain ⟨c, -, rfl⟩ := List.mem_map.mp point
    exact (escapes c).one_line written
  · revert last
    decide

theorem writes_string (s : String) : Writes (.str (ofString s)) (compactString escape (ofString s)) where
  opens := ⟨'"', _, rfl, by decide, by decide⟩
  reads n rest enough ends := by
    obtain ⟨tail, text, read⟩ := stringBody_compactString escapes s rest
    obtain ⟨n, rfl⟩ : ∃ m, n = m + 1 := ⟨n - 1, by simp [compactString] at enough; omega⟩
    rw [text, parseValue, read]
    rfl
  line := line_compactString escapes s

end

/-! ## Arrays -/

theorem commaSep_cons (text : List Char) (texts : List (List Char)) : ∃ tail, commaSep (text :: texts) = text ++ tail ∧
    (tail = [] ∧ texts = [] ∨ ∃ next others, texts = next :: others ∧ tail = ',' :: commaSep texts) := by
  cases texts with
  | nil => exact ⟨[], (List.append_nil text).symm, .inl ⟨rfl, rfl⟩⟩
  | cons next others => exact ⟨_, rfl, .inr ⟨next, others, rfl, rfl⟩⟩

theorem Writes.skipSpace_commaSep {v : Value} {text : List Char} (writes : Writes v text) (texts : List (List Char))
    (rest : List Char) : Json.skipSpace (commaSep (text :: texts) ++ rest) = commaSep (text :: texts) ++ rest := by
  obtain ⟨tail, whole, -⟩ := commaSep_cons text texts
  rw [whole, List.append_assoc, writes.skipSpace]

theorem line_commaSep {texts : List (List Char)} (each : ∀ text ∈ texts, '\n' ∉ text) : '\n' ∉ commaSep texts := by
  induction texts with
  | nil => exact List.not_mem_nil
  | cons text texts ih =>
    obtain ⟨here, later⟩ := List.forall_mem_cons.mp each
    obtain ⟨tail, whole, ⟨rfl, -⟩ | ⟨_, _, -, rfl⟩⟩ := commaSep_cons text texts
    · rw [whole, List.append_nil]
      exact here
    · rw [whole]
      intro member
      rcases List.mem_append.mp member with inside | inside
      · exact here inside
      · rcases List.mem_cons.mp inside with comma | inside
        · revert comma
          decide
        · exact ih later inside

/-- The items of an array are read back, up to its bracket. -/
theorem parseItems_commaSep {vs : List Value} {texts : List (List Char)} (each : List.Forall₂ Writes vs texts) {v : Value}
    {text : List Char} (first : Writes v text) (rest : List Char) {n : Nat} (enough : (commaSep (text :: texts)).length < n) :
    parseItems n (commaSep (text :: texts) ++ ']' :: rest) = some (v :: vs, rest) := by
  induction each generalizing v text n with
  | nil =>
    obtain ⟨n, rfl⟩ : ∃ m, n = m + 1 := ⟨n - 1, by omega⟩
    rw [commaSep] at enough ⊢
    rw [parseItems, first.reads n _ (by omega) (numberEnds_cons (by decide) _)]
    rfl
  | @cons w next vs texts second each ih =>
    obtain ⟨n, rfl⟩ : ∃ m, n = m + 1 := ⟨n - 1, by omega⟩
    have whole : commaSep (text :: next :: texts) = text ++ ',' :: commaSep (next :: texts) := rfl
    rw [whole, List.length_append, List.length_cons] at enough
    rw [whole, List.append_assoc, List.cons_append, parseItems,
      first.reads n _ (by omega) (numberEnds_cons (by decide) _)]
    simp only [skipSpace_head (c := ',') rfl, second.skipSpace_commaSep]
    rw [ih second (by omega)]
    rfl

theorem writes_array {vs : List Value} {texts : List (List Char)} (each : List.Forall₂ Writes vs texts) :
    Writes (.arr vs) ('[' :: (commaSep texts ++ [']'])) where
  opens := ⟨'[', _, rfl, by decide, by decide⟩
  reads n rest enough ends := by
    obtain ⟨n, rfl⟩ : ∃ m, n = m + 1 := ⟨n - 1, by simp at enough; omega⟩
    cases each with
    | nil => rfl
    | @cons v text vs texts first each =>
      have skip := first.skipSpace_commaSep texts (']' :: rest)
      rw [List.cons_append, List.append_assoc, List.cons_append, List.nil_append, parseValue_array, skip,
        parseItems_commaSep each first]
      · rfl
      · simp only [List.length_cons, List.length_append] at enough
        omega
      · obtain ⟨c, more, rfl, other, -⟩ := first.opens
        obtain ⟨tail, whole, -⟩ := commaSep_cons (c :: more) texts
        rw [skip, whole]
        rintro ⟨⟩
        simp at other
  line := by
    have lines : ∀ text ∈ texts, '\n' ∉ text := by
      induction each with
      | nil => exact fun _ member => absurd member List.not_mem_nil
      | cons first _ ih => exact List.forall_mem_cons.mpr ⟨first.line, ih⟩
    simp [line_commaSep lines]

/-! ## Objects -/

section

variable {escape : Char → List Char}

/-- The text of a member of an object. -/
def WritesMember (escape : Char → List Char) (f : PyString × Value) (text : List Char) : Prop :=
  ∃ k body, f.1 = ofString k ∧ text = compactString escape f.1 ++ ':' :: body ∧ Writes f.2 body

theorem WritesMember.skipSpace_commaSep {f : PyString × Value} {text : List Char} (writes : WritesMember escape f text)
    (texts : List (List Char)) (rest : List Char) :
    Json.skipSpace (commaSep (text :: texts) ++ rest) = commaSep (text :: texts) ++ rest := by
  obtain ⟨k, body, -, rfl, -⟩ := writes
  obtain ⟨tail, whole, -⟩ := commaSep_cons (compactString escape f.1 ++ ':' :: body) texts
  rw [whole]
  exact skipSpace_head rfl _

variable (escapes : Escapes escape)

include escapes

/-- The first member of an object. -/
theorem parseMembers_compact {f : PyString × Value} {text : List Char} (writes : WritesMember escape f text) {n : Nat}
    (enough : text.length ≤ n) {tail : List Char} (ends : NumberEnds tail) :
    parseMembers (n + 1) (text ++ tail) =
      match skipSpace tail with
      | ',' :: rest => (parseMembers n (skipSpace rest)).map fun r => (f :: r.1, r.2)
      | '}' :: rest => some ([f], rest)
      | _ => none := by
  obtain ⟨key, v⟩ := f
  obtain ⟨k, body, rfl : key = ofString k, rfl, value⟩ := writes
  obtain ⟨inner, quoted, read⟩ := stringBody_compactString escapes k (':' :: (body ++ tail))
  rw [List.length_append, List.length_cons] at enough
  have found : parseValue n (skipSpace (body ++ tail)) = some (v, tail) := by
    rw [value.skipSpace]
    exact value.reads n tail (by omega) ends
  rw [List.append_assoc, List.cons_append, quoted, parseMembers, read]
  simp only [skipSpace_head (c := ':') rfl]
  generalize parseValue n (skipSpace (body ++ tail)) = result at found ⊢
  subst found
  rfl

/-- The members of an object are read back, up to its brace. -/
theorem parseMembers_commaSep {fields : List (PyString × Value)} {texts : List (List Char)}
    (each : List.Forall₂ (WritesMember escape) fields texts) {f : PyString × Value} {text : List Char}
    (first : WritesMember escape f text) (rest : List Char) {n : Nat} (enough : (commaSep (text :: texts)).length < n) :
    parseMembers n (commaSep (text :: texts) ++ '}' :: rest) = some (f :: fields, rest) := by
  induction each generalizing f text n with
  | nil =>
    obtain ⟨n, rfl⟩ : ∃ m, n = m + 1 := ⟨n - 1, by omega⟩
    rw [commaSep] at enough ⊢
    rw [parseMembers_compact escapes first (by omega) (numberEnds_cons (by decide) _)]
    rfl
  | @cons g next fields texts second each ih =>
    obtain ⟨n, rfl⟩ : ∃ m, n = m + 1 := ⟨n - 1, by omega⟩
    have whole : commaSep (text :: next :: texts) = text ++ ',' :: commaSep (next :: texts) := rfl
    rw [whole, List.length_append, List.length_cons] at enough
    rw [whole, List.append_assoc, List.cons_append,
      parseMembers_compact escapes first (by omega) (numberEnds_cons (by decide) _)]
    simp only [skipSpace_head (c := ',') rfl, second.skipSpace_commaSep]
    rw [ih second (by omega)]
    rfl

theorem line_members {fields : List (PyString × Value)} {texts : List (List Char)}
    (each : List.Forall₂ (WritesMember escape) fields texts) : ∀ text ∈ texts, '\n' ∉ text := by
  induction each with
  | nil => exact fun _ member => absurd member List.not_mem_nil
  | @cons f _ _ _ first _ ih =>
    refine List.forall_mem_cons.mpr ⟨?_, ih⟩
    obtain ⟨k, body, same, rfl, value⟩ := first
    rw [same]
    intro member
    rcases List.mem_append.mp member with inside | inside
    · exact line_compactString escapes k inside
    · rcases List.mem_cons.mp inside with colon | inside
      · revert colon
        decide
      · exact value.line inside

theorem writes_object {fields : List (PyString × Value)} {texts : List (List Char)}
    (distinct : (fields.map Prod.fst).Nodup) (each : List.Forall₂ (WritesMember escape) fields texts) :
    Writes (.obj fields) ('{' :: (commaSep texts ++ ['}'])) where
  opens := ⟨'{', _, rfl, by decide, by decide⟩
  reads n rest enough ends := by
    obtain ⟨n, rfl⟩ : ∃ m, n = m + 1 := ⟨n - 1, by simp at enough; omega⟩
    have order := @foldl_put [] fields distinct
    cases each with
    | nil => rfl
    | @cons f text fields texts first each =>
      have skip := first.skipSpace_commaSep texts ('}' :: rest)
      rw [List.cons_append, List.append_assoc, List.cons_append, List.nil_append, parseValue_object, skip,
        parseMembers_commaSep escapes each first, Option.map_some, order]
      · rfl
      · simp only [List.length_cons, List.length_append] at enough
        omega
      · obtain ⟨k, body, -, rfl, -⟩ := first
        obtain ⟨tail, whole, -⟩ := commaSep_cons (compactString escape f.1 ++ ':' :: body) texts
        rw [skip, whole]
        rintro ⟨⟩
  line := by simp [line_commaSep (line_members escapes each)]

/-! ## Any value -/

omit escapes in
/-- What a number is written with. -/
theorem chars_number {v : Value}
    (number : (∃ n, v = .int n) ∨ ∃ literal : String, v = .float literal ∧ FloatText literal.toList) :
    ∀ c ∈ write 0 v, isDigit c = true ∨ c ∈ ['+', '-', '.', 'e', 'E'] := by
  have wholes : ∀ whole, Whole whole → ∀ c ∈ whole, isDigit c = true := by
    rintro whole (rfl | ⟨-, all, -⟩)
    · rintro c (_ | ⟨_, ⟨⟩⟩)
      rfl
    · exact all
  intro c member
  rcases number with ⟨n, rfl⟩ | ⟨literal, rfl, minus, whole, fraction, exponent, text, sign, first, second, third, -⟩
  · rw [write] at member
    obtain ⟨m, -, text⟩ | ⟨m, -, text⟩ := Toml.toList_toString_int n
    · rw [text] at member
      exact .inl (wholes _ (whole_digits m) c member)
    · rw [text] at member
      obtain rfl | digit := List.mem_cons.mp member
      · exact .inr (by decide)
      · exact .inl (wholes _ (whole_digits m) c digit)
  · rw [write, text] at member
    simp only [List.mem_append] at member
    obtain inside | inside | inside | inside := member
    · obtain rfl | rfl := List.mem_pair.mp sign
      · cases inside
      · exact .inr (by simp at inside; simp [inside])
    · exact .inl (wholes whole first c inside)
    · obtain rfl | ⟨ds, rfl, -, all⟩ := second
      · cases inside
      · obtain rfl | digit := List.mem_cons.mp inside
        · exact .inr (by decide)
        · exact .inl (all c digit)
    · obtain rfl | ⟨e, sign, ds, rfl, letter, signed, -, all⟩ := third
      · cases inside
      · obtain rfl | inside := List.mem_cons.mp inside
        · exact .inr (by rcases letter with rfl | rfl <;> decide)
        · obtain inside | digit := List.mem_append.mp inside
          · simp only [List.mem_cons, List.not_mem_nil, or_false] at signed
            obtain rfl | rfl | rfl := signed <;> simp at inside
            · exact .inr (by simp [inside])
            · exact .inr (by simp [inside])
          · exact .inl (all c digit)

omit escapes in
theorem line_number {v : Value}
    (number : (∃ n, v = .int n) ∨ ∃ literal : String, v = .float literal ∧ FloatText literal.toList) : '\n' ∉ write 0 v := by
  intro member
  have other := chars_number number _ member
  revert other
  decide

/-- **Any value is written on one line and read back.** -/
theorem writes_compact {v : Value} (dumpable : Dumpable v) : Writes v (compact escape v) := by
  induction dumpable with
  | null => exact writes_write .null (by decide)
  | bool b => cases b <;> exact writes_write (.bool _) (by decide)
  | int n => exact writes_write (.int n) (line_number (.inl ⟨n, rfl⟩))
  | float shape => exact writes_write (.float shape) (line_number (.inr ⟨_, rfl, shape⟩))
  | str s => exact writes_string escapes s
  | @arr vs items ih =>
    rw [compact]
    refine writes_array ?_
    clear items
    induction vs with
    | nil => exact .nil
    | cons v vs inner =>
      obtain ⟨here, later⟩ := List.forall_mem_cons.mp ih
      exact .cons here (inner later)
  | @obj fields distinct keys values ih =>
    rw [compact]
    refine writes_object escapes distinct ?_
    clear values distinct
    induction fields with
    | nil => exact .nil
    | cons f fields inner =>
      obtain ⟨⟨k, key⟩, keys⟩ := List.forall_mem_cons.mp keys
      obtain ⟨here, later⟩ := List.forall_mem_cons.mp ih
      exact .cons ⟨k, _, key, rfl, here⟩ (inner keys later)

/-- **`json.loads` reads a value from its line.** -/
theorem loads_compact {v : Value} (dumpable : Dumpable v) : loads (String.ofList (compact escape v)) = some v := by
  have writes := writes_compact escapes dumpable
  have read := writes.reads (2 * (compact escape v).length + 2) [] (by omega) (by rintro _ ⟨⟩)
  have skip := writes.skipSpace []
  rw [List.append_nil] at read skip
  have mark : (compact escape v).head? ≠ some '\ufeff' := by
    obtain ⟨c, tail, text, other, -⟩ := writes.opens
    rw [text]
    rintro ⟨⟩
    simp at other
  rw [loads, String.toList_ofList, if_neg mark, skip, read]
  rfl

end

end McpSsh.Json
