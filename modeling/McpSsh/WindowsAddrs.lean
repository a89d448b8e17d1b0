import McpSsh.DiscoveryCaps
import Mathlib.Data.List.DropRight

/-!
# The addresses of a Windows host

`parse_windows_addrs` of `topology.py` reads rows of an interface alias and an address.
It takes the first token of a row for the interface, so that an alias of several words
goes by its first one, and a word of the alias that holds an address is read as one.
-/

set_option autoImplicit false

namespace McpSsh

open Base Base.Ip

/-! ## The filter -/

/-- `_SKIP_IFACE_PREFIXES`. -/
def skipIfacePrefixes : List (List Char) := ["lo".toList, "docker".toList, "br-".toList, "veth".toList]

/-- `_skip_iface`. -/
def skipIface (name : List Char) : Bool :=
  let lowered := lowerText name
  skipIfacePrefixes.any fun p => lowered = p || p.isPrefixOf lowered

/-- `_skip_addr`. -/
def skipAddr (addr : List Char) : Bool :=
  match parseAddress addr with
  | none => true
  | some ip => ip.isLoopback || ip.isLinkLocal

/-- `_keep_addr`. -/
def keepAddr (name addr : List Char) : Bool := !skipIface name && !skipAddr addr

/-! ## The rows -/

/-- `[\s,]`. -/
def isSeparator (c : Char) : Bool := isSpace c || c = ','

def isQuote (c : Char) : Bool := c = '"'

/-- `strip('"')`. -/
def stripQuotes (text : List Char) : List Char := (text.dropWhile isQuote).rdropWhile isQuote

/-- The loop over the tokens behind the name; what has been seen is what is listed. -/
def addTokens (name : List Char) (addrs : List String) : List (List Char) → List String
  | [] => addrs
  | tok :: rest =>
    let tok := stripQuotes tok
    if (parseV4 tok).isNone then addTokens name addrs rest
    else if keepAddr name tok = true ∧ String.ofList tok ∉ addrs then addTokens name (addrs ++ [String.ofList tok]) rest
    else addTokens name addrs rest

/-- The loop over the lines. -/
def addRows (addrs : List String) : List (List Char) → List String
  | [] => addrs
  | raw :: rest =>
    let line := stripQuotes (strip raw)
    if line.isEmpty then addRows addrs rest
    else
      match splitRuns isSeparator line with
      | [] => addRows addrs rest
      | first :: tokens => addRows (addTokens (stripQuotes first) addrs tokens) rest

/-- `parse_windows_addrs`. -/
def parseWindowsAddrs (output : List Char) : List String := addRows [] (splitlines output)

/-! ## What the rows say -/

/-- A row: the words of an alias, none of which is an address, and an address. -/
structure AddrRow where
  interfaceAlias : List (List Char)
  addr : List Char
  ip : Address
  named : interfaceAlias ≠ []
  words : ∀ w ∈ interfaceAlias, Word w
  noAddress : ∀ w ∈ interfaceAlias, parseV4 w = none
  reads : parseV4 addr = some ip

/-- How a line ends. -/
inductive LineEnd where
  | lf
  | crlf

def LineEnd.text : LineEnd → List Char
  | .lf => ['\n']
  | .crlf => ['\r', '\n']

namespace AddrRow

/-- The alias, with single spaces between its words. -/
def aliasText (r : AddrRow) : List Char := [' '].intercalate r.interfaceAlias

def line (r : AddrRow) : List Char := r.aliasText ++ ' ' :: r.addr

/-- The rows, one a line. -/
def render (eol : LineEnd) (rows : List AddrRow) : List Char := rows.flatMap fun r => r.line ++ eol.text

/-- The alias names a loopback, docker, bridge or veth interface. -/
def Virtual (r : AddrRow) : Prop :=
  lowerText r.aliasText = "lo".toList ∨
    ∃ p ∈ ["loopback".toList, "docker".toList, "br-".toList, "veth".toList], p <+: lowerText r.aliasText

instance (r : AddrRow) : Decidable r.Virtual := inferInstanceAs (Decidable (_ ∨ _))

/-- The address is neither loopback nor link-local, and the interface is a real one. -/
def Real (r : AddrRow) : Prop := r.ip.isLoopback = false ∧ r.ip.isLinkLocal = false ∧ ¬ r.Virtual

instance (r : AddrRow) : Decidable r.Real := inferInstanceAs (Decidable (_ ∧ _ ∧ _))

/-- The parser returns the addresses of the real interfaces, in order and without repetition. -/
def Harvested (eol : LineEnd) (rows : List AddrRow) : Prop :=
  parseWindowsAddrs (render eol rows) = dedup [] ((rows.filter fun r => r.Real).map fun r => String.ofList r.addr)

/-! ## The condition -/

/-- What the alias is cut into at white space and commas. -/
def pieces (r : AddrRow) : List (List Char) := (r.aliasText.splitOnP isSeparator).map stripQuotes

/-- The front of the alias up to white space or a comma, without quotes around it. -/
def front (r : AddrRow) : List Char := r.pieces.headD []

/-- An alias that begins like a virtual one names one, if the address is a good one, and
no address is in an alias that begins otherwise, but for that of the row. -/
structure Clear (r : AddrRow) : Prop where
  named : skipIface r.front = true → skipAddr r.addr = false → r.Virtual
  alone : skipIface r.front = false → ∀ piece ∈ r.pieces.tail, (parseV4 piece).isSome = true → skipAddr piece = false →
    piece = r.addr

end AddrRow

/-! ## What is listed -/

/-- The same elements in the same order, but for those seen before. -/
theorem dedup_eq_filter (seen xs : List String) : dedup seen xs = (dedup [] xs).filter fun x => x ∉ seen := by
  induction xs generalizing seen with
  | nil => rfl
  | cons x xs ih =>
    rw [dedup, dedup, if_neg List.not_mem_nil, ih [x], List.filter_cons, List.filter_filter]
    by_cases old : x ∈ seen
    · rw [if_pos old, if_neg (by simpa using old), ih seen]
      apply List.filter_congr
      intro a _
      by_cases same : a = x
      · simp [same, old]
      · simp [same]
    · rw [if_neg old, if_pos (by simpa using old), ih (x :: seen)]
      congr 1
      apply List.filter_congr
      intro a _
      simp [Bool.and_comm]

/-- Parts that list the same list the same together. -/
theorem dedup_flatMap_congr {α : Type} {f g : α → List String} {xs : List α}
    (each : ∀ x ∈ xs, dedup [] (f x) = dedup [] (g x)) (seen : List String) :
    dedup seen (xs.flatMap f) = dedup seen (xs.flatMap g) := by
  induction xs generalizing seen with
  | nil => rfl
  | cons x xs ih =>
    have here : dedup seen (f x) = dedup seen (g x) := by
      rw [dedup_eq_filter seen, each x List.mem_cons_self, ← dedup_eq_filter]
    rw [List.flatMap_cons, List.flatMap_cons, dedup_append, dedup_append, here,
      ih fun y later => each y (List.mem_cons_of_mem _ later)]

theorem dedup_constant {xs : List String} {a : String} (member : a ∈ xs) (only : ∀ x ∈ xs, x = a) : dedup [] xs = [a] := by
  cases xs with
  | nil => cases member
  | cons x xs =>
    have rest : dedup [a] xs = [] := by
      apply List.eq_nil_iff_forall_not_mem.mpr
      intro y listed
      obtain ⟨later, fresh⟩ := mem_dedup.mp listed
      exact fresh (List.mem_singleton.mpr (only y (List.mem_cons_of_mem _ later)))
    rw [dedup, if_neg List.not_mem_nil, only x List.mem_cons_self, rest]

/-! ## The tokens of a row -/

def isV4 (tok : List Char) : Bool := (parseV4 tok).isSome

/-- The tokens that the loop lists. -/
def keptTokens (name : List Char) (tokens : List (List Char)) : List String :=
  (((tokens.map stripQuotes).filter isV4).filter (keepAddr name)).map String.ofList

theorem addTokens_eq (name : List Char) (addrs : List String) (tokens : List (List Char)) :
    addTokens name addrs tokens = addrs ++ dedup addrs (keptTokens name tokens) := by
  induction tokens generalizing addrs with
  | nil => simp [addTokens, keptTokens, dedup]
  | cons tok rest ih =>
    simp only [addTokens, keptTokens, List.map_cons]
    cases read : parseV4 (stripQuotes tok) with
    | none =>
      rw [if_pos Option.isNone_none, List.filter_cons_of_neg (by simp [isV4, read])]
      exact ih addrs
    | some ip =>
      rw [if_neg (by simp), List.filter_cons_of_pos (by simp [isV4, read])]
      cases keeps : keepAddr name (stripQuotes tok) with
      | false =>
        rw [if_neg (by simp), List.filter_cons_of_neg (by simp [keeps])]
        exact ih addrs
      | true =>
        rw [List.filter_cons_of_pos keeps, List.map_cons]
        by_cases old : String.ofList (stripQuotes tok) ∈ addrs
        · rw [if_neg (by simp [old]), dedup, if_pos old]
          exact ih addrs
        · rw [if_pos ⟨rfl, old⟩, append_dedup_cons old]
          exact ih _

namespace AddrRow

variable (r : AddrRow)

/-- The addresses that the loop over the tokens of the row lists. -/
def found : List String :=
  (((r.pieces.tail ++ [r.addr]).filter isV4).filter (keepAddr r.front)).map String.ofList

theorem addr_ne_nil : r.addr ≠ [] := by
  intro empty
  have read := r.reads
  rw [empty] at read
  cases read

/-- A character of an address is no white space, no comma and no quote. -/
theorem addr_plain {c : Char} (member : c ∈ r.addr) : isSeparator c = false ∧ isQuote c = false ∧ isSpace c = false := by
  rcases parseV4_chars r.reads c member with digit | rfl
  · have all : ((charsFrom 48 10).all fun c => isSeparator c = false ∧ isQuote c = false ∧ isSpace c = false) = true := by
      decide
    exact of_decide_eq_true (List.all_eq_true.mp all c (mem_digits digit))
  · decide

theorem stripQuotes_addr : stripQuotes r.addr = r.addr := by
  have front : r.addr.dropWhile isQuote = r.addr := by
    obtain ⟨c, rest, cut⟩ := List.exists_cons_of_ne_nil r.addr_ne_nil
    have plain := r.addr_plain (cut ▸ List.mem_cons_self)
    rw [cut, List.dropWhile_cons_of_neg (by simp [plain.2.1])]
  rw [stripQuotes, front, List.rdropWhile_eq_self_iff]
  intro visible
  simp [(r.addr_plain (List.getLast_mem visible)).2.1]

theorem line_chars {c : Char} (member : c ∈ r.line) : isSpace c = false ∨ c = ' ' := by
  rcases List.mem_append.mp member with inAlias | inAddr
  · rcases of_mem_intercalate inAlias with between | ⟨w, word, inside⟩
    · exact .inr (List.mem_singleton.mp between)
    · exact .inl ((r.words w word).solid c inside)
  · rcases List.mem_cons.mp inAddr with rfl | inside
    · exact .inr rfl
    · exact .inl (r.addr_plain inside).2.2

/-- A row is one line. -/
theorem line_solid : ∀ c ∈ r.line, isLineBoundary c = false := by
  intro c member
  rcases r.line_chars member with visible | rfl
  · exact Bool.eq_false_iff.mpr fun ends => by simp [isSpace_of_isLineBoundary ends] at visible
  · decide

theorem aliasText_head : ∃ c rest, r.aliasText = c :: rest ∧ isSpace c = false := by
  obtain ⟨first, others, cut⟩ := List.exists_cons_of_ne_nil r.named
  have word := r.words first (cut ▸ List.mem_cons_self)
  obtain ⟨c, tail, letters⟩ := List.exists_cons_of_ne_nil word.nonempty
  have solid := word.solid c (letters ▸ List.mem_cons_self)
  rw [aliasText, cut, letters]
  cases others with
  | nil => exact ⟨c, tail, by simp, solid⟩
  | cons second others => exact ⟨c, _, by rw [List.intercalate_cons_cons, List.cons_append, List.cons_append], solid⟩

theorem strip_line : strip r.line = r.line := by
  obtain ⟨c, rest, text, solid⟩ := r.aliasText_head
  apply strip_solid
  · intro d head
    rw [line, text, List.cons_append, List.head?_cons, Option.mem_some_iff] at head
    exact head ▸ solid
  · intro d last
    rw [line, List.getLast?_append_of_ne_nil _ (List.cons_ne_nil _ _), List.getLast?_cons_of_ne_nil r.addr_ne_nil] at last
    exact (r.addr_plain (List.mem_of_getLast? last)).2.2

/-- Only the quotes in front of the alias are stripped off the line. -/
theorem stripQuotes_line : stripQuotes r.line = r.aliasText.dropWhile isQuote ++ ' ' :: r.addr := by
  have front : r.line.dropWhile isQuote = r.aliasText.dropWhile isQuote ++ ' ' :: r.addr := by
    rw [line, List.dropWhile_append]
    split
    · rename_i quotes
      rw [List.isEmpty_iff.mp quotes]
      simp [isQuote]
    · rfl
  rw [stripQuotes, front, List.rdropWhile_eq_self_iff]
  intro _
  rw [List.getLast_append_of_ne_nil _ (List.cons_ne_nil _ _), List.getLast_cons r.addr_ne_nil]
  simp [(r.addr_plain (List.getLast_mem r.addr_ne_nil)).2.1]

/-- The tokens of a row are the pieces of its alias and the address. -/
theorem tokens_line : ∃ first tokens, splitRuns isSeparator (stripQuotes r.line) = first :: tokens ∧
    stripQuotes first = r.front ∧ (tokens.map stripQuotes).filter isV4 = (r.pieces.tail ++ [r.addr]).filter isV4 := by
  obtain ⟨head, pieces, split⟩ := List.exists_cons_of_ne_nil (List.splitOnP_ne_nil isSeparator r.aliasText)
  have quote : ∀ c, isQuote c = true → isSeparator c = false := by
    intro c isQuote
    rw [of_decide_eq_true isQuote]
    decide
  have whole : (stripQuotes r.line).splitOnP isSeparator = head.dropWhile isQuote :: (pieces ++ [r.addr]) := by
    rw [stripQuotes_line, List.splitOnP_append_cons _ _ (by decide), splitOnP_dropWhile quote, split,
      List.splitOnP_eq_singleton fun c member => (r.addr_plain member).1]
    rfl
  obtain ⟨first, pieces', tokens, cut, run, same⟩ := splitRuns_spec isSeparator (stripQuotes r.line)
  rw [whole] at cut
  obtain ⟨rfl, rfl⟩ := List.cons.inj cut
  refine ⟨_, tokens, run, ?_, ?_⟩
  · rw [front, AddrRow.pieces, split, stripQuotes, List.dropWhile_idempotent]
    rfl
  · -- an empty token is no address
    have visible : ∀ ts : List (List Char), (ts.map stripQuotes).filter isV4 =
        ((ts.filter fun t => !t.isEmpty).map stripQuotes).filter isV4 := by
      intro ts
      rw [List.filter_map, List.filter_map, List.filter_filter]
      congr 1
      apply List.filter_congr
      intro t _
      cases t with
      | nil => rfl
      | cons c t => simp
    rw [visible tokens, same, ← visible, AddrRow.pieces, split]
    simp [r.stripQuotes_addr]

end AddrRow

/-! ## A run over the rows -/

theorem addRows_line (r : AddrRow) (addrs : List String) (rest : List (List Char)) :
    addRows addrs (r.line :: rest) = addRows (addrs ++ dedup addrs r.found) rest := by
  obtain ⟨first, tokens, run, name, same⟩ := r.tokens_line
  have visible : (stripQuotes r.line).isEmpty = false := by simp [r.stripQuotes_line]
  rw [addRows]
  simp only [r.strip_line, visible, run, Bool.false_eq_true, if_false]
  rw [name, addTokens_eq, keptTokens, same, AddrRow.found]

theorem addRows_lines (addrs : List String) (rows : List AddrRow) :
    addRows addrs (rows.map AddrRow.line) = addrs ++ dedup addrs (rows.flatMap AddrRow.found) := by
  induction rows generalizing addrs with
  | nil => simp [addRows, dedup]
  | cons r rows ih => rw [List.map_cons, addRows_line, ih, List.flatMap_cons, dedup_append, List.append_assoc]

theorem splitlines_render (eol : LineEnd) (rows : List AddrRow) :
    splitlines (AddrRow.render eol rows) = rows.map AddrRow.line := by
  induction rows with
  | nil => rfl
  | cons r rows ih =>
    rw [AddrRow.render, List.flatMap_cons, List.append_assoc, List.map_cons, ← ih]
    cases eol with
    | lf => exact splitlines_lf r.line_solid _
    | crlf => exact splitlines_crlf r.line_solid _

theorem parseWindowsAddrs_render (eol : LineEnd) (rows : List AddrRow) :
    parseWindowsAddrs (AddrRow.render eol rows) = dedup [] (rows.flatMap AddrRow.found) := by
  rw [parseWindowsAddrs, splitlines_render, addRows_lines, List.nil_append]

/-! ## Aliases of virtual interfaces -/

theorem prefix_of_append_cons {p x y : List Char} {c : Char} (begins : p <+: x ++ c :: y) (fresh : c ∉ p) : p <+: x := by
  rcases List.prefix_or_prefix_of_prefix begins (List.prefix_append x (c :: y)) with done | ⟨rest, rfl⟩
  · exact done
  · rw [List.prefix_append_right_inj, List.prefix_cons_iff] at begins
    rcases begins with rfl | ⟨tail, rfl, -⟩
    · simp
    · simp at fresh

theorem lowerText_append (x y : List Char) : lowerText (x ++ y) = lowerText x ++ lowerText y := List.flatMap_append

/-- Separators and quotes have no case. -/
theorem lowerText_cons {c : Char} (mark : isSeparator c = true ∨ isQuote c = true) (rest : List Char) :
    lowerText (c :: rest) = c :: lowerText rest := by
  have keeps : lowerChar c = [c] := by
    have upper : ¬ c.isUpper = true := by
      intro upper
      have all : ((charsFrom 65 26).all fun c => isSeparator c = false ∧ isQuote c = false) = true := by decide
      obtain ⟨separator, quote⟩ := of_decide_eq_true (List.all_eq_true.mp all c (mem_uppers upper))
      rw [separator, quote] at mark
      simp at mark
    have kelvin : c ≠ '\u212a' := by
      rintro rfl
      exact absurd mark (by decide)
    have dotted : c ≠ '\u0130' := by
      rintro rfl
      exact absurd mark (by decide)
    have same : c.toLower = c := dif_neg fun inside => upper (decide_eq_true inside)
    rw [lowerChar, if_neg kelvin, if_neg dotted, same]
  rw [lowerText, List.flatMap_cons, keeps]
  rfl

/-- An interface is skipped by what its name begins with, and the prefixes hold no
separators and no quotes. -/
theorem prefix_plain : ∀ p ∈ skipIfacePrefixes, p ≠ [] ∧ ∀ c, isSeparator c = true ∨ isQuote c = true → c ∉ p := by
  have plain : ∀ p ∈ skipIfacePrefixes, p ≠ [] ∧ (p.all fun c => isSeparator c = false ∧ isQuote c = false) = true := by
    decide
  intro p listed
  refine ⟨(plain p listed).1, ?_⟩
  intro c mark member
  obtain ⟨separator, quote⟩ := of_decide_eq_true (List.all_eq_true.mp (plain p listed).2 c member)
  rw [separator, quote] at mark
  simp at mark

theorem skipIface_of_prefix {p name : List Char} (listed : p ∈ skipIfacePrefixes) (begins : p <+: lowerText name) :
    skipIface name = true := by
  rw [skipIface, List.any_eq_true]
  exact ⟨p, listed, by simp [begins]⟩

namespace AddrRow

variable (r : AddrRow)

/-- What begins the alias begins its front. -/
theorem prefix_front {p : List Char} (listed : p ∈ skipIfacePrefixes) (begins : p <+: lowerText r.aliasText) :
    p <+: lowerText r.front := by
  obtain ⟨nonempty, plain⟩ := prefix_plain p listed
  obtain ⟨first, pieces, split⟩ := List.exists_cons_of_ne_nil (List.splitOnP_ne_nil isSeparator r.aliasText)
  have inFirst : p <+: lowerText first := by
    rcases first_piece split with whole | ⟨sep, rest, separates, whole⟩
    · rwa [← whole]
    · rw [whole, lowerText_append, lowerText_cons (.inl separates)] at begins
      exact prefix_of_append_cons begins (plain sep (.inl separates))
  -- no quotes are stripped off the front of it
  have unquoted : first.dropWhile isQuote = first := by
    cases first with
    | nil => rfl
    | cons c first =>
      rw [List.dropWhile_cons_of_neg]
      intro quote
      rw [lowerText_cons (.inr quote), List.prefix_cons_iff] at inFirst
      rcases inFirst with empty | ⟨rest, rfl, -⟩
      · exact nonempty empty
      · exact plain c (.inr quote) List.mem_cons_self
  have name : r.front = first.rdropWhile isQuote := by
    rw [front, AddrRow.pieces, split, List.map_cons, List.headD_cons, stripQuotes, unquoted]
  have whole : first.rdropWhile isQuote ++ first.rtakeWhile isQuote = first := List.rdropWhile_append_rtakeWhile
  rw [name]
  cases quotes : first.rtakeWhile isQuote with
  | nil =>
    rw [quotes, List.append_nil] at whole
    rwa [whole]
  | cons c rest =>
    have quote : isQuote c = true := List.mem_rtakeWhile_imp (quotes ▸ List.mem_cons_self)
    rw [← whole, quotes, lowerText_append, lowerText_cons (.inr quote)] at inFirst
    exact prefix_of_append_cons inFirst (plain c (.inr quote))

/-- The interfaces that are to be skipped are skipped. -/
theorem skipIface_of_virtual (virtual : r.Virtual) : skipIface r.front = true := by
  obtain ⟨p, listed, begins⟩ : ∃ p ∈ skipIfacePrefixes, p <+: lowerText r.aliasText := by
    rcases virtual with lo | ⟨p, listed, begins⟩
    · exact ⟨"lo".toList, by decide, by rw [lo]⟩
    · have known : ∀ p ∈ ["loopback".toList, "docker".toList, "br-".toList, "veth".toList],
          ∃ q ∈ skipIfacePrefixes, q <+: p := by decide
      obtain ⟨q, skips, shorter⟩ := known p listed
      exact ⟨q, skips, shorter.trans begins⟩
  exact skipIface_of_prefix listed (r.prefix_front listed begins)

/-! ## One row -/

/-- What the row is to add. -/
def wanted : List String := if r.Real then [String.ofList r.addr] else []

theorem dedup_wanted : dedup [] r.wanted = r.wanted := by
  apply dedup_of_nodup
  · rw [wanted]
    split <;> simp
  · simp

theorem skipAddr_addr : skipAddr r.addr = (r.ip.isLoopback || r.ip.isLinkLocal) := by
  rw [skipAddr, parseAddress, r.reads]
  rfl

theorem isV4_addr : isV4 r.addr = true := by
  rw [isV4, r.reads]
  rfl

theorem real_iff : r.Real ↔ skipAddr r.addr = false ∧ ¬ r.Virtual := by
  rw [Real, skipAddr_addr, Bool.or_eq_false_iff, and_assoc]

theorem mem_found {tok : List Char} : String.ofList tok ∈ r.found ↔
    (tok ∈ r.pieces.tail ∨ tok = r.addr) ∧ isV4 tok = true ∧ skipIface r.front = false ∧ skipAddr tok = false := by
  have same : ∀ t : List Char, String.ofList t = String.ofList tok ↔ t = tok := fun t => String.ofList_inj
  simp only [found, List.mem_map, List.mem_filter, List.mem_append, List.mem_singleton, keepAddr, Bool.and_eq_true,
    Bool.not_eq_true', same]
  constructor
  · rintro ⟨t, ⟨⟨listed, v4⟩, keeps⟩, rfl⟩
    exact ⟨listed, v4, keeps⟩
  · rintro ⟨listed, v4, keeps⟩
    exact ⟨tok, ⟨⟨listed, v4⟩, keeps⟩, rfl⟩

/-- A skipped interface brings no address. -/
theorem found_of_skipped (skips : skipIface r.front = true) : r.found = [] := by
  apply List.eq_nil_iff_forall_not_mem.mpr
  intro a listed
  rw [← String.ofList_toList (s := a)] at listed
  obtain ⟨-, -, kept, -⟩ := r.mem_found.mp listed
  rw [skips] at kept
  cases kept

/-- A row without addresses in its alias brings its own, unless that is to be left out. -/
theorem dedup_found_of_alone (kept : skipIface r.front = false)
    (alone : ∀ piece ∈ r.pieces.tail, (parseV4 piece).isSome = true → skipAddr piece = false → piece = r.addr) :
    dedup [] r.found = r.wanted := by
  have only : ∀ a ∈ r.found, a = String.ofList r.addr ∧ skipAddr r.addr = false := by
    intro a listed
    rw [← String.ofList_toList (s := a)] at listed ⊢
    obtain ⟨inside, v4, -, good⟩ := r.mem_found.mp listed
    have same : a.toList = r.addr := inside.elim (fun inside => alone _ inside v4 good) id
    rw [same] at good ⊢
    exact ⟨rfl, good⟩
  by_cases real : r.Real
  · have listed : String.ofList r.addr ∈ r.found :=
      r.mem_found.mpr ⟨.inr rfl, r.isV4_addr, kept, (r.real_iff.mp real).1⟩
    rw [wanted, if_pos real, dedup_constant listed fun a member => (only a member).1]
  · have empty : r.found = [] := by
      apply List.eq_nil_iff_forall_not_mem.mpr
      intro a listed
      refine real (r.real_iff.mpr ⟨(only a listed).2, fun virtual => ?_⟩)
      rw [r.skipIface_of_virtual virtual] at kept
      cases kept
    rw [empty, wanted, if_neg real]
    rfl

/-- **A row adds what it is to add exactly if it is clear.** -/
theorem clear_iff : r.Clear ↔ dedup [] r.found = r.wanted := by
  constructor
  · intro clear
    cases skips : skipIface r.front with
    | true =>
      have unreal : ¬ r.Real := by
        intro real
        obtain ⟨good, plain⟩ := r.real_iff.mp real
        exact plain (clear.named skips good)
      rw [r.found_of_skipped skips, wanted, if_neg unreal]
      rfl
    | false => exact r.dedup_found_of_alone skips (clear.alone skips)
  · intro same
    have listed_iff : ∀ a, a ∈ r.found ↔ a ∈ r.wanted := by
      intro a
      rw [← same, mem_dedup]
      simp
    constructor
    · intro skips good
      by_contra real
      have listed : String.ofList r.addr ∈ r.found := by
        rw [listed_iff, wanted, if_pos (r.real_iff.mpr ⟨good, real⟩)]
        exact List.mem_singleton_self _
      rw [r.found_of_skipped skips] at listed
      cases listed
    · intro kept piece inside v4 good
      have listed := (listed_iff _).mp (r.mem_found.mpr ⟨.inl inside, v4, kept, good⟩)
      rw [wanted] at listed
      split at listed
      · exact String.ofList_inj.mp (List.mem_singleton.mp listed)
      · cases listed

end AddrRow

/-! ## All rows -/

theorem harvested_iff (eol : LineEnd) (rows : List AddrRow) :
    AddrRow.Harvested eol rows ↔ dedup [] (rows.flatMap AddrRow.found) = dedup [] (rows.flatMap AddrRow.wanted) := by
  have wanted : (rows.filter fun r => r.Real).map (fun r => String.ofList r.addr) = rows.flatMap AddrRow.wanted := by
    induction rows with
    | nil => rfl
    | cons r rows ih =>
      rw [List.flatMap_cons, ← ih, List.filter_cons, AddrRow.wanted]
      split_ifs <;> simp_all
  rw [AddrRow.Harvested, parseWindowsAddrs_render, wanted]

/-- **The addresses are harvested off all lists of some rows exactly if** each of the rows
is clear. -/
theorem harvestsAll_iff (eol : LineEnd) (rows : List AddrRow) :
    (∀ listed : List AddrRow, (∀ r ∈ listed, r ∈ rows) → AddrRow.Harvested eol listed) ↔ ∀ r ∈ rows, r.Clear := by
  constructor
  · intro harvests r member
    have alone := (harvested_iff eol [r]).mp (harvests [r] (by simpa using member))
    rw [List.flatMap_singleton, List.flatMap_singleton, r.dedup_wanted] at alone
    exact r.clear_iff.mpr alone
  · intro clear listed chosen
    rw [harvested_iff]
    apply dedup_flatMap_congr
    intro r member
    rw [r.dedup_wanted]
    exact r.clear_iff.mp (clear r (chosen r member))

/-- The usual name of a network card: its first word begins with `lo`. -/
def localAreaRow : AddrRow where
  interfaceAlias := ["Local".toList, "Area".toList, "Connection".toList]
  addr := "192.168.1.5".toList
  ip := (parseV4 "192.168.1.5".toList).get (by decide +kernel)
  named := by simp
  words := by
    have all : ∀ w ∈ ["Local".toList, "Area".toList, "Connection".toList], w ≠ [] ∧ (w.all fun c => !isSpace c) = true := by
      decide
    exact fun w listed => Word.of_all (all w listed).1 (all w listed).2
  noAddress := by decide +kernel
  reads := (Option.some_get _).symm

/-- The address of a real interface is dropped. -/
theorem local_area_dropped : ¬ ∀ (eol : LineEnd) (rows : List AddrRow), AddrRow.Harvested eol rows := by
  intro harvested
  have listed : dedup [] (([localAreaRow].filter fun r => r.Real).map fun r => String.ofList r.addr) = ["192.168.1.5"] := by
    decide +kernel
  have none : parseWindowsAddrs (AddrRow.render .lf [localAreaRow]) = [] := by decide +kernel
  have same := harvested .lf [localAreaRow]
  rw [AddrRow.Harvested, none, listed] at same
  cases same

end McpSsh
