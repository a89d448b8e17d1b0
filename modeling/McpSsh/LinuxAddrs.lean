import McpSsh.Breadcrumbs
import McpSsh.CandidateExpansion
import McpSsh.WindowsAddrs

/-!
# The addresses of a host

`parse_linux_addrs` of `topology.py` matches each line of `ip -o -4 addr` against one
expression. On lines of that form it lists the addresses of the real interfaces, and what
`harvest_addresses` returns, from this command or from PowerShell, is made of such
addresses whatever the host prints.
-/

set_option autoImplicit false

namespace McpSsh

open Base Base.Ip

/-! ## The parser -/

/-- `[0-9.]`. -/
def isQuadChar (c : Char) : Bool := c.isDigit || c = '.'

section

variable (u : CharTables)

/-- `_LINUX_ADDR_RE`. -/
def linuxAddrRe : Regex :=
  .seq (.some_ (.one u.digit)) (.seq (.one fun c => c = ':') (.seq (.some_ (.one isSpace))
    (.seq (.group 1 (.some_ (.one fun c => !isSpace c))) (.seq (.some_ (.one isSpace))
      (.seq (.literal "inet".toList) (.seq (.some_ (.one isSpace)) (.group 2 (.some_ (.one isQuadChar)))))))))

/-- The interface and the address of a line. -/
def linuxRow (line : List Char) : Option (List Char × List Char) := do
  let m ← (linuxAddrRe u).matchStart line
  return (← m.group 1, ← m.group 2)

/-- The loop over the lines. -/
def addLinuxRows (addrs : List String) : List (List Char) → List String
  | [] => addrs
  | line :: rest =>
    match linuxRow u (strip line) with
    | none => addLinuxRows addrs rest
    | some (name, addr) =>
      if keepAddr name addr = true ∧ String.ofList addr ∉ addrs then addLinuxRows (addrs ++ [String.ofList addr]) rest
      else addLinuxRows addrs rest

/-- `parse_linux_addrs`. -/
def parseLinuxAddrs (output : List Char) : List String := addLinuxRows u [] (splitlines output)

/-- `_HARVEST_LINUX_CMD`. -/
def harvestLinuxCmd : String := "ip -o -4 addr"

/-- `_HARVEST_WINDOWS_CMD`. -/
def harvestWindowsCmd : String :=
  "powershell -NoProfile -Command \"Get-NetIPAddress -AddressFamily IPv4 | " ++
    "ForEach-Object \x7b $_.InterfaceAlias + ' ' + $_.IPAddress \x7d\""

/-- `harvest_addresses`; the host answers a command with the text it prints, or not at
all, and without an answer to the second command it raises. -/
def harvestAddresses (answer : String → Option (List Char)) : Option (List String) :=
  let addrs := match answer harvestLinuxCmd with
    | some out => parseLinuxAddrs u out
    | none => []
  if !addrs.isEmpty then some addrs else (answer harvestWindowsCmd).map parseWindowsAddrs

end

/-! ## What is listed -/

section

variable {u : CharTables}

/-- The address that a line brings. -/
def keptRow (u : CharTables) (line : List Char) : List String :=
  match linuxRow u (strip line) with
  | none => []
  | some (name, addr) => if keepAddr name addr = true then [String.ofList addr] else []

theorem addLinuxRows_eq (addrs : List String) (lines : List (List Char)) :
    addLinuxRows u addrs lines = addrs ++ dedup addrs (lines.flatMap (keptRow u)) := by
  induction lines generalizing addrs with
  | nil => simp [addLinuxRows, dedup]
  | cons line rest ih =>
    rw [addLinuxRows, List.flatMap_cons, keptRow]
    split
    · exact ih addrs
    · rename_i name addr row
      cases keeps : keepAddr name addr with
      | false =>
        rw [if_neg (by simp), if_neg (by simp)]
        exact ih addrs
      | true =>
        rw [if_pos rfl, List.singleton_append]
        by_cases old : String.ofList addr ∈ addrs
        · rw [if_neg (by simp [old]), dedup, if_pos old]
          exact ih addrs
        · rw [if_pos ⟨rfl, old⟩, ih, append_dedup_cons old]

theorem parseLinuxAddrs_eq (output : List Char) :
    parseLinuxAddrs u output = dedup [] ((splitlines output).flatMap (keptRow u)) := by
  rw [parseLinuxAddrs, addLinuxRows_eq, List.nil_append]

end

/-! ## What is listed is an address -/

/-- The text of an IPv4 address that is neither loopback nor link-local. -/
def RealAddr (a : String) : Prop := ∃ ip, parseV4 a.toList = some ip ∧ ip.isLoopback = false ∧ ip.isLinkLocal = false

/-- The address of a line is made of digits and dots. -/
theorem linuxRow_chars {u : CharTables} {line name addr : List Char} (row : linuxRow u line = some (name, addr)) :
    ∀ c ∈ addr, isQuadChar c = true := by
  simp only [linuxRow, Option.bind_eq_bind, Option.bind_eq_some_iff, Option.pure_def, Option.some.injEq,
    Prod.mk.injEq] at row
  obtain ⟨m, matched, name', -, addr', second, -, rfl⟩ := row
  -- the last part of the expression is the group of the address
  obtain ⟨s₁, -, rest⟩ := List.mem_flatMap.mp (List.mem_of_head? matched)
  obtain ⟨s₂, -, rest⟩ := List.mem_flatMap.mp rest
  obtain ⟨s₃, -, rest⟩ := List.mem_flatMap.mp rest
  obtain ⟨s₄, -, rest⟩ := List.mem_flatMap.mp rest
  obtain ⟨s₅, -, rest⟩ := List.mem_flatMap.mp rest
  obtain ⟨s₆, -, rest⟩ := List.mem_flatMap.mp rest
  obtain ⟨s₇, -, rest⟩ := List.mem_flatMap.mp rest
  obtain ⟨s₈, inner, rfl⟩ := List.mem_map.mp rest
  have within : (Regex.some_ (.one isQuadChar)).Within fun c => isQuadChar c = true := ⟨fun _ => id, fun _ => id⟩
  have captured : s₇.upTo s₈ = addr' := by simpa [Regex.Spot.group] using second
  exact captured ▸ (Regex.run_takes within s₇ s₈ inner).upTo

theorem real_of_keepAddr {name addr : List Char} (quad : ∀ c ∈ addr, isQuadChar c = true)
    (keeps : keepAddr name addr = true) : RealAddr (String.ofList addr) := by
  have plain : ∀ c ∈ addr, c.isDigit = true ∨ c = '.' := by
    intro c member
    simpa [isQuadChar] using quad c member
  simp only [keepAddr, skipAddr, parseAddress, parseV6_plain plain, Option.or_none, Bool.and_eq_true,
    Bool.not_eq_true'] at keeps
  obtain ⟨-, kept⟩ := keeps
  cases read : parseV4 addr with
  | none => simp [read] at kept
  | some ip =>
    simp only [read, Bool.or_eq_false_iff] at kept
    exact ⟨ip, by rw [String.toList_ofList, read], kept⟩

theorem real_of_mem_keptRow {u : CharTables} {line : List Char} {a : String} (listed : a ∈ keptRow u line) : RealAddr a := by
  unfold keptRow at listed
  split at listed
  · cases listed
  · rename_i name addr row
    split at listed
    · rename_i keeps
      rw [List.mem_singleton.mp listed]
      exact real_of_keepAddr (linuxRow_chars row) keeps
    · cases listed

/-- The loop of `parse_windows_addrs` adds such addresses only. -/
theorem addRows_real {addrs : List String} {rows : List (List Char)} (distinct : addrs.Nodup)
    (real : ∀ a ∈ addrs, RealAddr a) : (addRows addrs rows).Nodup ∧ ∀ a ∈ addRows addrs rows, RealAddr a := by
  induction rows generalizing addrs with
  | nil => exact ⟨distinct, real⟩
  | cons raw rest ih =>
    rw [addRows]
    split
    · exact ih distinct real
    split
    · exact ih distinct real
    rename_i first tokens _
    rw [addTokens_eq]
    refine ih ?_ fun a listed => ?_
    · refine List.nodup_append.mpr ⟨distinct, nodup_dedup _ _, ?_⟩
      rintro a old _ new rfl
      exact (mem_dedup.mp new).2 old
    · rcases List.mem_append.mp listed with old | new
      · exact real a old
      · obtain ⟨tok, kept, rfl⟩ := List.mem_map.mp (mem_dedup.mp new).1
        obtain ⟨kept, keeps⟩ := List.mem_filter.mp kept
        obtain ⟨-, v4⟩ := List.mem_filter.mp kept
        obtain ⟨ip, read⟩ := Option.isSome_iff_exists.mp v4
        refine real_of_keepAddr (fun c member => ?_) keeps
        rcases parseV4_chars read c member with digit | rfl
        · simp [isQuadChar, digit]
        · rfl

/-- Whatever a host answers, the addresses harvested from it are distinct and real. -/
theorem harvestAddresses_spec (u : CharTables) (answer : String → Option (List Char)) :
    ((harvestAddresses u answer).getD []).Nodup ∧ ∀ a ∈ (harvestAddresses u answer).getD [], RealAddr a := by
  have linux : ∀ out, (parseLinuxAddrs u out).Nodup ∧ ∀ a ∈ parseLinuxAddrs u out, RealAddr a := by
    intro out
    rw [parseLinuxAddrs_eq]
    refine ⟨nodup_dedup _ _, fun a listed => ?_⟩
    obtain ⟨line, -, kept⟩ := List.mem_flatMap.mp (mem_dedup.mp listed).1
    exact real_of_mem_keptRow kept
  have windows : ∀ out, (parseWindowsAddrs out).Nodup ∧ ∀ a ∈ parseWindowsAddrs out, RealAddr a := fun out =>
    addRows_real List.nodup_nil (by simp)
  have fallback : (((answer harvestWindowsCmd).map parseWindowsAddrs).getD []).Nodup ∧
      ∀ a ∈ ((answer harvestWindowsCmd).map parseWindowsAddrs).getD [], RealAddr a := by
    cases answer harvestWindowsCmd with
    | none => exact ⟨List.nodup_nil, by simp⟩
    | some out => exact windows out
  unfold harvestAddresses
  cases answer harvestLinuxCmd with
  | none => exact fallback
  | some out =>
    simp only
    split
    · exact linux out
    · exact fallback

/-! ## A line of the command -/

theorem isSpace_of_isQuadChar {c : Char} (quad : isQuadChar c = true) : isSpace c = false := by
  simp only [isQuadChar, Bool.or_eq_true, decide_eq_true_eq] at quad
  rcases quad with digit | rfl
  · exact (ordinary_of_isAlphanum (by simp [Char.isAlphanum, digit])).2
  · decide

theorem isSpace_of_isDigit {c : Char} (digit : c.isDigit = true) : isSpace c = false :=
  isSpace_of_isQuadChar (by simp [isQuadChar, digit])

theorem digit_of_isDigit (u : CharTables) {c : Char} (digit : c.isDigit = true) : u.digit c = true := by
  have small : c.toNat < 128 := by
    simp only [Char.isDigit, Bool.and_eq_true, decide_eq_true_eq, UInt32.le_iff_toNat_le] at digit
    have nine : '9'.val.toNat = 57 := by decide
    have code : c.toNat = c.val.toNat := rfl
    omega
  rw [u.digit_ascii c small, digit]

section

variable {u : CharTables} {index name gap addr tail : List Char}

/-- The expression takes a line apart at the first try. -/
theorem linuxAddrRe_prefers (counted : index ≠ [] ∧ ∀ c ∈ index, c.isDigit = true) (named : Word name)
    (apart : gap ≠ [] ∧ ∀ c ∈ gap, isSpace c = true) (quad : addr ≠ [] ∧ ∀ c ∈ addr, isQuadChar c = true)
    (ends : ∀ c ∈ tail.head?, isQuadChar c = false) :
    ∃ last, (linuxAddrRe u).Prefers
      ⟨none, index ++ (':' :: ([' '] ++ (name ++ (gap ++ ("inet".toList ++ ([' '] ++ (addr ++ tail))))))), []⟩
      ⟨last, tail, [(2, addr), (1, name)]⟩ := by
  have colon : ∀ rest : List Char, ∀ c ∈ (':' :: rest).head?, u.digit c = false := by
    intro rest c here
    cases here
    rw [u.digit_ascii ':' (by decide)]
    rfl
  have visible : ∀ rest : List Char, ∀ c ∈ (name ++ rest).head?, isSpace c = false := by
    intro rest c here
    obtain ⟨d, name, rfl⟩ := List.exists_cons_of_ne_nil named.nonempty
    cases here
    exact named.solid _ List.mem_cons_self
  have blank : ∀ rest : List Char, ∀ c ∈ (gap ++ rest).head?, (!isSpace c) = false := by
    intro rest c here
    obtain ⟨d, gap, rfl⟩ := List.exists_cons_of_ne_nil apart.1
    cases here
    rw [apart.2 _ List.mem_cons_self]
    rfl
  have word : ∀ rest : List Char, ∀ c ∈ ("inet".toList ++ rest).head?, isSpace c = false := by
    intro rest c here
    cases here
    rfl
  have digits : ∀ rest : List Char, ∀ c ∈ (addr ++ rest).head?, isSpace c = false := by
    intro rest c here
    obtain ⟨d, addr, rfl⟩ := List.exists_cons_of_ne_nil quad.1
    cases here
    exact isSpace_of_isQuadChar (quad.2 _ List.mem_cons_self)
  have space : ∀ c ∈ [' '], isSpace c = true := List.all_eq_true.mp (by decide)
  exact ⟨_, (Regex.prefers_some counted.1 (fun c inside => digit_of_isDigit u (counted.2 c inside)) (colon _)).seq
    ((Regex.prefers_one (by simp)).seq
      ((Regex.prefers_some (List.cons_ne_nil _ _) space (visible _)).seq
        ((Regex.prefers_group_some named.nonempty (fun c inside => by simp [named.solid c inside]) (blank _) 1).seq
          ((Regex.prefers_some apart.1 apart.2 (word _)).seq
            ((Regex.prefers_literal _).seq
              ((Regex.prefers_some (List.cons_ne_nil _ _) space (digits _)).seq
                (Regex.prefers_group_some quad.1 quad.2 ends 2)))))))⟩

end

/-! ## Rows of the command -/

/-- A line of `ip -o -4 addr`: a number, an interface, an address and what follows it. -/
structure LinuxRow where
  index : List Char
  interface : List Char
  /-- The number of spaces behind the interface, but for the first. -/
  gap : Nat
  addr : List Char
  tail : List Char
  ip : Address
  counted : index ≠ [] ∧ ∀ c ∈ index, c.isDigit = true
  named : Word interface
  reads : parseV4 addr = some ip
  ends : ∀ c ∈ tail.head?, isQuadChar c = false
  solid : ∀ c ∈ tail, isLineBoundary c = false

namespace LinuxRow

variable {u : CharTables} (r : LinuxRow)

/-- The line up to the end of the address. -/
def front : List Char :=
  r.index ++ (':' :: ([' '] ++ (r.interface ++ (List.replicate (r.gap + 1) ' ' ++ ("inet".toList ++ ([' '] ++ r.addr))))))

def line : List Char := r.front ++ r.tail

/-- The rows, one a line. -/
def render (eol : LineEnd) (rows : List LinuxRow) : List Char := rows.flatMap fun r => r.line ++ eol.text

/-- The interface is none of the skipped ones and the address neither loopback nor link-local. -/
def Real : Prop := skipIface r.interface = false ∧ r.ip.isLoopback = false ∧ r.ip.isLinkLocal = false

instance : Decidable r.Real := inferInstanceAs (Decidable (_ ∧ _ ∧ _))

theorem quad : r.addr ≠ [] ∧ ∀ c ∈ r.addr, isQuadChar c = true := by
  constructor
  · intro nil
    have reads := r.reads
    have none_ : parseV4 [] = none := by decide
    rw [nil, none_] at reads
    cases reads
  · intro c member
    rcases parseV4_chars r.reads c member with digit | rfl
    · simp [isQuadChar, digit]
    · rfl

theorem apart : List.replicate (r.gap + 1) ' ' ≠ [] ∧ ∀ c ∈ List.replicate (r.gap + 1) ' ', isSpace c = true := by
  refine ⟨by simp, fun c inside => ?_⟩
  rw [List.eq_of_mem_replicate inside]
  rfl

/-- Whatever follows the address, the interface and the address are read. -/
theorem linuxRow_front {tail : List Char} (ends : ∀ c ∈ tail.head?, isQuadChar c = false) :
    linuxRow u (r.front ++ tail) = some (r.interface, r.addr) := by
  obtain ⟨last, whole⟩ := linuxAddrRe_prefers (u := u) r.counted r.named r.apart r.quad ends
  have started : (linuxAddrRe u).matchStart (r.front ++ tail) = some ⟨last, tail, [(2, r.addr), (1, r.interface)]⟩ := by
    simp only [Regex.matchStart, front, List.append_assoc, List.cons_append]
    exact whole
  rw [linuxRow, started]
  rfl

/-- A character of the line is visible or a space, up to the tail. -/
theorem front_chars {c : Char} (member : c ∈ r.front) : isSpace c = false ∨ c = ' ' := by
  simp only [front, List.mem_append, List.mem_cons, List.mem_replicate, List.not_mem_nil, or_false] at member
  rcases member with index | rfl | rfl | name | ⟨-, rfl⟩ | inet | rfl | addr
  · exact .inl (isSpace_of_isDigit (r.counted.2 c index))
  · exact .inl rfl
  · exact .inr rfl
  · exact .inl (r.named.solid c name)
  · exact .inr rfl
  · have solid : "inet".toList.any isSpace = false := by decide
    exact .inl (Bool.eq_false_iff.mpr (List.any_eq_false.mp solid c inet))
  · exact .inr rfl
  · exact .inl (isSpace_of_isQuadChar (r.quad.2 c addr))

theorem line_solid : ∀ c ∈ r.line, isLineBoundary c = false := by
  intro c member
  rcases List.mem_append.mp member with front | tail
  · rcases r.front_chars front with visible | rfl
    · cases ends : isLineBoundary c with
      | false => rfl
      | true => exact absurd ((isSpace_of_isLineBoundary ends).symm.trans visible) (by decide)
    · decide
  · exact r.solid c tail

/-- Stripping the line takes at most the end of the tail. -/
theorem strip_line : ∃ tail, strip r.line = r.front ++ tail ∧ ∀ c ∈ tail.head?, isQuadChar c = false := by
  have first : ∀ c ∈ r.front.head?, isSpace c = false := by
    intro c here
    obtain ⟨digit, digits, number⟩ := List.exists_cons_of_ne_nil r.counted.1
    rw [front, number] at here
    cases here
    exact isSpace_of_isDigit (r.counted.2 _ (number ▸ List.mem_cons_self))
  have last : ∀ c ∈ r.front.getLast?, isSpace c = false := by
    intro c here
    have whole : r.front = r.index ++ (':' :: ' ' :: (r.interface ++ (List.replicate (r.gap + 1) ' ' ++
        ("inet".toList ++ [' '])))) ++ r.addr := by simp [front]
    rw [whole, List.getLast?_append_of_ne_nil _ r.quad.1] at here
    exact isSpace_of_isQuadChar (r.quad.2 c (List.mem_of_getLast? here))
  obtain ⟨kept, stripped, begins⟩ := strip_append (by simp [front]) first last r.tail
  refine ⟨kept, stripped, fun c here => r.ends c ?_⟩
  obtain ⟨rest, whole⟩ := begins
  rw [← whole, List.head?_append, Option.mem_def.mp here]
  rfl

theorem keptRow_line : keptRow u r.line = if r.Real then [String.ofList r.addr] else [] := by
  obtain ⟨tail, stripped, ends⟩ := r.strip_line
  rw [keptRow, stripped, r.linuxRow_front ends]
  have read : parseAddress r.addr = some r.ip := by rw [parseAddress, r.reads]; rfl
  simp only [keepAddr, skipAddr, read, Real, Bool.and_eq_true, Bool.not_eq_true', Bool.or_eq_false_iff]
  rfl

theorem splitlines_render (eol : LineEnd) (rows : List LinuxRow) : splitlines (render eol rows) = rows.map line := by
  induction rows with
  | nil => rfl
  | cons r rows ih =>
    rw [render, List.flatMap_cons, List.append_assoc, List.map_cons, ← ih]
    cases eol with
    | lf => exact splitlines_lf r.line_solid _
    | crlf => exact splitlines_crlf r.line_solid _

end LinuxRow

/-- **`parse_linux_addrs` lists the addresses of the real interfaces**, in order and
without repetition, for every output of the command. -/
theorem parseLinuxAddrs_render (u : CharTables) (eol : LineEnd) (rows : List LinuxRow) :
    parseLinuxAddrs u (LinuxRow.render eol rows) =
      dedup [] ((rows.filter fun r => r.Real).map fun r => String.ofList r.addr) := by
  rw [parseLinuxAddrs_eq, LinuxRow.splitlines_render, List.flatMap_map]
  congr 1
  induction rows with
  | nil => rfl
  | cons r rows ih =>
    rw [List.flatMap_cons, ih, r.keptRow_line]
    by_cases real : r.Real
    · rw [if_pos real, List.filter_cons_of_pos (by simpa using real), List.map_cons, List.singleton_append]
    · rw [if_neg real, List.filter_cons_of_neg (by simpa using real), List.nil_append]

theorem solid_of_all {text : List Char} (all : (text.all fun c => !isLineBoundary c) = true) :
    ∀ c ∈ text, isLineBoundary c = false := by simpa using all

/-- `2: eth0    inet 10.0.0.5/24 ...`. -/
def LinuxRow.eth : LinuxRow where
  index := "2".toList
  interface := "eth0".toList
  gap := 3
  addr := "10.0.0.5".toList
  tail := "/24 brd 10.0.0.255 scope global eth0".toList
  ip := ⟨.v4, 167772165, by decide⟩
  counted := ⟨by decide, List.all_eq_true.mp (by decide)⟩
  named := .of_all (by decide) (by decide)
  reads := by rfl
  ends := by rintro _ ⟨⟩; rfl
  solid := solid_of_all (by decide +kernel)

/-- `1: lo    inet 127.0.0.1/8 ...`. -/
def LinuxRow.lo : LinuxRow where
  index := "1".toList
  interface := "lo".toList
  gap := 3
  addr := "127.0.0.1".toList
  tail := "/8 scope host lo".toList
  ip := ⟨.v4, 2130706433, by decide⟩
  counted := ⟨by decide, List.all_eq_true.mp (by decide)⟩
  named := .of_all (by decide) (by decide)
  reads := by rfl
  ends := by rintro _ ⟨⟩; rfl
  solid := solid_of_all (by decide +kernel)

theorem parseLinuxAddrs_render_eth : parseLinuxAddrs .ascii (LinuxRow.render .lf [.lo, .eth, .eth]) = ["10.0.0.5"] := by
  rw [parseLinuxAddrs_render]
  decide +kernel

end McpSsh
