import McpSsh.Base.Regex
import McpSsh.DiscoveryCaps

/-!
# Candidates out of breadcrumbs

The parsers of `discovery.py` cut what a host prints into tokens and keep those that the
validator accepts, and so does the sweep of a network from a host. The validator accepts
every literal of the `ipaddress` module: that is an address, or an IPv6 address with a
scope, which may be any text.
-/

set_option autoImplicit false

namespace McpSsh

open Base Base.Ip

/-! ## Expressions -/

/-- The tables that `\d` and `\w` go by. -/
structure CharTables where
  digit : Char → Bool
  word : Char → Bool
  digit_ascii : ∀ c : Char, c.toNat < 128 → digit c = c.isDigit
  word_ascii : ∀ c : Char, c.toNat < 128 → word c = (c.isAlphanum || c = '_')
  word_of_digit : ∀ c, digit c = true → word c = true
  word_visible : ∀ c, word c = true → isSpace c = false

/-- `[a-zA-Z0-9_-]`. -/
def isLabelChar (c : Char) : Bool := c.isAlphanum || c = '_' || c = '-'

/-- `[a-zA-Z0-9._-]`. -/
def isNameChar (c : Char) : Bool := c.isAlphanum || c = '.' || c = '_' || c = '-'

def dot : Regex := .one fun c => c = '.'

namespace CharTables

variable (u : CharTables)

/-- `\d{1,3}(?:\.\d{1,3}){3}`. -/
def dottedQuad : Regex := .seq (.oneTo 3 (.one u.digit)) (.times 3 (.seq dot (.oneTo 3 (.one u.digit))))

/-- `_IPV4_RE`. -/
def ipv4Re : Regex := .seq (.boundary u.word) (.seq (.group 1 u.dottedQuad) (.boundary u.word))

/-- `_SSH_TARGET_RE`. -/
def sshTargetRe : Regex :=
  .alt
    (.seq (.some_ (.one isNameChar))
      (.seq (.one fun c => c = '@') (.group 1 (.seq (.one Char.isAlphanum) (.many none (.one isNameChar))))))
    (.seq (.boundary u.word)
      (.group 2
        (.alt u.dottedQuad
          (.seq (.seq (.one Char.isAlphanum) (.many none (.one isLabelChar)))
            (.some_ (.seq dot (.some_ (.one isLabelChar))))))))

/-- `\b(?:ssh|scp|sftp)\b`. -/
def sshCommandRe : Regex :=
  .seq (.boundary u.word)
    (.seq (.alt (.literal "ssh".toList) (.alt (.literal "scp".toList) (.literal "sftp".toList))) (.boundary u.word))

/-- `re.match(r"^\[([^\]]+)\](?::\d+)?$", token)`, as the group, for a token without white space. -/
def bracketed : List Char → Option (List Char)
  | '[' :: rest =>
    let host := rest.takeWhile fun c => c ≠ ']'
    if host.isEmpty then none
    else
      match rest.dropWhile fun c => c ≠ ']' with
      | [']'] => some host
      | ']' :: ':' :: port => if port.isEmpty || !port.all u.digit then none else some host
      | _ => none
  | _ => none

end CharTables

/-! ## The parsers -/

/-- The tokens that the validator accepts. -/
def keepCandidates (tokens : List (List Char)) : List String := (tokens.map String.ofList).filter validCandidate

section

variable (u : CharTables)

/-- The tokens of a line in `parse_known_hosts_candidates`. -/
def knownHostsTokens (raw : List Char) : List (List Char) :=
  let line := strip raw
  if line.isEmpty || line.head? = some '#' || line.head? = some '|' then []
  else
    (((words line).headD []).splitOn ',').map fun token =>
      let token := strip token
      (u.bracketed token).getD token

/-- `parse_known_hosts_candidates`. -/
def parseKnownHostsCandidates (output : List Char) : List String :=
  (splitlines output).flatMap fun raw => keepCandidates (knownHostsTokens u raw)

/-- `line.split(None, 1)` of a stripped line, where it has two parts. -/
def splitOnce (line : List Char) : Option (List Char × List Char) :=
  let rest := (line.dropWhile fun c => !isSpace c).dropWhile isSpace
  if rest.isEmpty then none else some (line.takeWhile fun c => !isSpace c, rest)

/-- The tokens of a line in `parse_ssh_config_candidates`. -/
def sshConfigTokens (raw : List Char) : List (List Char) :=
  let line := strip raw
  if line.isEmpty || line.head? = some '#' then []
  else
    match splitOnce line with
    | none => []
    | some (key, val) => if lowerText key = "hostname".toList then words (strip val) else []

/-- `parse_ssh_config_candidates`. -/
def parseSshConfigCandidates (output : List Char) : List String :=
  (splitlines output).flatMap fun raw => keepCandidates (sshConfigTokens raw)

/-- The tokens of a line in `parse_etc_hosts_candidates`. -/
def etcHostsTokens (raw : List Char) : List (List Char) :=
  let line := strip (raw.takeWhile fun c => c ≠ '#')
  if line.isEmpty then [] else words line

/-- `parse_etc_hosts_candidates`. -/
def parseEtcHostsCandidates (output : List Char) : List String :=
  (splitlines output).flatMap fun raw => keepCandidates (etcHostsTokens raw)

/-- `parse_ip_neigh_candidates`. -/
def parseIpNeighCandidates (output : List Char) : List String :=
  keepCandidates ((u.ipv4Re.findAll output).filterMap fun m => m.group 1)

/-- `parse_sessions_candidates`. -/
def parseSessionsCandidates (output : List Char) : List String :=
  keepCandidates ((u.ipv4Re.findAll output).filterMap fun m => m.group 1)

/-- The host of a match in `parse_history_candidates`. -/
def historyHost (m : Regex.Spot) : Option (List Char) :=
  (((m.group 1).filter fun host => !host.isEmpty).or (m.group 2)).map fun host => host.takeWhile fun c => c ≠ ':'

/-- The tokens of a line in `parse_history_candidates`. -/
def historyTokens (raw : List Char) : List (List Char) :=
  if u.sshCommandRe.occurs raw then (u.sshTargetRe.findAll raw).filterMap historyHost else []

/-- `parse_history_candidates`. -/
def parseHistoryCandidates (output : List Char) : List String :=
  (splitlines output).flatMap fun raw => keepCandidates (historyTokens u raw)

/-- The keys of `_BREADCRUMB_PARSERS`. -/
inductive Breadcrumb where
  | knownHosts
  | sshConfig
  | etcHosts
  | ipNeigh
  | sessions
  | history

/-- `_BREADCRUMB_PARSERS`. -/
def Breadcrumb.parse : Breadcrumb → List Char → List String
  | knownHosts => parseKnownHostsCandidates u
  | sshConfig => parseSshConfigCandidates
  | etcHosts => parseEtcHostsCandidates
  | ipNeigh => parseIpNeighCandidates u
  | sessions => parseSessionsCandidates u
  | history => parseHistoryCandidates u

end

/-- The command of `sweep_host`. -/
def sweepCommand (addrs : List String) (port : Int) : String :=
  "for a in " ++ " ".intercalate addrs ++ "; do timeout 1 bash -c \"echo > /dev/tcp/$a/" ++ toString port ++
    "\" 2>/dev/null && echo $a; done"

/-- `sweep_host`; the host answers a command with the text it prints, or not at all. -/
def sweepHost (answer : String → Option (List Char)) (cidr : String) (port : Int) : List String :=
  let addrs := expandCandidates cidrExpandCap [cidr]
  if addrs.isEmpty then []
  else
    match answer (sweepCommand addrs port) with
    | none => []
    | some out => keepCandidates ((splitlines out).map strip)

/-! ## Harmless candidates -/

/-- Letters, digits, `.`, `_`, `-` and `:`. -/
def isHarmlessChar (c : Char) : Bool := c.isAlphanum || c = '.' || c = '_' || c = '-' || c = ':'

/-- Only such characters, and no address of the host itself, of its link or of a group. -/
structure Harmless (cand : String) : Prop where
  chars : ∀ c ∈ cand.toList, isHarmlessChar c = true
  remote : ∀ ip, parseAddress cand.toList = some ip →
    ip.isLoopback = false ∧ ip.isLinkLocal = false ∧ ip.isMulticast = false

/-- An IPv6 address with a scope that is not refused. -/
def Scoped (host : List Char) : Prop :=
  ∃ ip, ScopedText host ip ∧ ip.isLoopback = false ∧ ip.isLinkLocal = false ∧ ip.isMulticast = false

/-- The host stands in brackets, and a port may stand behind it. -/
def InBrackets (u : CharTables) (token host : List Char) : Prop :=
  host ≠ [] ∧ ']' ∉ host ∧ (token = '[' :: (host ++ [']']) ∨
    ∃ port, port ≠ [] ∧ (∀ c ∈ port, u.digit c = true) ∧ token = '[' :: (host ++ ']' :: ':' :: port))

/-- Where a text names a host that may have a scope: in the first word of a line of known
hosts, between commas; behind the keyword of a line of the configuration; in front of a
comment in the table of hosts. -/
def Breadcrumb.Names (u : CharTables) (text host : List Char) : Breadcrumb → Prop
  | knownHosts => ∃ raw ∈ splitlines text, ∃ first rest, words raw = first :: rest ∧ first.head? ≠ some '#' ∧
      first.head? ≠ some '|' ∧ ∃ token ∈ first.splitOn ',', token = host ∨ InBrackets u token host
  | sshConfig => ∃ raw ∈ splitlines text, ∃ key hosts, words raw = key :: hosts ∧ lowerText key = "hostname".toList ∧
      host ∈ hosts
  | etcHosts => ∃ raw ∈ splitlines text, host ∈ words (raw.takeWhile fun c => c ≠ '#')
  | ipNeigh | sessions | history => False

/-- The host is a line of the answer to a sweep. -/
def Swept (answer : String → Option (List Char)) (cidr : String) (port : Int) (host : List Char) : Prop :=
  expandCandidates cidrExpandCap [cidr] ≠ [] ∧
    ∃ out, answer (sweepCommand (expandCandidates cidrExpandCap [cidr]) port) = some out ∧
      ∃ line ∈ splitlines out, strip line = host

/-! ## The validator -/

theorem isHex_alphanum {c : Char} (hex : isHex c = true) : c.isAlphanum = true := by
  simp only [isHex, Bool.or_eq_true, Bool.and_eq_true, decide_eq_true_eq, Char.le_def, UInt32.le_iff_toNat_le] at hex
  have codes : 'a'.val.toNat = 97 ∧ 'f'.val.toNat = 102 ∧ 'A'.val.toNat = 65 ∧ 'F'.val.toNat = 70 := by decide
  rcases hex with (digit | lower) | upper
  · simp [Char.isAlphanum, digit]
  · have all : ((charsFrom 97 6).all Char.isAlphanum) = true := by decide
    exact List.all_eq_true.mp all c (mem_charsFrom (by simp only [Char.toNat]; omega) (by simp only [Char.toNat]; omega))
  · have all : ((charsFrom 65 6).all Char.isAlphanum) = true := by decide
    exact List.all_eq_true.mp all c (mem_charsFrom (by simp only [Char.toNat]; omega) (by simp only [Char.toNat]; omega))

/-- The characters of a name are harmless. -/
theorem looksLikeName_chars {token : List Char} (name : looksLikeName token = true) : ∀ c ∈ token, isNameChar c = true := by
  cases token with
  | nil => cases name
  | cons c rest =>
    simp only [looksLikeName, Bool.and_eq_true, List.all_eq_true] at name
    intro d member
    rcases List.mem_cons.mp member with rfl | later
    · simp [isNameChar, name.1]
    · exact name.2 d later

theorem isHarmlessChar_of_isNameChar {c : Char} (name : isNameChar c = true) : isHarmlessChar c = true := by
  rw [isHarmlessChar, ← isNameChar, name]
  rfl

/-- What the validator accepts: a literal of an address that is not refused, or a name. -/
theorem validCandidate_iff {token : List Char} (stripped : strip token = token) :
    validCandidate (String.ofList token) = true ↔
      (∃ ip, parseAddress token = some ip ∧ ip.isLoopback = false ∧ ip.isLinkLocal = false ∧ ip.isMulticast = false) ∨
        parseAddress token = none ∧ token ≠ [] ∧ token.head? ≠ some '-' ∧ '/' ∉ token ∧ '*' ∉ token ∧
          looksLikeName token = true ∧ token.any Char.isAlpha = true := by
  have text : strip (String.ofList token).toList = token := by rw [String.toList_ofList, stripped]
  simp only [validCandidate, text]
  cases read : parseAddress token with
  | some ip =>
    have nonempty : token.isEmpty = false := by
      cases token with
      | nil => cases read
      | cons c rest => rfl
    simp [nonempty, and_assoc]
  | none =>
    simp only [List.isEmpty_iff, reduceCtorEq, false_and, exists_false, false_or, true_and]
    split_ifs with empty marked
    · simp [empty]
    · simp only [false_iff]
      tauto
    · rw [Bool.and_eq_true]
      tauto

theorem valid_of_scoped {token : List Char} (stripped : strip token = token) (zone : Scoped token) :
    validCandidate (String.ofList token) = true := by
  obtain ⟨ip, text, remote⟩ := zone
  exact (validCandidate_iff stripped).mpr (.inl ⟨ip, (scopedText_iff.mp text).2, remote⟩)

/-- **An accepted token is harmless exactly if** it is no address with a scope. -/
theorem harmless_iff_of_valid {token : List Char} (stripped : strip token = token)
    (valid : validCandidate (String.ofList token) = true) : Harmless (String.ofList token) ↔ ¬ Scoped token := by
  constructor
  · rintro harmless ⟨ip, text, -⟩
    have percent := (scopedText_iff.mp text).1
    have char := harmless.chars '%' (by simpa using percent)
    cases char
  · intro unscoped
    rcases (validCandidate_iff stripped).mp valid with ⟨ip, read, remote⟩ | ⟨none, -, -, -, -, name, -⟩
    · have plain : '%' ∉ token := fun percent => unscoped ⟨ip, scopedText_iff.mpr ⟨percent, read⟩, remote⟩
      constructor
      · intro c member
        rw [String.toList_ofList] at member
        rcases parseAddress_chars read plain c member with hex | rfl | rfl
        · simp [isHarmlessChar, isHex_alphanum hex]
        · rfl
        · rfl
      · intro ip' read'
        rw [String.toList_ofList, read, Option.some.injEq] at read'
        exact read' ▸ remote
    · constructor
      · intro c member
        rw [String.toList_ofList] at member
        exact isHarmlessChar_of_isNameChar (looksLikeName_chars name c member)
      · intro ip read
        rw [String.toList_ofList, none] at read
        cases read

/-- What is kept of some tokens is harmless exactly if none of them is an address with a scope. -/
theorem keepCandidates_harmless {tokens : List (List Char)} (stripped : ∀ token ∈ tokens, strip token = token) :
    (∀ cand ∈ keepCandidates tokens, Harmless cand) ↔ ∀ token ∈ tokens, ¬ Scoped token := by
  constructor
  · intro harmless token listed zone
    have valid := valid_of_scoped (stripped token listed) zone
    have kept : String.ofList token ∈ keepCandidates tokens :=
      List.mem_filter.mpr ⟨List.mem_map_of_mem listed, valid⟩
    exact (harmless_iff_of_valid (stripped token listed) valid).mp (harmless _ kept) zone
  · intro unscoped cand kept
    obtain ⟨listed, valid⟩ := List.mem_filter.mp kept
    obtain ⟨token, member, rfl⟩ := List.mem_map.mp listed
    exact (harmless_iff_of_valid (stripped token member) valid).mpr (unscoped token member)

theorem keepLines_harmless {tokens : List Char → List (List Char)} {text : List Char} {names : List Char → Prop}
    (stripped : ∀ raw, ∀ token ∈ tokens raw, strip token = token)
    (named : ∀ host, Scoped host → (names host ↔ ∃ raw ∈ splitlines text, host ∈ tokens raw)) :
    (∀ cand ∈ (splitlines text).flatMap fun raw => keepCandidates (tokens raw), Harmless cand) ↔
      ∀ host, names host → ¬ Scoped host := by
  constructor
  · intro harmless host name zone
    obtain ⟨raw, line, listed⟩ := (named host zone).mp name
    exact (keepCandidates_harmless (stripped raw)).mp
      (fun cand kept => harmless cand (List.mem_flatMap.mpr ⟨raw, line, kept⟩)) host listed zone
  · intro unscoped cand kept
    obtain ⟨raw, line, kept⟩ := List.mem_flatMap.mp kept
    refine (keepCandidates_harmless (stripped raw)).mpr ?_ cand kept
    intro host listed zone
    exact unscoped host ((named host zone).mpr ⟨raw, line, listed⟩) zone

/-! ## The tokens -/

theorem bracketed_iff {u : CharTables} {token host : List Char} : u.bracketed token = some host ↔ InBrackets u token host := by
  constructor
  · intro found
    unfold CharTables.bracketed at found
    split at found
    · rename_i rest
      simp only [Option.ite_none_left_eq_some] at found
      obtain ⟨nonempty, found⟩ := found
      have whole := List.takeWhile_append_dropWhile (p := fun c => decide (c ≠ ']')) (l := rest)
      have closed : ']' ∉ rest.takeWhile fun c => decide (c ≠ ']') := by
        intro inside
        simpa using List.mem_takeWhile_imp inside
      split at found
      · rename_i behind
        cases found
        exact ⟨by simpa using nonempty, closed, .inl (by rw [← behind, whole])⟩
      · rename_i port behind
        simp only [Option.ite_none_left_eq_some, Bool.or_eq_true, Bool.not_eq_true', not_or, Bool.not_eq_false,
          List.all_eq_true, Option.some.injEq] at found
        obtain ⟨⟨some_, digits⟩, rfl⟩ := found
        exact ⟨by simpa using nonempty, closed, .inr ⟨port, by simpa using some_, digits, by rw [← behind, whole]⟩⟩
      · cases found
    · cases found
  · rintro ⟨nonempty, closed, form⟩
    have open_ : ∀ c ∈ host, decide (c ≠ ']') = true := by
      intro c inside
      rw [decide_eq_true_eq]
      rintro rfl
      exact closed inside
    have front : ∀ tail, (host ++ ']' :: tail).takeWhile (fun c => decide (c ≠ ']')) = host := by
      intro tail
      rw [List.takeWhile_append_of_pos open_, List.takeWhile_cons_of_neg (by simp), List.append_nil]
    have behind : ∀ tail, (host ++ ']' :: tail).dropWhile (fun c => decide (c ≠ ']')) = ']' :: tail := by
      intro tail
      rw [List.dropWhile_append_of_pos open_, List.dropWhile_cons_of_neg (by simp)]
    have visible : host.isEmpty = false := by simpa using nonempty
    rcases form with rfl | ⟨port, digits, each, rfl⟩
    · simp only [CharTables.bracketed, front, behind, visible, Bool.false_eq_true, if_false]
    · have whole : port.all u.digit = true := List.all_eq_true.mpr each
      have some_ : port.isEmpty = false := by simpa using digits
      simp only [CharTables.bracketed, front, behind, visible, whole, some_, Bool.false_eq_true, Bool.not_true,
        Bool.or_self, if_false]

/-- The tokens of a line of known hosts are the parts of its first word. -/
theorem mem_knownHostsTokens {u : CharTables} {raw token : List Char} :
    token ∈ knownHostsTokens u raw ↔ ∃ first rest, words raw = first :: rest ∧ first.head? ≠ some '#' ∧
      first.head? ≠ some '|' ∧ ∃ part ∈ first.splitOn ',', (u.bracketed part).getD part = token := by
  rw [knownHostsTokens, ← words_strip raw]
  cases line : strip raw with
  | nil => simp [words_nil]
  | cons c rest =>
    have solid : isSpace c = false := head_strip c (by rw [line]; rfl)
    obtain ⟨w, ws, text⟩ := head_words solid rest
    have word : Word (c :: w) := mem_words (text ▸ List.mem_cons_self)
    have parts : ((c :: w).splitOn ',').map (fun part => (u.bracketed (strip part)).getD (strip part)) =
        ((c :: w).splitOn ',').map fun part => (u.bracketed part).getD part := by
      apply List.map_congr_left
      intro part listed
      rw [strip_visibles fun d inside => word.solid d (mem_of_mem_splitOnP listed inside)]
    simp only [text, List.isEmpty_cons, Bool.false_or, List.head?_cons, List.headD_cons, Bool.or_eq_true, parts]
    constructor
    · intro listed
      split at listed
      · cases listed
      · rename_i unmarked
        obtain ⟨part, here, same⟩ := List.mem_map.mp listed
        rw [not_or] at unmarked
        exact ⟨c :: w, ws, rfl, by simpa using unmarked.1, by simpa using unmarked.2, part, here, same⟩
    · rintro ⟨first, others, cut, hash, bar, part, here, same⟩
      obtain ⟨rfl, rfl⟩ := List.cons.inj cut
      have unmarked : c ≠ '#' ∧ c ≠ '|' := ⟨by simpa using hash, by simpa using bar⟩
      rw [if_neg (by simpa using unmarked)]
      exact List.mem_map.mpr ⟨part, here, same⟩

/-- The tokens of a line of the configuration stand behind the keyword. -/
theorem mem_sshConfigTokens {raw token : List Char} :
    token ∈ sshConfigTokens raw ↔
      ∃ key hosts, words raw = key :: hosts ∧ lowerText key = "hostname".toList ∧ token ∈ hosts := by
  rw [sshConfigTokens, ← words_strip raw]
  by_cases empty : strip raw = []
  · simp [empty, words_nil]
  · rw [words_of_visible head_strip empty]
    generalize strip raw = line at *
    have rest := words_dropWhile (line.dropWhile fun c => !isSpace c)
    constructor
    · intro listed
      split at listed
      · cases listed
      split at listed
      · cases listed
      · rename_i key val cut
        split at listed
        · rename_i keyword
          simp only [splitOnce, Option.ite_none_left_eq_some, Option.some.injEq, Prod.mk.injEq] at cut
          obtain ⟨-, rfl, rfl⟩ := cut
          rw [words_strip, rest] at listed
          exact ⟨_, _, rfl, keyword, listed⟩
        · cases listed
    · rintro ⟨key, hosts, cut, keyword, listed⟩
      obtain ⟨rfl, rfl⟩ := List.cons.inj cut
      have unmarked : line.head? ≠ some '#' := by
        intro hash
        obtain ⟨tail, rfl⟩ := List.head?_eq_some_iff.mp hash
        simp [lowerText, lowerChar, isSpace] at keyword
      have more : ((line.dropWhile fun c => !isSpace c).dropWhile isSpace).isEmpty = false := by
        rw [Bool.eq_false_iff]
        intro none
        rw [← rest, List.isEmpty_iff.mp none, words_nil] at listed
        cases listed
      have visible : line.isEmpty = false := by simpa using empty
      simp only [splitOnce, visible, unmarked, more, decide_false, Bool.or_self, Bool.false_eq_true, if_false, keyword, if_true]
      rwa [words_strip, rest]

theorem mem_etcHostsTokens {raw token : List Char} :
    token ∈ etcHostsTokens raw ↔ token ∈ words (raw.takeWhile fun c => c ≠ '#') := by
  rw [etcHostsTokens, ← words_strip (raw.takeWhile _)]
  split
  · rename_i empty
    rw [List.isEmpty_iff.mp empty]
    simp [words_nil]
  · rfl

theorem strip_knownHostsTokens {u : CharTables} (raw : List Char) :
    ∀ token ∈ knownHostsTokens u raw, strip token = token := by
  intro token listed
  obtain ⟨first, rest, text, -, -, part, here, read⟩ := mem_knownHostsTokens.mp listed
  have word : Word first := mem_words (text ▸ List.mem_cons_self)
  have visible : ∀ c ∈ part, isSpace c = false := fun c inside => word.solid c (mem_of_mem_splitOnP here inside)
  apply strip_visibles
  intro c inside
  cases found : u.bracketed part with
  | none =>
    rw [found] at read
    obtain rfl : part = token := read
    exact visible c inside
  | some host =>
    rw [found] at read
    obtain rfl : host = token := read
    obtain ⟨-, -, rfl | ⟨port, -, -, rfl⟩⟩ := bracketed_iff.mp found
    · exact visible c (by simp [inside])
    · exact visible c (by simp [inside])

theorem strip_words {text token : List Char} (listed : token ∈ words text) : strip token = token :=
  strip_visibles (mem_words listed).solid

/-- An address with a scope begins with no bracket. -/
theorem not_inBrackets_of_scoped {u : CharTables} {token host : List Char} (zone : Scoped token) :
    ¬ InBrackets u token host := by
  obtain ⟨ip, ⟨addr, scope, text, -, front, -, -, read⟩, -⟩ := zone
  rintro ⟨-, -, form⟩
  have bracket : (addr ++ '%' :: scope).head? = some '[' := by
    rw [← text]
    rcases form with rfl | ⟨port, -, -, rfl⟩
    · rfl
    · rfl
  cases addr with
  | nil => cases read
  | cons c addr =>
    obtain rfl : c = '[' := by simpa using bracket
    rcases parseV6_chars read front '[' List.mem_cons_self with hex | colon | dot
    · exact absurd hex (by decide)
    · cases colon
    · cases dot

/-! ## What the expressions capture -/

/-- Neither a `%` nor white space. -/
def Ordinary (c : Char) : Prop := c ≠ '%' ∧ isSpace c = false

instance (c : Char) : Decidable (Ordinary c) := inferInstanceAs (Decidable (_ ∧ _))

theorem unscoped_of_ordinary {token : List Char} (plain : ∀ c ∈ token, Ordinary c) : ¬ Scoped token := by
  rintro ⟨ip, text, -⟩
  exact (plain '%' (scopedText_iff.mp text).1).1 rfl

theorem ordinary_of_isAlphanum {c : Char} (alphanum : c.isAlphanum = true) : Ordinary c :=
  of_decide_eq_true (of_isAlphanum (p := fun c => decide (Ordinary c)) (by decide) (by decide) (by decide) alphanum)

theorem ordinary_of_isNameChar {c : Char} (name : isNameChar c = true) : Ordinary c := by
  simp only [isNameChar, Bool.or_eq_true, decide_eq_true_eq] at name
  rcases name with ((alphanum | rfl) | rfl) | rfl
  · exact ordinary_of_isAlphanum alphanum
  all_goals decide

theorem ordinary_of_isLabelChar {c : Char} (label : isLabelChar c = true) : Ordinary c := by
  simp only [isLabelChar, Bool.or_eq_true, decide_eq_true_eq] at label
  rcases label with (alphanum | rfl) | rfl
  · exact ordinary_of_isAlphanum alphanum
  all_goals decide

theorem ordinary_of_dot (c : Char) (isDot : decide (c = '.') = true) : Ordinary c := by
  rw [of_decide_eq_true isDot]
  decide

namespace CharTables

variable (u : CharTables)

theorem ordinary_of_digit {c : Char} (digit : u.digit c = true) : Ordinary c := by
  refine ⟨?_, u.word_visible c (u.word_of_digit c digit)⟩
  rintro rfl
  rw [u.digit_ascii '%' (by decide)] at digit
  cases digit

theorem dottedQuad_within : u.dottedQuad.Within Ordinary := by
  have digit : ∀ c, u.digit c = true → Ordinary c := fun c => u.ordinary_of_digit
  have part : ∀ n, (Regex.times n (.seq dot (.oneTo 3 (.one u.digit)))).Within Ordinary := by
    intro n
    induction n with
    | zero => trivial
    | succ n ih => exact ⟨⟨ordinary_of_dot, digit, digit⟩, ih⟩
  exact ⟨⟨digit, digit⟩, part 3⟩

theorem ipv4Re_groups : u.ipv4Re.GroupsWithin Ordinary :=
  ⟨trivial, ⟨u.dottedQuad_within, u.dottedQuad_within.groups⟩, trivial⟩

theorem sshTargetRe_groups : u.sshTargetRe.GroupsWithin Ordinary := by
  have name : ∀ c, isNameChar c = true → Ordinary c := fun c => ordinary_of_isNameChar
  have label : ∀ c, isLabelChar c = true → Ordinary c := fun c => ordinary_of_isLabelChar
  have first : ∀ c : Char, c.isAlphanum = true → Ordinary c := fun c => ordinary_of_isAlphanum
  have user : (Regex.seq (.one Char.isAlphanum) (.many none (.one isNameChar))).Within Ordinary := ⟨first, name⟩
  have host : (Regex.alt u.dottedQuad (.seq (.seq (.one Char.isAlphanum) (.many none (.one isLabelChar)))
      (.some_ (.seq dot (.some_ (.one isLabelChar)))))).Within Ordinary :=
    ⟨u.dottedQuad_within, ⟨first, label⟩, ⟨ordinary_of_dot, label, label⟩, ordinary_of_dot, label, label⟩
  exact ⟨⟨⟨trivial, trivial⟩, trivial, user, user.groups⟩, trivial, host, host.groups⟩

end CharTables

/-! ## What the parsers return -/

section

variable (u : CharTables)

theorem ipv4_ordinary {text token : List Char} (listed : token ∈ (u.ipv4Re.findAll text).filterMap fun m => m.group 1) :
    ∀ c ∈ token, Ordinary c := by
  obtain ⟨m, found, captured⟩ := List.mem_filterMap.mp listed
  exact Regex.findAll_group u.ipv4Re_groups found captured

theorem history_ordinary {raw token : List Char} (listed : token ∈ historyTokens u raw) : ∀ c ∈ token, Ordinary c := by
  unfold historyTokens at listed
  split at listed
  · obtain ⟨m, found, host⟩ := List.mem_filterMap.mp listed
    obtain ⟨whole, group, rfl⟩ := Option.map_eq_some_iff.mp host
    have captured : ∃ index, m.group index = some whole := by
      rcases Option.or_eq_some_iff.mp group with first | ⟨-, second⟩
      · exact ⟨1, (Option.filter_eq_some_iff.mp first).1⟩
      · exact ⟨2, second⟩
    obtain ⟨index, captured⟩ := captured
    intro c inside
    exact Regex.findAll_group u.sshTargetRe_groups found captured c ((List.takeWhile_prefix _).mem inside)
  · cases listed

theorem keepCandidates_ordinary {tokens : List (List Char)} (plain : ∀ token ∈ tokens, ∀ c ∈ token, Ordinary c) :
    ∀ cand ∈ keepCandidates tokens, Harmless cand :=
  (keepCandidates_harmless fun token listed => strip_visibles fun c inside => (plain token listed c inside).2).mpr
    fun token listed => unscoped_of_ordinary (plain token listed)

/-- A token of a line of known hosts with a scope is a host that the line names. -/
theorem names_knownHosts_iff (text host : List Char) (zone : Scoped host) :
    Breadcrumb.Names u text host .knownHosts ↔ ∃ raw ∈ splitlines text, host ∈ knownHostsTokens u raw := by
  have read : ∀ part : List Char, part = host ∨ InBrackets u part host ↔ (u.bracketed part).getD part = host := by
    intro part
    cases found : u.bracketed part with
    | none =>
      have bare : ¬ InBrackets u part host := by
        intro form
        rw [bracketed_iff.mpr form] at found
        cases found
      simp [bare]
    | some inner =>
      have form := bracketed_iff.mp found
      have named : ∀ other, InBrackets u part other ↔ inner = other := by
        intro other
        rw [← bracketed_iff, found, Option.some.injEq]
      have different : part ≠ host := by
        rintro rfl
        exact not_inBrackets_of_scoped zone form
      simp [named, different]
  simp only [Breadcrumb.Names, mem_knownHostsTokens, read]

/-- **What a parser returns is harmless exactly if** the text names no host with a scope. -/
theorem parse_harmless (source : Breadcrumb) (text : List Char) :
    (∀ cand ∈ source.parse u text, Harmless cand) ↔ ∀ host, source.Names u text host → ¬ Scoped host := by
  cases source with
  | knownHosts => exact keepLines_harmless strip_knownHostsTokens (names_knownHosts_iff u text)
  | sshConfig =>
    refine keepLines_harmless ?_ ?_
    · intro raw token listed
      obtain ⟨key, hosts, cut, -, behind⟩ := mem_sshConfigTokens.mp listed
      have word : token ∈ words raw := cut ▸ List.mem_cons_of_mem _ behind
      exact strip_words word
    · intro host _
      simp only [Breadcrumb.Names, mem_sshConfigTokens]
  | etcHosts =>
    refine keepLines_harmless ?_ ?_
    · exact fun raw token listed => strip_words (mem_etcHostsTokens.mp listed)
    · intro host _
      simp only [Breadcrumb.Names, mem_etcHostsTokens]
  | ipNeigh | sessions => exact ⟨fun _ _ => False.elim, fun _ => keepCandidates_ordinary fun token => ipv4_ordinary u⟩
  | history =>
    have harmless : ∀ cand ∈ parseHistoryCandidates u text, Harmless cand := by
      intro cand kept
      obtain ⟨raw, -, kept⟩ := List.mem_flatMap.mp kept
      exact keepCandidates_ordinary (fun token => history_ordinary u) cand kept
    exact ⟨fun _ _ => False.elim, fun _ => harmless⟩

/-- What a sweep returns is harmless exactly if no line of the answer is a host with a scope. -/
theorem sweep_harmless (answer : String → Option (List Char)) (cidr : String) (port : Int) :
    (∀ cand ∈ sweepHost answer cidr port, Harmless cand) ↔ ∀ host, Swept answer cidr port host → ¬ Scoped host := by
  simp only [sweepHost, Swept]
  split
  · rename_i none
    simp [List.isEmpty_iff.mp none]
  · rename_i some_
    have addrs : expandCandidates cidrExpandCap [cidr] ≠ [] := by simpa using some_
    split
    · rename_i silent
      simp [silent]
    · rename_i out answered
      rw [keepCandidates_harmless]
      · simp [addrs, answered]
      · intro token listed
        obtain ⟨line, -, rfl⟩ := List.mem_map.mp listed
        exact strip_strip line

/-- **Candidates are harmless exactly if** no host with a scope is named where the scope is read. -/
theorem candidates_harmless_iff :
    (∀ (source : Breadcrumb) (text : List Char),
      (∀ cand ∈ source.parse u text, Harmless cand) ↔ ∀ host, source.Names u text host → ¬ Scoped host) ∧
    ∀ (answer : String → Option (List Char)) (cidr : String) (port : Int),
      (∀ cand ∈ sweepHost answer cidr port, Harmless cand) ↔ ∀ host, Swept answer cidr port host → ¬ Scoped host :=
  ⟨parse_harmless u, sweep_harmless⟩

end

/-- The tables of a text that is all ASCII. -/
def CharTables.ascii : CharTables where
  digit := Char.isDigit
  word c := c.isAlphanum || c = '_'
  digit_ascii _ _ := rfl
  word_ascii _ _ := rfl
  word_of_digit c digit := by simp [Char.isAlphanum, digit]
  word_visible c word := by
    rw [Bool.or_eq_true, decide_eq_true_eq] at word
    rcases word with alphanum | rfl
    · exact (ordinary_of_isAlphanum alphanum).2
    · decide

/-- The scope of a known host may hold a command. -/
theorem command_in_scope : ¬ ∀ u : CharTables,
    (∀ (source : Breadcrumb) (text : List Char), ∀ cand ∈ source.parse u text, Harmless cand) ∧
    ∀ (answer : String → Option (List Char)) (cidr : String) (port : Int),
      ∀ cand ∈ sweepHost answer cidr port, Harmless cand := by
  intro harmless
  have kept : "2001:db8::1%$(reboot)" ∈ parseKnownHostsCandidates .ascii "2001:db8::1%$(reboot) ssh-ed25519 AAAA\n".toList := by
    decide +kernel
  have char := ((harmless .ascii).1 .knownHosts _ _ kept).chars '$' (by decide)
  cases char

end McpSsh
