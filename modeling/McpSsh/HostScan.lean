import McpSsh.KnownHosts

/-!
# The host scanner

`_is_host_known` decides under trust-on-first-use whether a key is verified. It
looks at the first word of each line, or the second behind a marker.
-/

set_option autoImplicit false

namespace McpSsh

open Base

/-! ## The host scanner -/

/-- `host_token == host or host_token.startswith(f"{host},")`. -/
def names (token host : List Char) : Bool := token = host || (host ++ [',']).isPrefixOf token

/-- One line of the scan: skip it, or decide whether it is about `host`. -/
def scanLine (host line : List Char) : Except HostsError Bool :=
  let line := strip line
  if line.isEmpty || line.head? = some '#' then .ok false
  else
    match words line with
    | [] => .error .index
    | w :: ws =>
      if isMarker w then
        match ws with
        | [] => .error .index
        | token :: _ => .ok (names token host)
      else .ok (names w host)

/-- The loop over the lines; `after` is what follows the last one. -/
def scanLines (host : List Char) (after : Except HostsError Bool) : List (List Char) → Except HostsError Bool
  | [] => after
  | line :: rest =>
    match scanLine host line with
    | .error e => .error e
    | .ok true => .ok true
    | .ok false => scanLines host after rest

/-- `_is_host_known`. -/
def isHostKnown (file : HostsFile) (host : List Char) : Except HostsError Bool :=
  match file with
  | .missing => .ok false
  | .text content => scanLines host (.ok false) (lines content)
  | .undecodable delivered => scanLines host (.error .unicodeDecode) (lines delivered)

/-- `_make_known_hosts_arg`: the file to verify against, or `None` to accept any key. -/
def makeKnownHostsArg (settings : GlobalSettings) (expandUser : String → String) (file : HostsFile)
    (cfg : ServerConfig) : Except HostsError (Option String) :=
  match cfg.hostKeyPolicy.getD settings.defaultHostKeyPolicy with
  | .strict => .ok (some (expandUser settings.knownHostsFile))
  | .tofu => do
    let known ← isHostKnown file cfg.host.toList
    return if known then some (expandUser settings.knownHostsFile) else none
  | .acceptNew => .ok none

/-! ## What the scanner should find -/

/-- The file lists `host`: a line without marker, or with the one of a certificate
authority, names it. -/
def ListsHost (file : HostsFile) (host : List Char) : Prop :=
  ∃ content, (file = .text content ∨ file = .undecodable content) ∧
    ∃ e ∈ entries content, (e.marker = none ∨ e.marker = some "@cert-authority".toList) ∧ host ∈ e.hosts

/-- The scan answers, and under trust-on-first-use a listed host is verified
against the file. -/
def NeverSkips (file : HostsFile) (host : String) : Prop :=
  (ListsHost file host.toList →
    isHostKnown file host.toList = .ok true ∧
      ∀ (settings : GlobalSettings) (expandUser : String → String) (cfg : ServerConfig), cfg.host = host →
        cfg.hostKeyPolicy.getD settings.defaultHostKeyPolicy = .tofu →
          makeKnownHostsArg settings expandUser file cfg = .ok (some (expandUser settings.knownHostsFile))) ∧
    ∃ known, isHostKnown file host.toList = .ok known

/-- The word of an entry that the scanner compares with the host. -/
def hostWord (ws : List (List Char)) : Option (List Char) :=
  match ws with
  | [] => none
  | w :: ws => if isMarker w then ws.head? else some w

/-- The entries the scanner gets to see. -/
def HostsFile.scanned : HostsFile → List (List (List Char))
  | .missing => []
  | .text content => entryWords content
  | .undecodable delivered => entryWords delivered

/-- The whole file can be decoded. -/
def HostsFile.decodable : HostsFile → Bool
  | .undecodable _ => false
  | _ => true

/-- An entry that starts with `host`, before any marker that stands alone. -/
def LeadsWith (entries : List (List (List Char))) (host : List Char) : Prop :=
  ∃ before e after, entries = before ++ e :: after ∧ (∀ b ∈ before, (hostWord b).isSome) ∧
    ∃ word, hostWord e = some word ∧ names word host = true

/-- The loop over the entries alone. -/
def scanEntries (host : List Char) (after : Except HostsError Bool) : List (List (List Char)) → Except HostsError Bool
  | [] => after
  | e :: rest =>
    match hostWord e with
    | none => .error .index
    | some word => if names word host then .ok true else scanEntries host after rest

/-- A line is skipped, or looked at as the entry it makes. -/
theorem scanLine_eq (host line : List Char) :
    scanLine host line =
      if isEntry (words line) then
        match hostWord (words line) with
        | none => .error .index
        | some word => .ok (names word host)
      else .ok false := by
  by_cases blank : Blank line
  · simp [scanLine, strip_blank blank, words_blank blank, isEntry]
  · obtain ⟨spaces, c, rest, inFront, solid, rfl⟩ := words_cons_of_not_blank blank
    obtain ⟨tail, stripped⟩ := strip_visible inFront solid rest
    obtain ⟨w, ws, first⟩ := head_words solid rest
    have same := words_strip (spaces ++ c :: rest)
    rw [words_blank_append inFront, first, stripped] at same
    rw [words_blank_append inFront, first]
    by_cases comment : c = '#'
    · subst comment
      simp [scanLine, stripped, isEntry]
    · cases marker : isMarker (c :: w) <;> cases ws <;>
        simp [scanLine, stripped, same, comment, isEntry, hostWord, marker]

theorem scanLines_eq (host : List Char) (after : Except HostsError Bool) (ls : List (List Char)) :
    scanLines host after ls = scanEntries host after ((ls.map words).filter isEntry) := by
  induction ls with
  | nil => rfl
  | cons line ls ih =>
    rw [scanLines, scanLine_eq, List.map_cons]
    cases entry : isEntry (words line) with
    | false => simp [entry, ih]
    | true =>
      rw [List.filter_cons_of_pos entry, scanEntries]
      cases hostWord (words line) with
      | none => rfl
      | some word => cases found : names word host <;> simp [found, ih]

theorem isHostKnown_eq (file : HostsFile) (host : List Char) :
    isHostKnown file host =
      scanEntries host (if file.decodable then .ok false else .error .unicodeDecode) file.scanned := by
  cases file with
  | missing => rfl
  | text content => exact scanLines_eq _ _ _
  | undecodable delivered => exact scanLines_eq _ _ _

/-- The scan says yes exactly for an entry that starts with the host. -/
theorem scanEntries_true_iff (host : List Char) {after : Except HostsError Bool} (other : after ≠ .ok true)
    (es : List (List (List Char))) : scanEntries host after es = .ok true ↔ LeadsWith es host := by
  induction es with
  | nil =>
    refine iff_of_false other ?_
    rintro ⟨before, e, rest, split, -⟩
    simp at split
  | cons e es ih =>
    have onward : LeadsWith (e :: es) host ↔
        (∃ word, hostWord e = some word ∧ names word host = true) ∨ ((hostWord e).isSome ∧ LeadsWith es host) := by
      constructor
      · rintro ⟨before, f, rest, split, clear, found⟩
        cases before with
        | nil =>
          rw [List.nil_append, List.cons.injEq] at split
          exact .inl (split.1 ▸ found)
        | cons g before =>
          rw [List.cons_append, List.cons.injEq] at split
          obtain ⟨rfl, split⟩ := split
          exact .inr ⟨clear e (by simp), before, f, rest, split, fun b member => clear b (by simp [member]), found⟩
      · rintro (found | ⟨here, before, f, rest, split, clear, found⟩)
        · exact ⟨[], e, es, rfl, by simp, found⟩
        · refine ⟨e :: before, f, rest, by rw [split, List.cons_append], fun b member => ?_, found⟩
          rcases List.mem_cons.mp member with rfl | later
          · exact here
          · exact clear b later
    rw [onward, scanEntries]
    cases word : hostWord e with
    | none => simp
    | some w => cases found : names w host <;> simp [found, ih]

/-- The scan says no exactly when every entry can be looked at, none starts with
the host, and the file ends. -/
theorem scanEntries_false_iff (host : List Char) (after : Except HostsError Bool) (es : List (List (List Char))) :
    scanEntries host after es = .ok false ↔
      after = .ok false ∧ ∀ e ∈ es, ∃ word, hostWord e = some word ∧ names word host = false := by
  induction es with
  | nil => simp [scanEntries]
  | cons e es ih =>
    rw [scanEntries]
    cases word : hostWord e with
    | none => simp [word]
    | some w => cases found : names w host <;> simp [found, ih, word]

/-- **No verification is skipped, and no exception raised**, exactly when an entry
starts with the host before any marker that stands alone, or when the host is not
listed in a file that decodes and has no such marker. -/
theorem neverSkips_iff (file : HostsFile) (host : String) : NeverSkips file host ↔
    LeadsWith file.scanned host.toList ∨
      (¬ ListsHost file host.toList ∧ file.decodable = true ∧ ∀ e ∈ file.scanned, (hostWord e).isSome) := by
  have otherwise : (if file.decodable then .ok false else .error .unicodeDecode : Except HostsError Bool) ≠ .ok true := by
    split <;> simp
  have yes := scanEntries_true_iff host.toList otherwise file.scanned
  have no := scanEntries_false_iff host.toList (if file.decodable then .ok false else .error .unicodeDecode) file.scanned
  rw [← isHostKnown_eq] at yes no
  constructor
  · rintro ⟨listed, known, answer⟩
    cases known with
    | true => exact .inl (yes.mp answer)
    | false =>
      obtain ⟨ends, clear⟩ := no.mp answer
      refine .inr ⟨fun member => ?_, ?_, fun e member => ?_⟩
      · rw [(listed member).1] at answer
        cases answer
      · by_contra broken
        simp [broken] at ends
      · obtain ⟨word, found, -⟩ := clear e member
        simp [found]
  · rintro (leads | ⟨unlisted, decodable, clear⟩)
    · have answer := yes.mpr leads
      refine ⟨fun _ => ⟨answer, ?_⟩, true, answer⟩
      rintro settings expandUser cfg rfl policy
      simp [makeKnownHostsArg, policy, answer, bind, Except.bind, pure, Except.pure]
    · refine ⟨fun listed => absurd listed unlisted, ?_⟩
      by_cases leads : LeadsWith file.scanned host.toList
      · exact ⟨true, yes.mpr leads⟩
      · refine ⟨false, no.mpr ⟨by simp [decodable], fun e member => ?_⟩⟩
        obtain ⟨word, found⟩ := Option.isSome_iff_exists.mp (clear e member)
        refine ⟨word, found, ?_⟩
        by_contra match_
        obtain ⟨before, after, split⟩ := List.append_of_mem member
        exact leads ⟨before, e, after, split, fun b inBefore => clear b (by simp [split, inBefore]), word, found,
          by simpa using match_⟩

/-- A host in second place of its line is not found. -/
theorem second_name_skipped : ¬ ∀ (file : HostsFile) (host : String), NeverSkips file host := by
  intro never
  have listed : ListsHost (.text "alpha,beta ssh-ed25519 AAAA\n".toList) "beta".toList :=
    ⟨_, .inl rfl, by decide⟩
  have answer := ((never (.text "alpha,beta ssh-ed25519 AAAA\n".toList) "beta").1 listed).1
  exact absurd answer (by decide)

end McpSsh
