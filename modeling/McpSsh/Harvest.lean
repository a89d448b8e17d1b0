import McpSsh.CappedRead
import McpSsh.DiscoveryBounds
import McpSsh.LinuxAddrs

/-!
# What an expansion can reveal

`_harvest_candidates` of `discovery.py` asks a host for its addresses, for its breadcrumbs
and, with a sweep, for the neighbours in its subnet. Every answer is capped and no parser
makes more candidates than there are characters, so hostile hosts cannot keep a scan going:
there is a limit to its steps and dials that is known before it starts.
-/

set_option autoImplicit false

namespace McpSsh

open Base Base.Ip

/-! ## The harvest -/

/-- What `_run_capped` may return for an output. -/
def ReadCapped (o : OutputStream) (text : List Char) : Prop :=
  ∃ answers s, Run (CappedStep o) .start answers s ∧ ¬ s.Running ∧ s.output = text

/-- `_BREADCRUMB_CMDS`. -/
def Breadcrumb.command : Breadcrumb → String
  | knownHosts => "cat ~/.ssh/known_hosts 2>/dev/null"
  | sshConfig => "cat ~/.ssh/config 2>/dev/null"
  | etcHosts => "cat /etc/hosts 2>/dev/null"
  | ipNeigh => "ip neigh 2>/dev/null || arp -an 2>/dev/null"
  | sessions => "last -i 2>/dev/null | head -n 200; w -h 2>/dev/null"
  | history => "cat ~/.bash_history ~/.zsh_history 2>/dev/null"

/-- The sources, in the order of the commands. -/
def breadcrumbSources : List Breadcrumb := [.knownHosts, .sshConfig, .etcHosts, .ipNeigh, .sessions, .history]

/-- The candidates of one source; a command that fails is skipped. -/
def crumbsOf (u : CharTables) (answer : String → Option (List Char)) (source : Breadcrumb) : List String :=
  match answer source.command with
  | some output => source.parse u output
  | none => []

/-- `harvest_breadcrumbs`. -/
def harvestBreadcrumbs (u : CharTables) (answer : String → Option (List Char)) : List String :=
  dedup [] (breadcrumbSources.flatMap (crumbsOf u answer))

/-- `sweep_cidr_for_host`. -/
def sweepCidrForHost (addrs : List String) (sweepCidr : Option String) : Option String :=
  match sweepCidr.filter fun cidr => cidr ≠ "" with
  | some cidr => some cidr
  | none => (addrs.findSome? fun addr => parseV4 addr.toList).map fun ip =>
      String.ofList (textOf .v4 (ip.value / 256 * 256)) ++ "/24"

/-- The options of the sweep. -/
structure SweepOptions where
  subnetSweep : Bool
  sweepCidr : Option String

/-- `_harvest_candidates` on a host, before the injected candidates. -/
def hostCandidates (u : CharTables) (o : SweepOptions) (port : Int) (answer : String → Option (List Char)) :
    List String :=
  let ownAddrs := (harvestAddresses u answer).getD []
  let crumbs := harvestBreadcrumbs u answer
  if o.subnetSweep then
    match sweepCidrForHost ownAddrs o.sweepCidr with
    | some cidr => crumbs ++ sweepHost answer cidr port
    | none => crumbs
  else crumbs

/-- The files that `_local_breadcrumbs` reads, where they can be read. -/
structure LocalFiles where
  knownHosts : Option (List Char)
  sshConfig : Option (List Char)
  etcHosts : Option (List Char)

/-- `_local_breadcrumbs`. -/
def localBreadcrumbs (u : CharTables) (files : LocalFiles) : List String :=
  dedup [] ((files.knownHosts.map (Breadcrumb.parse u .knownHosts)).getD [] ++
    (files.sshConfig.map (Breadcrumb.parse u .sshConfig)).getD [] ++
    (files.etcHosts.map (Breadcrumb.parse u .etcHosts)).getD [])

/-- The host answers a command with what a capped read of some output returns. -/
def AnswersCapped (answer : String → Option (List Char)) : Prop :=
  ∀ cmd text, answer cmd = some text → ∃ o, ReadCapped o text

/-- An expansion reveals what its item's host answers, and the local seed what is in the files. -/
def Harvests (u : CharTables) (o : SweepOptions) (files : LocalFiles) (p : DiscoveryParams) (s : Engine) :
    DiscoveryEvent → Prop
  | .harvested crumbs => ∀ item, s.phase = .harvesting item →
      if item.conn.isSome then ∃ answer, AnswersCapped answer ∧ crumbs = hostCandidates u o p.port answer
      else crumbs = localBreadcrumbs u files
  | _ => True

/-! ## No parser makes more candidates than there are characters -/

/-- What is kept of some tokens, if nothing is left of the empty ones. -/
theorem length_keepCandidates_map {f : List Char → List Char} (nil : f [] = []) (pieces : List (List Char)) :
    (keepCandidates (pieces.map f)).length ≤ pieces.flatten.length := by
  refine Nat.le_trans ?_ length_le_flatten
  rw [keepCandidates, List.map_map, ← List.countP_eq_length_filter, ← List.countP_eq_length_filter, List.countP_map]
  refine List.countP_mono_left fun piece _ valid => ?_
  cases piece with
  | nil =>
    rw [Function.comp_apply, Function.comp_apply, nil] at valid
    exact absurd valid (by decide)
  | cons c piece => rfl

theorem length_keepCandidates_le (tokens : List (List Char)) : (keepCandidates tokens).length ≤ tokens.length := by
  refine (List.length_filter_le _ _).trans ?_
  rw [List.length_map]

section

variable (u : CharTables)

theorem length_knownHostsTokens_le (raw : List Char) : (keepCandidates (knownHostsTokens u raw)).length ≤ raw.length := by
  simp only [knownHostsTokens]
  split
  · exact Nat.zero_le _
  · refine (length_keepCandidates_map rfl _).trans ?_
    have first : ((words (strip raw)).headD []).length ≤ (strip raw).length := by
      cases split : words (strip raw) with
      | nil => exact Nat.zero_le _
      | cons w rest =>
        have whole := congrArg List.length (flatten_words (strip raw))
        rw [split, List.flatten_cons, List.length_append] at whole
        have part := List.length_filter_le (fun c => !isSpace c) (strip raw)
        rw [List.headD_cons]
        omega
    rw [List.splitOn_eq_splitOnP, flatten_splitOnP]
    exact (List.length_filter_le _ _).trans (first.trans (length_strip_le raw))

theorem length_sshConfigTokens_le (raw : List Char) : (keepCandidates (sshConfigTokens raw)).length ≤ raw.length := by
  refine (length_keepCandidates_le _).trans ?_
  simp only [sshConfigTokens]
  split
  · exact Nat.zero_le _
  split
  · exact Nat.zero_le _
  rename_i key val parts
  split
  · have rest : val.length ≤ (strip raw).length := by
      simp only [splitOnce, Option.ite_none_left_eq_some, Option.some.injEq, Prod.mk.injEq] at parts
      rw [← parts.2.2]
      exact (List.length_dropWhile_le _ _).trans (List.length_dropWhile_le _ _)
    exact (length_words_le _).trans ((length_strip_le val).trans (rest.trans (length_strip_le raw)))
  · exact Nat.zero_le _

theorem length_etcHostsTokens_le (raw : List Char) : (keepCandidates (etcHostsTokens raw)).length ≤ raw.length := by
  refine (length_keepCandidates_le _).trans ?_
  simp only [etcHostsTokens]
  split
  · exact Nat.zero_le _
  · exact (length_words_le _).trans ((length_strip_le _).trans (List.takeWhile_sublist _).length_le)

theorem length_historyTokens_le (raw : List Char) : (keepCandidates (historyTokens u raw)).length ≤ raw.length := by
  refine (length_keepCandidates_le _).trans ?_
  unfold historyTokens
  split
  · exact (List.length_filterMap_le _ _).trans (Regex.length_findAll_le _ _)
  · exact Nat.zero_le _

/-- What the lines bring is bounded by the text if each brings no more than its characters. -/
theorem length_lines_le {found : List Char → List String} (each : ∀ raw, (found raw).length ≤ raw.length)
    (text : List Char) : ((splitlines text).flatMap found).length ≤ text.length := by
  refine Nat.le_trans ?_ (length_flatten_splitlines text)
  induction splitlines text with
  | nil => exact Nat.le_refl 0
  | cons raw rest ih =>
    rw [List.flatMap_cons, List.flatten_cons, List.length_append, List.length_append]
    exact Nat.add_le_add (each raw) ih

/-- **No parser makes more candidates than there are characters.** -/
theorem length_parse_le (source : Breadcrumb) (text : List Char) : (source.parse u text).length ≤ text.length := by
  have quads : (keepCandidates ((u.ipv4Re.findAll text).filterMap fun m => m.group 1)).length ≤ text.length :=
    (length_keepCandidates_le _).trans ((List.length_filterMap_le _ _).trans (Regex.length_findAll_le _ _))
  cases source with
  | knownHosts => exact length_lines_le (length_knownHostsTokens_le u) text
  | sshConfig => exact length_lines_le length_sshConfigTokens_le text
  | etcHosts => exact length_lines_le length_etcHostsTokens_le text
  | ipNeigh | sessions => exact quads
  | history => exact length_lines_le (length_historyTokens_le u) text

theorem length_sweepHost_le (answer : String → Option (List Char)) (cidr : String) (port : Int) {most : Nat}
    (capped : ∀ cmd text, answer cmd = some text → text.length ≤ most) : (sweepHost answer cidr port).length ≤ most := by
  simp only [sweepHost]
  split
  · exact Nat.zero_le _
  split
  · exact Nat.zero_le _
  · rename_i out answered
    have lines := (length_keepCandidates_map (f := strip) rfl (splitlines out)).trans (length_flatten_splitlines out)
    exact lines.trans (capped _ _ answered)

/-! ## What one expansion reveals -/

/-- A capped read returns no more than the cap. -/
theorem ReadCapped.length_le {o : OutputStream} {text : List Char} (read : ReadCapped o text) :
    text.length ≤ harvestMaxBytes := by
  obtain ⟨answers, s, run, -, rfl⟩ := read
  have inv := (CappedRead.inv_start o).run run
  rw [inv.count]
  exact inv.bounded

/-- The six sources and the sweep. -/
theorem length_hostCandidates_le (o : SweepOptions) (port : Int) {answer : String → Option (List Char)}
    (capped : AnswersCapped answer) : (hostCandidates u o port answer).length ≤ 7 * harvestMaxBytes := by
  have within : ∀ cmd text, answer cmd = some text → text.length ≤ harvestMaxBytes := by
    intro cmd text answered
    obtain ⟨o, read⟩ := capped cmd text answered
    exact read.length_le
  have one : ∀ source, (crumbsOf u answer source).length ≤ harvestMaxBytes := by
    intro source
    unfold crumbsOf
    split
    · rename_i output answered
      exact (length_parse_le u source output).trans (within _ _ answered)
    · exact Nat.zero_le _
  have crumbs : (harvestBreadcrumbs u answer).length ≤ 6 * harvestMaxBytes := by
    refine (Engine.length_dedup_le _ _).trans ?_
    have sum : ∀ sources : List Breadcrumb,
        (sources.flatMap (crumbsOf u answer)).length ≤ sources.length * harvestMaxBytes := by
      intro sources
      induction sources with
      | nil => simp
      | cons source rest ih =>
        have first := one source
        rw [List.flatMap_cons, List.length_append, List.length_cons, Nat.succ_mul]
        omega
    exact sum breadcrumbSources
  simp only [hostCandidates]
  split
  · split
    · rename_i cidr _
      have swept := length_sweepHost_le answer cidr port within
      rw [List.length_append]
      omega
    · omega
  · omega

/-- The characters of the files. -/
def LocalFiles.size (files : LocalFiles) : Nat :=
  (files.knownHosts.getD []).length + (files.sshConfig.getD []).length + (files.etcHosts.getD []).length

theorem length_localBreadcrumbs_le (files : LocalFiles) : (localBreadcrumbs u files).length ≤ files.size := by
  have one : ∀ (source : Breadcrumb) (content : Option (List Char)),
      ((content.map (source.parse u)).getD []).length ≤ (content.getD []).length := by
    intro source content
    cases content with
    | none => exact Nat.le_refl 0
    | some text => exact length_parse_le u source text
  have known := one .knownHosts files.knownHosts
  have config := one .sshConfig files.sshConfig
  have hosts := one .etcHosts files.etcHosts
  refine (Engine.length_dedup_le _ _).trans ?_
  rw [List.length_append, List.length_append, LocalFiles.size]
  omega

end

/-! ## A limit for every scan -/

namespace Engine

section

variable {p : DiscoveryParams} {u : CharTables} {o : SweepOptions} {files : LocalFiles} {store : Store}
  {connects : Nat → String → Option Nat} {names : Option (List String)} {keys : Nat} {events : List DiscoveryEvent}
  {s : Engine}

/-- The most addresses that an expansion can reveal. -/
def mostRevealed (files : LocalFiles) : Nat := max (7 * harvestMaxBytes) files.size

/-- What the harvests reveal, from whichever host. -/
theorem length_le_mostRevealed {item : FrontierItem} {crumbs : List String} (phase : s.phase = .harvesting item)
    (harvests : Harvests u o files p s (.harvested crumbs)) : crumbs.length ≤ mostRevealed files := by
  have revealed := harvests item phase
  split at revealed
  · obtain ⟨answer, capped, rfl⟩ := revealed
    exact (length_hostCandidates_le u o p.port capped).trans (Nat.le_max_left _ _)
  · rw [revealed]
    exact (length_localBreadcrumbs_le u files).trans (Nat.le_max_right _ _)

/-- **A scan has a limit that is known before it starts**, whatever the hosts answer: from
the number of its seeds, its bound on hosts, the sizes of the local files and the number
of injected candidates. The limit holds for its steps and for its dials. -/
theorem scan_within_limit
    (run : Run (guard (system p) (Harvests u o files p))
      (init store keys (buildSeedFrontier store.registry connects names)) events s) :
    events.length ≤ scanLimit p (buildSeedFrontier store.registry connects names).length (mostRevealed files) ∧
      s.dials.length ≤ ((buildSeedFrontier store.registry connects names).length + p.maxNodes.toNat) *
        (mostRevealed files + p.injected.length) :=
  within_limit (fun _ _ _ phase harvests => length_le_mostRevealed phase harvests) run

/-- The local seed reads its candidates from a hosts file. -/
def sampleFiles : LocalFiles where
  knownHosts := none
  sshConfig := none
  etcHosts := some "10.0.0.1 # web\n10.0.0.2\n".toList

/-- So does the host that it finds. -/
def sampleAnswer (cmd : String) : Option (List Char) :=
  if cmd = Breadcrumb.etcHosts.command then some "10.1.0.9\n10.0.0.1\n".toList else none

theorem sampleAnswer_capped : AnswersCapped sampleAnswer := by
  intro cmd text answered
  obtain ⟨-, same⟩ := Option.ite_none_right_eq_some.mp answered
  obtain rfl := Option.some.inj same
  have run : Run (CappedStep (.ofText "10.1.0.9\n10.0.0.1\n".toList)) .start
      ["10.1.0.9\n10.0.0.1\n".toList, []] _ :=
    .step ⟨⟨rfl, by decide⟩, by decide, rfl⟩ (.step ⟨⟨rfl, by decide⟩, by decide, rfl⟩ (.refl _))
  exact ⟨_, _, _, run, fun running => Bool.false_ne_true running.1.symm, rfl⟩

theorem scan_within_limit_sample : ∃ s, Run (guard (system sampleParams)
    (Harvests .ascii ⟨false, none⟩ sampleFiles sampleParams))
    (init .blank 1 (buildSeedFrontier Store.blank.registry (fun _ _ => none) none)) sampleScan s ∧
      sampleScan.length ≤ scanLimit sampleParams 1 (mostRevealed sampleFiles) := by
  have local_ : ["10.0.0.1", "10.0.0.2"] = localBreadcrumbs .ascii sampleFiles := by decide +kernel
  have remote : ["10.1.0.9", "10.0.0.1"] = hostCandidates .ascii ⟨false, none⟩ 22 sampleAnswer := by decide +kernel
  have run : ∃ s, Run (guard (system sampleParams) (Harvests .ascii ⟨false, none⟩ sampleFiles sampleParams))
      (init .blank 1 (buildSeedFrontier Store.blank.registry (fun _ _ => none) none)) sampleScan s := by
    refine ⟨_, .step ⟨rfl, trivial⟩ (.step ⟨rfl, trivial⟩ (.step ⟨rfl, ?_⟩ (.step ⟨rfl, trivial⟩ (.step ⟨rfl, trivial⟩
      (.step ⟨rfl, trivial⟩ (.step ⟨rfl, trivial⟩ (.step ⟨rfl, trivial⟩ (.step ⟨rfl, trivial⟩ (.step ⟨rfl, trivial⟩
      (.step ⟨rfl, ?_⟩ (.step ⟨rfl, trivial⟩ (.step ⟨rfl, trivial⟩ (.step ⟨rfl, trivial⟩ (.refl _))))))))))))))⟩
    · rintro item same
      cases same
      exact local_
    · rintro item same
      cases same
      exact ⟨sampleAnswer, sampleAnswer_capped, remote⟩
  obtain ⟨s, run⟩ := run
  exact ⟨s, run, (scan_within_limit run).1⟩

end

end Engine

/-! ## The sweep of a host's own subnet -/

/-- The host addresses of the block of 256 addresses around an address, but for its first
and its last. -/
def neighbours (ip : Address) : List String :=
  (List.range' (ip.value / 256 * 256 + 1) 254).map fun n => String.ofList (textOf .v4 n)

/-- The text of the block expands to its host addresses. -/
theorem expandCandidates_subnet {ip : Address} (v4 : ip.version = .v4) :
    expandCandidates cidrExpandCap [String.ofList (textOf .v4 (ip.value / 256 * 256)) ++ "/24"] = neighbours ip := by
  obtain ⟨version, n, inRange⟩ := ip
  cases v4
  have small : n / 256 * 256 < 2 ^ Version.v4.bits := Nat.lt_of_le_of_lt (Nat.div_mul_le_self n 256) inRange
  have length : netmask .v4 "24".toList = some 24 := by decide
  have text : (String.ofList (textOf .v4 (n / 256 * 256)) ++ "/24").toList =
      textOf .v4 (n / 256 * 256) ++ '/' :: "24".toList := by
    rw [String.toList_append, String.toList_ofList]
    rfl
  have visible : ∀ c ∈ textOf .v4 (n / 256 * 256) ++ '/' :: "24".toList, isSpace c = false := by
    intro c member
    rcases List.mem_append.mp member with front | back
    · rcases textOf_v4_chars _ c front with digit | rfl
      · exact isSpace_of_isDigit digit
      · decide
    · have solid : ('/' :: "24".toList).any isSpace = false := by decide
      exact Bool.eq_false_iff.mpr (List.any_eq_false.mp solid c back)
  have hosts : itemAddrs (String.ofList (textOf .v4 (n / 256 * 256)) ++ "/24") = neighbours ⟨.v4, n, inRange⟩ := by
    have read := parseNetwork_textOf small (by decide) length
    have block : n / 256 * 256 / 2 ^ (Version.v4.bits - 24) * 2 ^ (Version.v4.bits - 24) = n / 256 * 256 :=
      congrArg (· * 256) (Nat.mul_div_cancel (n / 256) (by decide : 0 < 256))
    have range : (Network.around ⟨.v4, n / 256 * 256, small⟩ 24 (netmask_le length)).hostRange =
        (n / 256 * 256 + 1, 254) := by
      have size : (Network.around ⟨.v4, n / 256 * 256, small⟩ 24 (netmask_le length)).size = 256 := by
        simp [Network.size, Network.around, Version.bits]
      rw [Network.hostRange, if_pos (by rw [size]; decide), size]
      simp only [Network.around, block]
    have some_ : (textOf .v4 (n / 256 * 256) ++ '/' :: "24".toList).isEmpty = false := by simp
    have slash : '/' ∈ textOf .v4 (n / 256 * 256) ++ '/' :: "24".toList := by simp
    simp only [itemAddrs, text, strip_visibles visible, read, some_, slash, if_true, Bool.false_eq_true, if_false,
      Network.hosts, range, neighbours, List.map_map]
    rfl
  have distinct : (neighbours ⟨.v4, n, inRange⟩).Nodup := by
    apply List.Nodup.map_on _ List.nodup_range'
    intro i inside j inside' same
    simp only [List.mem_range'_1] at inside inside'
    have below : n / 256 * 256 + 256 ≤ 2 ^ Version.v4.bits := by
      have range : n < 2 ^ 32 := inRange
      show n / 256 * 256 + 256 ≤ 2 ^ 32
      omega
    exact textOf_v4_inj (by omega) (by omega) (String.ofList_injective same)
  rw [expandCandidates_eq (by decide), List.flatMap_singleton, hosts, dedup_of_nodup distinct (by simp)]
  refine List.take_of_length_le ?_
  rw [neighbours, List.length_map, List.length_range']
  decide

/-- **A host sweeps its own subnet**: whatever it answers, the addresses harvested from it
are distinct and real, and without a CIDR of the caller the sweep is over the 254 host
addresses of the block around the first of them, and there is none where no address was. -/
theorem sweeps_own_subnet (u : CharTables) (answer : String → Option (List Char)) :
    let own := (harvestAddresses u answer).getD []
    (own.Nodup ∧ ∀ a ∈ own, RealAddr a) ∧ (own = [] ∧ sweepCidrForHost own none = none ∨
      ∃ a rest ip cidr, own = a :: rest ∧ parseV4 a.toList = some ip ∧ sweepCidrForHost own none = some cidr ∧
        expandCandidates cidrExpandCap [cidr] = neighbours ip) := by
  intro own
  have spec : own.Nodup ∧ ∀ a ∈ own, RealAddr a := harvestAddresses_spec u answer
  refine ⟨spec, ?_⟩
  cases list : own with
  | nil => exact .inl ⟨rfl, rfl⟩
  | cons a rest =>
    obtain ⟨ip, read, -⟩ := spec.2 a (list ▸ List.mem_cons_self)
    obtain ⟨ds, small, -, same⟩ := (Option.pmap_eq_some_iff ..).mp read
    refine .inr ⟨a, rest, ip, _, rfl, read, ?_, expandCandidates_subnet (congrArg Address.version same)⟩
    simp [sweepCidrForHost, read]

end McpSsh
