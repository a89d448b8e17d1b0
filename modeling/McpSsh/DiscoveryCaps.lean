import McpSsh.DiscoveryCompleteness
import McpSsh.JumpChain
import McpSsh.Audit
import McpSsh.Base.IpAddress

/-!
# What a scan leaves out

The bounds on depth, hosts and time set the flag of a cut short scan. The bound on the
expansion of an injected target lies in a helper that cannot: the scan of a large block
probes its first addresses and does not say that there are more.
-/

set_option autoImplicit false

namespace McpSsh

open Base Base.Ip

/-! ## Candidates -/

/-- `_CIDR_EXPAND_CAP`. -/
def cidrExpandCap : Nat := 1024

/-- `re.fullmatch(r"[a-zA-Z0-9][a-zA-Z0-9._-]*", token)`. -/
def looksLikeName : List Char → Bool
  | [] => false
  | c :: rest => c.isAlphanum && rest.all fun c => c.isAlphanum || c = '.' || c = '_' || c = '-'

/-- `_valid_candidate`. -/
def validCandidate (token : String) : Bool :=
  let token := strip token.toList
  if token.isEmpty then false
  else
    match parseAddress token with
    | some ip => !(ip.isLoopback || ip.isLinkLocal || ip.isMulticast)
    | none =>
      if token.head? = some '-' ∨ '/' ∈ token ∨ '*' ∈ token then false
      else looksLikeName token && token.any Char.isAlpha

/-- A new address goes to the end of the list; the flag tells whether the list is full. -/
def enlist (cap : Nat) (out : List String) (addr : String) : List String × Bool :=
  if addr ∈ out then (out, false) else (out ++ [addr], decide (cap ≤ out.length + 1))

/-- The loop over the hosts of a network, `count` of them from `first` on. -/
def enlistHosts (cap : Nat) (version : Version) : Nat → Nat → List String → List String × Bool
  | 0, _, out => (out, false)
  | count + 1, first, out =>
    let found := enlist cap out (String.ofList (textOf version first))
    if found.2 then found else enlistHosts cap version count (first + 1) found.1

/-- A turn of the loop in `expand_candidates`. -/
def expandItem (cap : Nat) (out : List String) (raw : String) : List String × Bool :=
  let item := strip raw.toList
  if item.isEmpty then (out, false)
  else if '/' ∈ item then
    match parseNetwork item with
    | none => (out, false)
    | some net => enlistHosts cap net.version net.hostRange.2 net.hostRange.1 out
  else if validCandidate (String.ofList item) then enlist cap out (String.ofList item)
  else (out, false)

/-- The loop in `expand_candidates`, which returns when the list is full. -/
def expandFrom (cap : Nat) : List String → List String → List String
  | out, [] => out
  | out, raw :: rest =>
    let found := expandItem cap out raw
    if found.2 then found.1 else expandFrom cap found.1 rest

/-- `expand_candidates`. -/
def expandCandidates (cap : Nat) (items : List String) : List String := expandFrom cap [] items

/-- The user and the target of `user@target`. -/
def splitUser (s : String) : Option String × String :=
  let (user, rest) := partition '@' s.toList
  if user.isEmpty || rest.isEmpty then (none, s) else (some (String.ofList user), String.ofList rest)

/-- The loop of `_parse_injected` over the addresses of a target. -/
def addInjected (user : Option String) (found : List String × Dict String String) (addr : String) :
    List String × Dict String String :=
  (if addr ∈ found.1 then found.1 else found.1 ++ [addr],
    match user with
    | some user => found.2.insert addr user
    | none => found.2)

/-- The loop of `_parse_injected` over the items. -/
def parseInjectedFrom (found : List String × Dict String String) : List String → List String × Dict String String
  | [] => found
  | raw :: rest =>
    let s := stripText raw
    if s = "" then parseInjectedFrom found rest
    else
      let (user, s) := splitUser s
      parseInjectedFrom ((expandCandidates cidrExpandCap [s]).foldl (addInjected user) found) rest

/-- `_parse_injected`: the addresses, and the users of some of them. -/
def parseInjected (items : List String) : List String × Dict String String := parseInjectedFrom ([], Dict.empty) items

/-! ## What an item denotes -/

/-- The addresses of a target: all hosts of a network, or itself. -/
def itemAddrs (raw : String) : List String :=
  let item := strip raw.toList
  if item.isEmpty then []
  else if '/' ∈ item then
    match parseNetwork item with
    | none => []
    | some net => net.hosts.map String.ofList
  else if validCandidate (String.ofList item) then [String.ofList item]
  else []

/-- The target of an injected item. -/
def targetOf (raw : String) : String := (splitUser (stripText raw)).2

/-- The address is one of an injected item. -/
def Denotes (items : List String) (addr : String) : Prop := ∃ raw ∈ items, addr ∈ itemAddrs (targetOf raw)

/-! ## The expansion keeps the first addresses -/

/-- What has been seen counts as a set. -/
theorem dedup_congr {seen seen' : List String} (same : ∀ a, a ∈ seen ↔ a ∈ seen') (xs : List String) :
    dedup seen xs = dedup seen' xs := by
  induction xs generalizing seen seen' with
  | nil => rfl
  | cons x xs ih =>
    simp only [dedup, same x]
    split
    · exact ih same
    · congr 1
      apply ih
      intro a
      rw [List.mem_cons, List.mem_cons, same a]

theorem dedup_append (seen xs ys : List String) :
    dedup seen (xs ++ ys) = dedup seen xs ++ dedup (seen ++ dedup seen xs) ys := by
  induction xs generalizing seen with
  | nil => simp [dedup]
  | cons x xs ih =>
    simp only [List.cons_append, dedup]
    split
    · exact ih seen
    · rw [ih, List.cons_append]
      congr 2
      apply dedup_congr
      intro a
      simp only [List.mem_append, List.mem_cons]
      tauto

theorem mem_dedup {seen xs : List String} {a : String} : a ∈ dedup seen xs ↔ a ∈ xs ∧ a ∉ seen := by
  induction xs generalizing seen with
  | nil => simp [dedup]
  | cons x xs ih =>
    simp only [dedup]
    split
    · rename_i old
      rw [ih, List.mem_cons]
      constructor
      · rintro ⟨later, new⟩
        exact ⟨.inr later, new⟩
      · rintro ⟨rfl | later, new⟩
        · exact absurd old new
        · exact ⟨later, new⟩
    · rename_i fresh
      rw [List.mem_cons, ih, List.mem_cons, List.mem_cons]
      by_cases here : a = x
      · simp [here, fresh]
      · simp [here]

/-- A new element goes to the end of what has been listed. -/
theorem append_dedup_cons {out : List String} {x : String} (fresh : x ∉ out) (rest : List String) :
    out ++ dedup out (x :: rest) = out ++ [x] ++ dedup (out ++ [x]) rest := by
  have later : dedup (out ++ [x]) rest = dedup (x :: out) rest := by
    apply dedup_congr
    intro a
    rw [List.mem_append, List.mem_singleton, List.mem_cons, or_comm]
  rw [later, List.append_assoc, List.singleton_append, dedup, if_neg fresh]

/-- Nothing is dropped from a list without repetitions. -/
theorem dedup_of_nodup {seen xs : List String} (distinct : xs.Nodup) (apart : ∀ x ∈ xs, x ∉ seen) : dedup seen xs = xs := by
  induction xs generalizing seen with
  | nil => rfl
  | cons x xs ih =>
    obtain ⟨once, distinct⟩ := List.nodup_cons.mp distinct
    rw [dedup, if_neg (apart x List.mem_cons_self), ih distinct]
    intro y member again
    rcases List.mem_cons.mp again with rfl | old
    · exact once member
    · exact apart y (List.mem_cons_of_mem _ member) old

/-- The loops of `expand_candidates` over a list of addresses. -/
def enlistAll (cap : Nat) : List String → List String → List String × Bool
  | out, [] => (out, false)
  | out, addr :: rest =>
    let found := enlist cap out addr
    if found.2 then found else enlistAll cap found.1 rest

/-- The list fills with the different addresses, up to the cap. -/
theorem enlistAll_eq {cap : Nat} {out : List String} (room : out.length < cap) (addrs : List String) :
    enlistAll cap out addrs =
      ((out ++ dedup out addrs).take cap, decide (cap ≤ (out ++ dedup out addrs).length)) := by
  induction addrs generalizing out with
  | nil =>
    have short : ¬ cap ≤ out.length := by omega
    simp [enlistAll, dedup, short, List.take_of_length_le (Nat.le_of_lt room)]
  | cons addr rest ih =>
    by_cases old : addr ∈ out
    · simp only [enlistAll, enlist, dedup, old, if_true]
      exact ih room
    · have length : (out ++ [addr]).length = out.length + 1 := by simp
      rw [append_dedup_cons old]
      by_cases full : cap ≤ out.length + 1
      · have reached : cap = (out ++ [addr]).length := by omega
        simp only [enlistAll, enlist, old, if_false, full, decide_true, if_true]
        have exceeds : (out ++ [addr]).length ≤ (out ++ [addr] ++ dedup (out ++ [addr]) rest).length :=
          (List.prefix_append _ _).length_le
        rw [reached, List.take_left, decide_eq_true exceeds]
      · simp only [enlistAll, enlist, old, if_false, full, decide_false]
        exact ih (by omega)

theorem enlistHosts_eq (cap : Nat) (version : Version) (count first : Nat) (out : List String) :
    enlistHosts cap version count first out =
      enlistAll cap out (((List.range' first count).map (textOf version)).map String.ofList) := by
  induction count generalizing first out with
  | zero => rfl
  | succ count ih => simp only [enlistHosts, enlistAll, List.range'_succ, List.map_cons, ih]

theorem expandItem_eq (cap : Nat) (out : List String) (raw : String) :
    expandItem cap out raw = enlistAll cap out (itemAddrs raw) := by
  simp only [expandItem, itemAddrs]
  split
  · rfl
  split
  · split
    · rfl
    · exact enlistHosts_eq _ _ _ _ _
  split
  · simp only [enlistAll]
    split
    · rfl
    · rename_i open_
      exact Prod.ext rfl (by simpa using open_)
  · rfl

theorem expandFrom_eq {cap : Nat} {out : List String} (room : out.length < cap) (items : List String) :
    expandFrom cap out items = (out ++ dedup out (items.flatMap itemAddrs)).take cap := by
  induction items generalizing out with
  | nil => simp [expandFrom, dedup, List.take_of_length_le (Nat.le_of_lt room)]
  | cons raw rest ih =>
    simp only [expandFrom, expandItem_eq, enlistAll_eq room, List.flatMap_cons, dedup_append, ← List.append_assoc]
    split
    · rename_i full
      exact (List.take_append_of_le_length (of_decide_eq_true full)).symm
    · rename_i more
      have short : (out ++ dedup out (itemAddrs raw)).length < cap := by simpa using more
      rw [List.take_of_length_le (Nat.le_of_lt short), ih short]

/-- **The expansion is the first different addresses of the items**, up to the cap. -/
theorem expandCandidates_eq {cap : Nat} (positive : 0 < cap) (items : List String) :
    expandCandidates cap items = (dedup [] (items.flatMap itemAddrs)).take cap :=
  expandFrom_eq (by simpa using positive) items

/-! ## What is injected -/

theorem mem_foldl_addInjected (user : Option String) (found : List String × Dict String String) (addrs : List String)
    (a : String) : a ∈ (addrs.foldl (addInjected user) found).1 ↔ a ∈ found.1 ∨ a ∈ addrs := by
  induction addrs generalizing found with
  | nil => simp
  | cons addr addrs ih =>
    rw [List.foldl_cons, ih, List.mem_cons]
    have here : a ∈ (addInjected user found addr).1 ↔ a ∈ found.1 ∨ a = addr := by
      simp only [addInjected]
      split
      · rename_i old
        constructor
        · exact .inl
        · rintro (before | rfl)
          · exact before
          · exact old
      · simp
    rw [here, or_assoc]

/-- The part of a target's addresses that the expansion keeps. -/
def keptAddrs (raw : String) : List String := (dedup [] (itemAddrs (targetOf raw))).take cidrExpandCap

theorem itemAddrs_blank {raw : String} (blank : stripText raw = "") : itemAddrs (targetOf raw) = [] := by
  rw [targetOf, blank]
  rfl

theorem mem_parseInjectedFrom (found : List String × Dict String String) (items : List String) (a : String) :
    a ∈ (parseInjectedFrom found items).1 ↔ a ∈ found.1 ∨ ∃ raw ∈ items, a ∈ keptAddrs raw := by
  induction items generalizing found with
  | nil => simp [parseInjectedFrom]
  | cons raw rest ih =>
    simp only [parseInjectedFrom]
    split
    · rename_i blank
      have none_ : a ∉ keptAddrs raw := by simp [keptAddrs, itemAddrs_blank blank, dedup]
      rw [ih]
      simp [none_]
    · rw [ih, mem_foldl_addInjected, expandCandidates_eq (by decide)]
      simp [keptAddrs, targetOf, or_assoc]

/-- The injected candidates are what the expansion keeps of each target. -/
theorem mem_parseInjected {items : List String} {a : String} :
    a ∈ (parseInjected items).1 ↔ ∃ raw ∈ items, a ∈ keptAddrs raw := by
  simp [parseInjected, mem_parseInjectedFrom]

/-- Every address that the expansion drops from one target it keeps from another. -/
def WithinCap (items : List String) : Prop :=
  ∀ raw ∈ items, ∀ a ∈ (dedup [] (itemAddrs (targetOf raw))).drop cidrExpandCap, ∃ other ∈ items, a ∈ keptAddrs other

theorem withinCap_iff {items : List String} :
    WithinCap items ↔ ∀ a, Denotes items a → a ∈ (parseInjected items).1 := by
  constructor
  · rintro within a ⟨raw, listed, addr⟩
    have different : a ∈ dedup [] (itemAddrs (targetOf raw)) := mem_dedup.mpr ⟨addr, List.not_mem_nil⟩
    rw [← List.take_append_drop cidrExpandCap (dedup [] (itemAddrs (targetOf raw)))] at different
    apply mem_parseInjected.mpr
    rcases List.mem_append.mp different with kept | dropped
    · exact ⟨raw, listed, kept⟩
    · exact within raw listed a dropped
  · intro all raw listed a dropped
    have addr := mem_dedup.mp (List.mem_of_mem_drop dropped)
    exact mem_parseInjected.mp (all a ⟨raw, listed, addr.1⟩)

/-! ## Scans that were not cut short -/

namespace Engine

variable {p : DiscoveryParams} {s s' : Engine}

/-- Every expansion has had the injected candidates among its own. -/
def Offers (p : DiscoveryParams) (s : Engine) : Prop := ∀ e ∈ s.expansions, ∀ a ∈ p.injected, a ∈ e.2

theorem Offers.step {event : DiscoveryEvent} (offers : s.Offers p) (stepped : s.step p event = some s') :
    s'.Offers p := by
  cases steps_of_step stepped with
  | exhausted => exact offers
  | stopped => exact offers
  | tooDeep => exact offers
  | expands => exact offers
  | keysHarvested =>
    unfold Engine.keysHarvested
    split <;> exact offers
  | harvested =>
    intro e member a injected
    rcases List.mem_append.mp member with old | new
    · exact offers e old a injected
    · cases List.mem_singleton.mp new
      exact mem_dedup.mpr ⟨List.mem_append_right _ injected, List.not_mem_nil⟩
  | start =>
    obtain ⟨s', state, same, done⟩ := taskStep_start _ _ _ _ _
    rw [same]
    intro e member
    exact offers e (done.expansions ▸ member)
  | dialed =>
    obtain ⟨s', state, same, done⟩ := taskStep_dialed _ _ _ _ _ _ _
    rw [same]
    intro e member
    exact offers e (done.expansions ▸ member)
  | joined => exact offers

/-- **A scan that expanded an item and was not cut short has dialed all that was injected.** -/
theorem injected_dialed {store : Store} {keys : Nat} {seeds : List FrontierItem} {events : List DiscoveryEvent}
    (run : Run (system p) (init store keys seeds) events s) (returned : s.phase = .finished)
    (whole : s.truncated = false) (expanded : s.expansions ≠ []) {a : String} (injected : a ∈ p.injected) :
    ∃ d ∈ s.dials, d.addr = a := by
  have traced : s.Traced := run.preserves (fun _ _ _ before stepped => before.step stepped) (traced_init _ _ _)
  have offers : s.Offers p := run.preserves (fun _ _ _ before stepped => before.step stepped) (by simp [Offers, init])
  obtain ⟨e, member⟩ := List.exists_mem_of_ne_nil _ expanded
  have visited : a ∈ s.visitedIps := (traced.visited a).mpr ⟨e, member, offers e member a injected⟩
  have dialed := traced.accounted whole
  rw [returned] at dialed
  have addr : a ∈ s.dials.map DialRecord.addr := by simpa [Phase.pending] using dialed.mem_iff.mpr visited
  exact List.mem_map.mp addr

/-- The tasks of an expansion, some of them done without a connection. -/
def halfDone (done waiting : List String) : List Probe :=
  done.map (Probe.mk · (.finished none)) ++ waiting.map (Probe.mk · .waiting)

theorem results_halfDone (done : List String) : results (halfDone done []) = some [] := by
  induction done with
  | nil => rfl
  | cons addr done ih =>
    rw [halfDone, List.map_nil, List.append_nil] at ih ⊢
    rw [List.map_cons, results, ih]
    rfl

theorem step_start_failing {item : FrontierItem} {done waiting : List String} {addr : String}
    (keyless : s.keys = 0) (room : ¬ p.maxNodes ≤ s.discovered.length)
    (phase : s.phase = .expanding item (halfDone done (addr :: waiting))) :
    ∃ s', s.step p (.start done.length false) = some s' ∧ s'.phase = .expanding item (halfDone (done ++ [addr]) waiting) ∧
      s'.keys = 0 ∧ s'.discovered = s.discovered ∧ s'.frontier = s.frontier ∧ s'.truncated = s.truncated ∧
      s'.expansions = s.expansions := by
  have task : (halfDone done (addr :: waiting))[done.length]? = some ⟨addr, .waiting⟩ := by simp [halfDone]
  have idle : running (halfDone done (addr :: waiting)) = 0 := by simp [running, halfDone]
  have free : (running (halfDone done (addr :: waiting)) : Int) < max 1 p.concurrency := by
    rw [idle]
    omega
  have next : (halfDone done (addr :: waiting)).set done.length ⟨addr, .finished none⟩ = halfDone (done ++ [addr]) waiting := by
    simp [halfDone]
  refine ⟨s.start p item (halfDone done (addr :: waiting)) done.length addr false, ?_, ?_⟩
  · simp only [step, phase]
    rw [task]
    simp only [free, if_true]
  · simp only [start, Bool.false_eq_true, if_false, room, keyless, if_true, settle, next, and_self]

/-- Without keys every task ends with a dial that fails. -/
theorem run_failing {item : FrontierItem} (waiting done : List String) (keyless : s.keys = 0)
    (room : ¬ p.maxNodes ≤ s.discovered.length) (phase : s.phase = .expanding item (halfDone done waiting)) :
    ∃ events s', Run (system p) s events s' ∧ s'.phase = .expanding item (halfDone (done ++ waiting) []) ∧
      s'.frontier = s.frontier ∧ s'.truncated = s.truncated ∧ s'.expansions = s.expansions := by
  induction waiting generalizing done s with
  | nil => exact ⟨[], s, .refl s, by rw [List.append_nil]; exact phase, rfl, rfl, rfl⟩
  | cons addr waiting ih =>
    obtain ⟨s₁, stepped, phase₁, keyless₁, found, frontier₁, truncated₁, expansions₁⟩ :=
      step_start_failing keyless room phase
    obtain ⟨events, s₂, rest, phase₂, frontier₂, truncated₂, expansions₂⟩ :=
      ih (done ++ [addr]) keyless₁ (found ▸ room) phase₁
    refine ⟨_, s₂, .step stepped rest, ?_, frontier₂.trans frontier₁, truncated₂.trans truncated₁,
      expansions₂.trans expansions₁⟩
    rw [phase₂, List.append_assoc, List.singleton_append]

/-- The frontier item of the local seed. -/
def localItem : FrontierItem := ⟨localSeed, none, 0, true⟩

/-- A scan from the local seed before its first expansion. -/
def atLocal (store : Store) (phase : Phase) : Engine := { init store 0 [] with phase }

theorem step_turn_local (depth : 0 < p.maxDepth) (nodes : 0 < p.maxNodes) (store : Store) :
    (init store 0 [localItem]).step p (.turn false) = some (atLocal store (.harvestingKeys localItem)) := by
  have above : ¬ p.maxNodes ≤ ((0 : Nat) : Int) := by omega
  have shallow : ¬ p.maxDepth ≤ ((0 : Nat) : Int) := by omega
  simp only [step, init, Engine.turn, List.length_nil, Bool.false_eq_true, if_false, above, localItem, shallow]
  rfl

theorem step_keysHarvested_local (store : Store) :
    (atLocal store (.harvestingKeys localItem)).step p (.keysHarvested 0 []) =
      some (atLocal store (.harvesting localItem)) := by
  simp [step, atLocal, Engine.keysHarvested, localItem]

/-- A scan of the local seed without keys comes to its end and is not cut short. -/
theorem run_keyless (depth : 0 < p.maxDepth) (nodes : 0 < p.maxNodes) (store : Store) :
    ∃ events s, Run (system p) (init store 0 [localItem]) events s ∧ s.phase = .finished ∧
      s.truncated = false ∧ s.expansions = [(localItem, dedup [] p.injected)] := by
  have harvested : (atLocal store (.harvesting localItem)).step p (.harvested []) =
      some ((atLocal store (.harvesting localItem)).harvested p localItem []) := rfl
  obtain ⟨events, s, run, phase, frontier, truncated, expansions⟩ :=
    @run_failing p ((atLocal store (.harvesting localItem)).harvested p localItem []) localItem
      (reserve [] (dedup [] p.injected)).2 [] rfl (by simp [Engine.harvested, atLocal, init]; omega)
      (by simp [Engine.harvested, halfDone, atLocal, init])
  have empty : s.frontier = [] := frontier
  have joined : s.step p .joined = some { s with phase := .looping } := by
    simp only [step, phase, results_halfDone, Option.map_some, List.append_nil]
  have last : ({ s with phase := .looping } : Engine).step p (.turn false) =
      some ({ s with phase := .looping } : Engine).finish := by
    simp only [step, Engine.turn, empty]
  exact ⟨_, _, .step (step_turn_local depth nodes store) (.step (step_keysHarvested_local store) (.step harvested
    (run.append (.step joined (.step last (.refl _)))))), rfl, truncated, expansions⟩

/-- The dials of a scan go to candidates of its expansions. -/
theorem dialed_revealed {store : Store} {keys : Nat} {seeds : List FrontierItem} {events : List DiscoveryEvent}
    (run : Run (system p) (init store keys seeds) events s) {d : DialRecord} (member : d ∈ s.dials) :
    ∃ e ∈ s.expansions, d.addr ∈ e.2 := by
  have traced : s.Traced := run.preserves (fun _ _ _ before stepped => before.step stepped) (traced_init _ _ _)
  obtain ⟨e, found, -⟩ := Option.map_eq_some_iff.mp (traced.origins d member)
  exact ⟨e, List.mem_of_find?_eq_some found, by simpa using List.find?_some found⟩

end Engine

/-! ## Silent caps -/

/-- A scan from these injected items that expanded an item and was not cut short has
dialed every address that the items denote. -/
def NoSilentCaps (items : List String) : Prop :=
  ∀ (p : DiscoveryParams) (store : Store) (connects : Nat → String → Option Nat) (names : Option (List String))
    (keys : Nat) (events : List DiscoveryEvent) (s : Engine),
    p.injected = (parseInjected items).1 → p.injectedUsers = (parseInjected items).2 →
    Run (Engine.system p) (Engine.init store keys (buildSeedFrontier store.registry connects names)) events s →
    s.phase = .finished → s.truncated = false → s.expansions ≠ [] →
    ∀ a, Denotes items a → ∃ d ∈ s.dials, d.addr = a

/-- The scan of before with these items injected. -/
def injecting (items : List String) : DiscoveryParams :=
  { Engine.sampleParams with injected := (parseInjected items).1, injectedUsers := (parseInjected items).2 }

/-- An address that the expansion drops is not dialed, and the scan does not say so. -/
theorem not_noSilentCaps {items : List String} {a : String} (denoted : Denotes items a)
    (dropped : a ∉ (parseInjected items).1) : ¬ NoSilentCaps items := by
  intro closed
  obtain ⟨events, s, run, returned, whole, expansions⟩ :=
    @Engine.run_keyless (injecting items) (show (0 : Int) < 3 by decide) (show (0 : Int) < 10 by decide) Store.blank
  obtain ⟨d, member, rfl⟩ := closed (injecting items) Store.blank (fun _ _ => none) (some [localSeed]) 0 events s rfl rfl
    run returned whole (by simp [expansions]) a denoted
  obtain ⟨e, expanded, revealed⟩ := Engine.dialed_revealed run member
  rw [expansions, List.mem_singleton] at expanded
  rw [expanded] at revealed
  exact dropped (mem_dedup.mp revealed).1

/-- **Scans are never silently cut short exactly when no address is lost to the cap of
the expansion.** -/
theorem noSilentCaps_iff (items : List String) : NoSilentCaps items ↔ WithinCap items := by
  rw [withinCap_iff]
  constructor
  · intro closed a denoted
    by_contra dropped
    exact not_noSilentCaps denoted dropped closed
  · intro all p store connects names keys events s injected _ run returned whole expanded a denoted
    exact Engine.injected_dialed run returned whole expanded (injected ▸ all a denoted)

/-- A host of a block behind the first 1024. -/
theorem host_dropped {raw : String} {net : Network} (v4 : net.version = .v4)
    (block : itemAddrs (targetOf raw) = net.hosts.map String.ofList) {i : Nat} (inside : i < net.hostRange.2)
    (beyond : cidrExpandCap ≤ i) :
    Denotes [raw] (String.ofList (textOf .v4 (net.hostRange.1 + i))) ∧
      String.ofList (textOf .v4 (net.hostRange.1 + i)) ∉ (parseInjected [raw]).1 := by
  have distinct : (net.hosts.map String.ofList).Nodup :=
    (Network.nodup_hosts v4).map fun _ _ same => String.ofList_injective same
  have place : (net.hosts.map String.ofList)[i]? = some (String.ofList (textOf .v4 (net.hostRange.1 + i))) := by
    simp [Network.hosts, v4, inside]
  constructor
  · exact ⟨raw, List.mem_singleton_self raw, block ▸ List.mem_of_getElem? place⟩
  · rw [mem_parseInjected]
    rintro ⟨other, listed, kept⟩
    rw [List.mem_singleton.mp listed, keptAddrs, block, dedup_of_nodup distinct (fun _ _ => List.not_mem_nil)] at kept
    obtain ⟨j, earlier⟩ := List.mem_iff_getElem?.mp kept
    rw [List.getElem?_take] at earlier
    split at earlier
    · rename_i before
      have here := (List.getElem?_eq_some_iff.mp place).1
      have same : i = j := (List.getElem?_inj here distinct).mp (place.trans earlier.symm)
      omega
    · cases earlier

/-- The hosts of `10.0.0.0/8` behind the first 1024 are not probed. -/
theorem large_block_capped : ¬ ∀ items, NoSilentCaps items := by
  intro closed
  have read : (parseNetwork (strip (targetOf "10.0.0.0/8").toList)).map (fun net => (net.version, net.hostRange)) =
      some (.v4, 10 * 2 ^ 24 + 1, 2 ^ 24 - 2) := by decide +kernel
  obtain ⟨net, found, values⟩ := Option.map_eq_some_iff.mp read
  obtain ⟨v4, range⟩ := Prod.mk.inj values
  have block : itemAddrs (targetOf "10.0.0.0/8") = net.hosts.map String.ofList := by
    simp only [itemAddrs]
    rw [if_neg (by decide), if_pos (by decide), found]
  obtain ⟨denoted, dropped⟩ := @host_dropped "10.0.0.0/8" net v4 block 1024 (by rw [range]; decide) (by decide)
  exact not_noSilentCaps denoted dropped (closed _)

end McpSsh
