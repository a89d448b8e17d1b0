import McpSsh.DiscoveryRuns
import Mathlib.Data.List.Perm.Basic

/-!
# What a complete scan has dialed

An address that several hosts reveal is dialed from the first of them only. A scan
that was not cut short has dialed every revealed address once, from that host, and
has listed a host for every key that a dial presented.
-/

set_option autoImplicit false

namespace McpSsh

open Base

/-! ## Candidates -/

/-- The item whose expansion revealed the address first. -/
def firstRevealing (expansions : List (FrontierItem × List String)) (addr : String) : Option FrontierItem :=
  (expansions.find? fun e => addr ∈ e.2).map Prod.fst

theorem firstRevealing_append_of_some {expansions more : List (FrontierItem × List String)} {addr : String}
    {item : FrontierItem} (first : firstRevealing expansions addr = some item) :
    firstRevealing (expansions ++ more) addr = some item := by
  obtain ⟨e, found, rfl⟩ := Option.map_eq_some_iff.mp first
  rw [firstRevealing, List.find?_append, found]
  rfl

theorem firstRevealing_concat {expansions : List (FrontierItem × List String)} {addr : String} {item : FrontierItem}
    {candidates : List String} (before : ∀ e ∈ expansions, addr ∉ e.2) (now : addr ∈ candidates) :
    firstRevealing (expansions ++ [(item, candidates)]) addr = some item := by
  have absent : expansions.find? (fun e => addr ∈ e.2) = none := by
    rw [List.find?_eq_none]
    exact fun e member => by simpa using before e member
  simp [firstRevealing, List.find?_append, absent, now]

/-- The reserved candidates are those not visited before, each once. -/
theorem reserve_spec (visited candidates : List String) :
    (reserve visited candidates).1 = visited ++ (reserve visited candidates).2 ∧
    (reserve visited candidates).2.Nodup ∧
    (∀ c ∈ (reserve visited candidates).2, c ∈ candidates ∧ c ∉ visited) ∧
    ∀ c ∈ candidates, c ∈ (reserve visited candidates).1 := by
  induction candidates generalizing visited with
  | nil => simp [reserve]
  | cons cand rest ih =>
    unfold reserve
    split
    · rename_i seen
      obtain ⟨all, distinct, fresh, covered⟩ := ih visited
      refine ⟨all, distinct, fun c member => ?_, fun c member => ?_⟩
      · exact ⟨List.mem_cons_of_mem _ (fresh c member).1, (fresh c member).2⟩
      · rcases List.mem_cons.mp member with rfl | later
        · rw [all]
          exact List.mem_append_left _ seen
        · exact covered c later
    · rename_i unseen
      obtain ⟨all, distinct, fresh, covered⟩ := ih (visited ++ [cand])
      refine ⟨?_, ?_, fun c member => ?_, fun c member => ?_⟩
      · simp only [all, List.append_assoc, List.singleton_append]
      · refine List.nodup_cons.mpr ⟨fun again => ?_, distinct⟩
        exact (fresh cand again).2 (by simp)
      · rcases List.mem_cons.mp member with rfl | later
        · exact ⟨List.mem_cons_self, unseen⟩
        · obtain ⟨revealed, new⟩ := fresh c later
          exact ⟨List.mem_cons_of_mem _ revealed, fun old => new (List.mem_append_left _ old)⟩
      · rcases List.mem_cons.mp member with rfl | later
        · simp [all]
        · exact covered c later

/-! ## Tasks -/

/-- The address of a task that has not finished. -/
def Probe.pending : Probe → List String
  | ⟨_, .finished _⟩ => []
  | ⟨addr, _⟩ => [addr]

/-- The addresses that are reserved and not dialed yet. -/
def Phase.pending : Phase → List String
  | .expanding _ probes => probes.flatMap Probe.pending
  | _ => []

theorem perm_flatMap_set {α β : Type} (view : α → List β) {items : List α} {i : Nat} {old : α}
    (placed : items[i]? = some old) (new : α) :
    (items.flatMap view ++ view new).Perm (view old ++ (items.set i new).flatMap view) := by
  induction items generalizing i with
  | nil => simp at placed
  | cons item items ih =>
    cases i with
    | zero =>
      cases placed
      simp only [List.set_cons_zero, List.flatMap_cons, List.append_assoc]
      exact List.Perm.append_left _ List.perm_append_comm
    | succ i =>
      simp only [List.set_cons_succ, List.flatMap_cons, List.append_assoc]
      exact ((ih placed).append_left _).trans (List.perm_append_comm_assoc _ _ _)

theorem pending_eq_nil_of_results {probes : List Probe} {items : List FrontierItem}
    (done : Engine.results probes = some items) : probes.flatMap Probe.pending = [] := by
  induction probes generalizing items with
  | nil => rfl
  | cons probe rest ih =>
    obtain ⟨addr, state⟩ := probe
    cases state with
    | waiting => cases done
    | dialing user => cases done
    | finished found =>
      obtain ⟨later, rest_, -⟩ := Option.map_eq_some_iff.mp done
      exact ih rest_

/-- What a step of a task may change: it may record a dial of its address and keeps
the address pending otherwise, unless the scan is cut short. -/
structure TaskStep (item : FrontierItem) (addr : String) (s s' : Engine) (state : ProbeState) : Prop where
  visited : s'.visitedIps = s.visitedIps
  expansions : s'.expansions = s.expansions
  whole : s'.truncated = false → s.truncated = false
  dials : ∃ ds : List DialRecord, s'.dials = s.dials ++ ds ∧ (∀ d ∈ ds, d.via = item ∧ d.addr = addr) ∧
    (s'.truncated = false → ds.map DialRecord.addr ++ Probe.pending ⟨addr, state⟩ = [addr])

/-- Every reserved address was revealed, and dialed from the item that revealed it
first or is still pending there. -/
structure Engine.Traced (s : Engine) : Prop where
  visited : ∀ c, c ∈ s.visitedIps ↔ ∃ e ∈ s.expansions, c ∈ e.2
  distinct : s.visitedIps.Nodup
  accounted : s.truncated = false → (s.dials.map DialRecord.addr ++ s.phase.pending).Perm s.visitedIps
  origins : ∀ d ∈ s.dials, firstRevealing s.expansions d.addr = some d.via
  waiting : ∀ item probes, s.phase = .expanding item probes →
    ∀ addr ∈ s.phase.pending, firstRevealing s.expansions addr = some item

/-- Every presented key belongs to a host of the list. -/
def Engine.Listed (s : Engine) : Prop :=
  s.truncated = false → s.failures = 0 → ∀ fp ∈ s.visitedFps, ∃ h ∈ s.discovered, h.fingerprint = fp

namespace Engine

variable {p : DiscoveryParams} {s : Engine}

theorem taskStep_start (item : FrontierItem) (probes : List Probe) (i : Nat) (addr : String) (expired : Bool) :
    ∃ s' state, s.start p item probes i addr expired = s'.settle item probes i addr state ∧
      TaskStep item addr s s' state := by
  unfold start
  split
  · exact ⟨_, _, rfl, rfl, rfl, by simp, [], by simp⟩
  split
  · exact ⟨_, _, rfl, rfl, rfl, by simp, [], by simp⟩
  simp only
  split
  · exact ⟨_, _, rfl, rfl, rfl, id, [⟨item, addr, .failed⟩], by simp [Probe.pending]⟩
  · exact ⟨_, _, rfl, rfl, rfl, id, [], by simp [Probe.pending]⟩

theorem taskStep_dialed (item : FrontierItem) (probes : List Probe) (i : Nat) (addr user : String) (result : DialResult)
    (registers : Bool) :
    ∃ s' state, s.dialed p item probes i addr user result registers = s'.settle item probes i addr state ∧
      TaskStep item addr s s' state := by
  cases result with
  | failed => exact ⟨_, _, rfl, rfl, rfl, id, [⟨item, addr, .failed⟩], by simp [Probe.pending]⟩
  | up key =>
    cases key with
    | none => exact ⟨_, _, rfl, rfl, rfl, id, [⟨item, addr, .up none⟩], by simp [Probe.pending]⟩
    | some fingerprint =>
      have dial : ∀ truncated : Bool, ∃ ds : List DialRecord,
          s.dials ++ [⟨item, addr, .up (some fingerprint)⟩] = s.dials ++ ds ∧ (∀ d ∈ ds, d.via = item ∧ d.addr = addr) ∧
          (truncated = false → ds.map DialRecord.addr ++ [] = [addr]) :=
        fun truncated => ⟨[⟨item, addr, .up (some fingerprint)⟩], by simp⟩
      simp only [dialed, presented]
      split
      · exact ⟨_, _, rfl, rfl, rfl, id, dial _⟩
      split
      · exact ⟨_, _, rfl, rfl, rfl, by simp, dial _⟩
      split
      · exact ⟨_, _, rfl, rfl, rfl, id, dial _⟩
      · exact ⟨_, _, rfl, rfl, rfl, id, dial _⟩

/-! ## Every address is dialed from the first host that reveals it -/

theorem Traced.settle {s' : Engine} {item : FrontierItem} {probes : List Probe} {i : Nat} {addr : String}
    {before state : ProbeState} (traced : s.Traced) (phase : s.phase = .expanding item probes)
    (task : probes[i]? = some ⟨addr, before⟩) (unfinished : Probe.pending ⟨addr, before⟩ = [addr])
    (done : TaskStep item addr s s' state) : (s'.settle item probes i addr state).Traced := by
  obtain ⟨visited, expansions, whole, ds, dials, own, one⟩ := done
  have moved := perm_flatMap_set Probe.pending task ⟨addr, state⟩
  rw [unfinished] at moved
  have first : firstRevealing s.expansions addr = some item := by
    apply traced.waiting item probes phase
    rw [phase]
    exact List.mem_flatMap.mpr ⟨_, List.mem_of_getElem? task, by simp [unfinished]⟩
  refine ⟨?_, ?_, fun intact => ?_, fun d member => ?_, fun item' probes' same addr' member => ?_⟩
  · simpa only [Engine.settle, visited, expansions] using traced.visited
  · simpa only [Engine.settle, visited] using traced.distinct
  · have perm := traced.accounted (whole intact)
    rw [phase] at perm
    simp only [Engine.settle, dials, visited, List.map_append]
    have single := one intact
    rw [List.perm_iff_count] at perm moved ⊢
    intro c
    have countAll := perm c
    have countMoved := moved c
    have countOne := congrArg (List.count c) single
    simp only [Phase.pending, List.count_append] at countAll countMoved countOne ⊢
    omega
  · simp only [Engine.settle, expansions, dials] at member ⊢
    rcases List.mem_append.mp member with old | new
    · exact traced.origins d old
    · rw [(own d new).1, (own d new).2, first]
  · cases same
    rw [Engine.settle, expansions]
    have there : addr' ∈ probes.flatMap Probe.pending ++ Probe.pending ⟨addr, state⟩ :=
      moved.mem_iff.mpr (List.mem_append_right _ member)
    rcases List.mem_append.mp there with old | new
    · apply traced.waiting item probes phase
      rw [phase]
      exact old
    · have here : addr' = addr := by cases state <;> simp_all [Probe.pending]
      rw [here, first]

/-- Steps that leave the record of dials and expansions as it is. -/
theorem Traced.quiet {s' : Engine} (traced : s.Traced) (visited : s'.visitedIps = s.visitedIps)
    (expansions : s'.expansions = s.expansions) (dials : s'.dials = s.dials)
    (whole : s'.truncated = false → s.truncated = false) (before : s.phase.pending = []) (after : s'.phase.pending = []) :
    s'.Traced := by
  refine ⟨?_, visited ▸ traced.distinct, fun intact => ?_, ?_, fun _ _ _ addr member => ?_⟩
  · simpa only [visited, expansions] using traced.visited
  · rw [dials, visited, after, ← before]
    exact traced.accounted (whole intact)
  · simpa only [dials, expansions] using traced.origins
  · rw [after] at member
    cases member

theorem Traced.harvested {item : FrontierItem} (traced : s.Traced) (phase : s.phase = .harvesting item)
    (crumbs : List String) : (s.harvested p item crumbs).Traced := by
  obtain ⟨all, distinct, fresh, covered⟩ := reserve_spec s.visitedIps (dedup [] (crumbs ++ p.injected))
  have known : ∀ d ∈ s.dials, firstRevealing s.expansions d.addr = some d.via := traced.origins
  have pending : ∀ addrs : List String, (addrs.map fun addr => Probe.mk addr .waiting).flatMap Probe.pending = addrs := by
    intro addrs
    induction addrs with
    | nil => rfl
    | cons addr addrs ih => rw [List.map_cons, List.flatMap_cons, ih]; rfl
  refine ⟨fun c => ?_, ?_, fun whole => ?_, fun d member => ?_, fun item' probes' same addr member => ?_⟩
  · simp only [Engine.harvested, List.mem_append, List.mem_singleton]
    constructor
    · intro member
      rw [all] at member
      rcases List.mem_append.mp member with old | new
      · obtain ⟨e, inside, revealed⟩ := (traced.visited c).mp old
        exact ⟨e, .inl inside, revealed⟩
      · exact ⟨_, .inr rfl, (fresh c new).1⟩
    · rintro ⟨e, inside | rfl, revealed⟩
      · rw [all]
        exact List.mem_append_left _ ((traced.visited c).mpr ⟨e, inside, revealed⟩)
      · exact covered c revealed
  · simp only [Engine.harvested, all]
    refine List.nodup_append.mpr ⟨traced.distinct, distinct, ?_⟩
    rintro c old _ new rfl
    exact (fresh c new).2 old
  · have perm := traced.accounted whole
    rw [phase] at perm
    simp only [Engine.harvested, Phase.pending, pending, all]
    exact List.Perm.append_right _ (by simpa [Phase.pending] using perm)
  · exact firstRevealing_append_of_some (known d member)
  · cases same
    simp only [Engine.harvested, Phase.pending, pending] at member ⊢
    obtain ⟨revealed, new⟩ := fresh addr member
    refine firstRevealing_concat (fun e inside there => ?_) revealed
    exact new ((traced.visited addr).mpr ⟨e, inside, there⟩)

theorem Traced.step {s' : Engine} {event : DiscoveryEvent} (traced : s.Traced) (stepped : s.step p event = some s') :
    s'.Traced := by
  cases steps_of_step stepped with
  | exhausted looping => exact traced.quiet rfl rfl rfl id (by rw [looping]; rfl) rfl
  | stopped looping => exact traced.quiet rfl rfl rfl (by simp [finish]) (by rw [looping]; rfl) rfl
  | tooDeep looping =>
    have none_ : s.phase.pending = [] := by rw [looping]; rfl
    exact traced.quiet rfl rfl rfl (by simp) none_ none_
  | expands looping => exact traced.quiet rfl rfl rfl id (by rw [looping]; rfl) rfl
  | keysHarvested phase =>
    have none_ : s.phase.pending = [] := by rw [phase]; rfl
    unfold Engine.keysHarvested
    split <;> exact traced.quiet rfl rfl rfl id none_ rfl
  | harvested phase => exact traced.harvested phase _
  | start phase task =>
    obtain ⟨s', state, same, done⟩ := taskStep_start _ _ _ _ _
    rw [same]
    exact traced.settle phase task rfl done
  | dialed phase task =>
    obtain ⟨s', state, same, done⟩ := taskStep_dialed _ _ _ _ _ _ _
    rw [same]
    exact traced.settle phase task rfl done
  | joined phase done =>
    have none_ : s.phase.pending = [] := by rw [phase]; exact pending_eq_nil_of_results done
    exact traced.quiet rfl rfl rfl id none_ rfl

/-! ## Every presented key is listed -/

theorem Listed.start (listed : s.Listed) (item : FrontierItem) (probes : List Probe) (i : Nat) (addr : String)
    (expired : Bool) : (s.start p item probes i addr expired).Listed := by
  unfold Engine.start
  split
  · intro whole
    simp [Engine.settle] at whole
  split
  · intro whole
    simp [Engine.settle] at whole
  simp only
  split <;> exact listed

theorem Listed.dialed (listed : s.Listed) (item : FrontierItem) (probes : List Probe) (i : Nat) (addr user : String)
    (result : DialResult) (registers : Bool) : (s.dialed p item probes i addr user result registers).Listed := by
  cases result with
  | failed => exact listed
  | up key =>
    cases key with
    | none => exact listed
    | some fingerprint =>
      simp only [Engine.dialed, presented]
      split
      · intro whole intact fp member
        obtain ⟨g, inside, same⟩ := listed whole intact fp member
        have key : fp ∈ (recordAddr fingerprint addr s.discovered).map DiscoveredHost.fingerprint := by
          rw [map_eq_of_alike (map_bare_recordAddr _ _ _) DiscoveredHost.fingerprint fun _ => rfl]
          exact List.mem_map.mpr ⟨g, inside, same⟩
        exact List.mem_map.mp key
      split
      · intro whole
        simp [Engine.settle] at whole
      split
      · intro _ intact
        simp [Engine.settle] at intact
      · intro whole intact fp member
        rcases List.mem_append.mp member with old | new
        · obtain ⟨g, inside, same⟩ := listed whole intact fp old
          exact ⟨g, List.mem_append_left _ inside, same⟩
        · cases List.mem_singleton.mp new
          exact ⟨_, List.mem_append_right _ (List.mem_singleton_self _), rfl⟩

theorem Listed.step {s' : Engine} {event : DiscoveryEvent} (listed : s.Listed) (stepped : s.step p event = some s') :
    s'.Listed := by
  cases steps_of_step stepped with
  | exhausted => exact listed
  | stopped => exact fun whole => by simp [finish] at whole
  | tooDeep => exact fun whole => by simp at whole
  | expands => exact listed
  | keysHarvested =>
    unfold Engine.keysHarvested
    split <;> exact listed
  | harvested => exact listed
  | start => exact listed.start _ _ _ _ _
  | dialed => exact listed.dialed _ _ _ _ _ _ _
  | joined => exact listed

/-! ## Complete scans -/

/-- The network is fixed: what a dial yields depends on where it starts and on the
address alone. -/
def Follows (network : FrontierItem → String → DialResult) (s : Engine) : Prop :=
  ∀ d ∈ s.dials, d.result = network d.via d.addr

/-- The scan returned, was not cut short and registered all it wanted to. -/
structure Complete (s : Engine) : Prop where
  returned : s.phase = .finished
  whole : s.truncated = false
  registered : s.failures = 0

theorem traced_init (store : Store) (keys : Nat) (seeds : List FrontierItem) : (init store keys seeds).Traced := by
  refine ⟨?_, ?_, ?_, ?_, ?_⟩ <;> simp [init, Phase.pending]

theorem traced_of_run {p : DiscoveryParams} {s : Engine} {store : Store} {keys : Nat} {seeds : List FrontierItem}
    {events : List DiscoveryEvent} (run : Run (system p) (init store keys seeds) events s) : s.Traced :=
  run.preserves (fun _ _ _ before stepped => before.step stepped) (traced_init _ _ _)

theorem listed_init (store : Store) (keys : Nat) (seeds : List FrontierItem) : (init store keys seeds).Listed := by
  simp [Listed, init]

/-- **A complete scan of a fixed network has dialed every revealed address once, from
the first expanded host that revealed it**, and lists a host for the key that this dial
presented. -/
theorem scan_complete {p : DiscoveryParams} {store : Store} {connects : Nat → String → Option Nat}
    {names : Option (List String)} {keys : Nat} {events : List DiscoveryEvent} {s : Engine}
    {network : FrontierItem → String → DialResult}
    (run : Run (system p) (init store keys (buildSeedFrontier store.registry connects names)) events s)
    (complete : s.Complete) (fixed : s.Follows network) :
    ∀ e ∈ s.expansions, ∀ c ∈ e.2, ∃ first, firstRevealing s.expansions c = some first ∧
      (s.dials.filter fun d => d.addr = c) = [⟨first, c, network first c⟩] ∧
      ∀ f, network first c = .up (some f) → ∃ h ∈ s.discovered, h.fingerprint = f := by
  intro e expanded c revealed
  have traced : s.Traced := run.preserves (fun _ _ _ before stepped => before.step stepped) (traced_init _ _ _)
  have listed : s.Listed := run.preserves (fun _ _ _ before stepped => before.step stepped) (listed_init _ _ _)
  have mapped := (scan_mapped run).1
  -- nothing is pending at the end, so the dials are the visited addresses
  have dialed : (s.dials.map DialRecord.addr).Perm s.visitedIps := by
    have perm := traced.accounted complete.whole
    rw [complete.returned] at perm
    simpa [Phase.pending] using perm
  have once : (s.dials.map DialRecord.addr).count c = 1 := by
    rw [dialed.count_eq]
    exact List.count_eq_one_of_mem traced.distinct ((traced.visited c).mpr ⟨e, expanded, revealed⟩)
  have length : (s.dials.filter fun d => d.addr = c).length = 1 := by
    rw [← once, List.count, List.countP_map, List.countP_eq_length_filter]
    congr 1
  obtain ⟨d, only⟩ := List.length_eq_one_iff.mp length
  have member : d ∈ s.dials.filter fun d => d.addr = c := by rw [only]; exact List.mem_singleton_self d
  obtain ⟨inside, addr⟩ := List.mem_filter.mp member
  have addr : d.addr = c := by simpa using addr
  obtain ⟨via, dialedAddr, result⟩ := d
  have ended : result = network via dialedAddr := fixed _ inside
  subst addr ended
  refine ⟨via, traced.origins _ inside, only, fun f presented => ?_⟩
  exact listed complete.whole complete.registered f (mapped.presented _ inside f presented)

/-! ## Two scans -/

/-- The local seed reaches one machine, and the others another one. -/
def sampleNetwork (via : FrontierItem) (_ : String) : DialResult :=
  .up (some (if via.isLocal then "SHA256:abc" else "SHA256:def"))

/-- The scan of before, to its end: the second host reveals nothing. -/
def wholeScan : List DiscoveryEvent :=
  sampleScan ++ [.turn false, .keysHarvested 0 [], .harvested [], .joined, .turn false]

theorem scan_complete_sample : ∃ s, Run (system sampleParams)
    (init .blank 1 (buildSeedFrontier Store.blank.registry (fun _ _ => none) none)) wholeScan s ∧
      ∃ first, firstRevealing s.expansions "10.1.0.9" = some first ∧
        (s.dials.filter fun d => d.addr = "10.1.0.9") = [⟨first, "10.1.0.9", sampleNetwork first "10.1.0.9"⟩] ∧
        ∀ f, sampleNetwork first "10.1.0.9" = .up (some f) → ∃ h ∈ s.discovered, h.fingerprint = f := by
  have run : ∃ s, Run (system sampleParams)
      (init .blank 1 (buildSeedFrontier Store.blank.registry (fun _ _ => none) none)) wholeScan s ∧
      s.Complete ∧ s.Follows sampleNetwork ∧
      s.expansions[1]? = some (⟨"disc-abc", some 0, 1, false⟩, ["10.1.0.9", "10.0.0.1"]) := by
    refine ⟨_, .step rfl (.step rfl (.step rfl (.step rfl (.step rfl (.step rfl (.step rfl (.step rfl (.step rfl
      (.step rfl (.step rfl (.step rfl (.step rfl (.step rfl (.step rfl (.step rfl (.step rfl (.step rfl (.step rfl
      (.refl _))))))))))))))))))), ⟨rfl, rfl, rfl⟩, ?_, rfl⟩
    unfold Follows
    decide +kernel
  obtain ⟨s, run, complete, fixed, revealed⟩ := run
  exact ⟨s, run, scan_complete run complete fixed _ (List.mem_of_getElem? revealed) "10.1.0.9" (by decide)⟩

/-- Two hosts reveal `10.1.0.9`, which only the second one reaches. -/
def partedNetwork (via : FrontierItem) (addr : String) : DialResult :=
  match via.name, addr with
  | "local", "10.0.0.1" => .up (some "SHA256:aaa")
  | "local", "10.0.0.2" => .up (some "SHA256:bbb")
  | "disc-bbb", "10.1.0.9" => .up (some "SHA256:ccc")
  | _, _ => .failed

def partedScan : List DiscoveryEvent :=
  [.turn false, .keysHarvested 0 [], .harvested ["10.0.0.1", "10.0.0.2"], .start 0 false, .start 1 false,
    .dialed 0 (.up (some "SHA256:aaa")) true, .dialed 1 (.up (some "SHA256:bbb")) true, .joined,
    .turn false, .keysHarvested 0 [], .harvested ["10.1.0.9"], .start 0 false, .dialed 0 .failed true, .joined,
    .turn false, .keysHarvested 0 [], .harvested ["10.1.0.9"], .joined, .turn false]

/-- The second host's address was dialed from the first host only. -/
theorem scan_misses_host : ¬ ∀ (p : DiscoveryParams) (store : Store) (connects : Nat → String → Option Nat)
    (names : Option (List String)) (keys : Nat) (events : List DiscoveryEvent) (s : Engine)
    (network : FrontierItem → String → DialResult),
    Run (system p) (init store keys (buildSeedFrontier store.registry connects names)) events s → s.Complete →
      s.Follows network → ∀ e ∈ s.expansions, ∀ c ∈ e.2, ∀ f, network e.1 c = .up (some f) →
        ∃ h ∈ s.discovered, h.fingerprint = f := by
  intro closed
  have run : ∃ s, Run (system sampleParams)
      (init .blank 1 (buildSeedFrontier Store.blank.registry (fun _ _ => none) none)) partedScan s ∧
      s.Complete ∧ s.Follows partedNetwork ∧
      s.expansions[2]? = some (⟨"disc-bbb", some 1, 1, false⟩, ["10.1.0.9"]) ∧
      s.discovered.map DiscoveredHost.fingerprint = ["SHA256:aaa", "SHA256:bbb"] := by
    refine ⟨_, .step rfl (.step rfl (.step rfl (.step rfl (.step rfl (.step rfl (.step rfl (.step rfl (.step rfl
      (.step rfl (.step rfl (.step rfl (.step rfl (.step rfl (.step rfl (.step rfl (.step rfl (.step rfl (.step rfl
      (.refl _))))))))))))))))))), ⟨rfl, rfl, rfl⟩, ?_, by decide +kernel, by decide +kernel⟩
    unfold Follows
    decide +kernel
  obtain ⟨s, run, complete, fixed, revealed, found⟩ := run
  obtain ⟨h, listed, key⟩ := closed _ _ _ _ _ _ s partedNetwork run complete fixed _
    (List.mem_of_getElem? revealed) "10.1.0.9" (by decide) "SHA256:ccc" (by decide)
  have member : "SHA256:ccc" ∈ s.discovered.map DiscoveredHost.fingerprint := List.mem_map.mpr ⟨h, listed, key⟩
  rw [found] at member
  exact absurd member (by decide)

end Engine

end McpSsh
