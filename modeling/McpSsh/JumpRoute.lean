import McpSsh.JumpTunnel
import McpSsh.PoolFresh
import McpSsh.ScanVerdicts

/-!
# The route of a tunnel

`setup_jump` with a target, `find_path` and the pool together: a connection that the pool
returns for the alias goes from the local node over the edges of a cheapest path to the
target, each of them dialed at the address that the scan found to answer.
-/

set_option autoImplicit false

namespace McpSsh

open Base

/-! ## The tunnels of a connection -/

/-- The connection that a connection was opened through. -/
def tunnelOf (conns : List Connection) (c : ConnId) : Option ConnId := conns[c]?.bind fun conn => conn.args.tunnel

/-- The connection was dialed as the registry says of this name. -/
def DialedAs (r : Registry) (conns : List Connection) (name : String) (c : ConnId) : Prop :=
  ∃ conn cfg, conns[c]? = some conn ∧ r.find? name = some cfg ∧ conn.Matches cfg

/-- The tunnels of a fresh connection are those of its chain of jump hosts, one by one. -/
theorem Fresh.visits {r : Registry} {conns : List Connection} {name : String} {c : ConnId} (fresh : Fresh r conns name c)
    {hops : List String} (linked : Visits (jumpOf r.find?) name hops) :
    ∃ ids, Visits (tunnelOf conns) c ids ∧ List.Forall₂ (DialedAs r conns) hops ids := by
  induction fresh generalizing hops with
  | @direct name c conn cfg resolves opened same noJump noTunnel =>
    have stops : jumpOf r.find? name = none := by rw [jumpOf, resolves, Option.bind_some, noJump]
    have ends : tunnelOf conns c = none := by rw [tunnelOf, opened, Option.bind_some, noTunnel]
    rw [linked.eq_last stops]
    exact ⟨[c], .last ends, .cons ⟨conn, cfg, opened, resolves, same⟩ .nil⟩
  | @tunnelled name jump c t conn cfg resolves opened same jumps through tunnel ih =>
    have edge : jumpOf r.find? name = some jump := by rw [jumpOf, resolves, Option.bind_some, jumps]
    have outer : tunnelOf conns c = some t := by rw [tunnelOf, opened, Option.bind_some, through]
    obtain ⟨rest, rfl, onward⟩ := linked.eq_cons edge
    obtain ⟨ids, visits, dialed⟩ := ih onward
    exact ⟨c :: ids, visits.cons outer, .cons ⟨conn, cfg, opened, resolves, same⟩ dialed⟩

/-- Along every harmless run, what `get_connection` returns is fresh. -/
theorem World.answersFresh_of_run {ctx : PoolContext} {rt : Runtime} {store : Store} {hosts : HostsFile}
    {events : List PoolEvent} {w : World} (run : Run (guard (system ctx rt) (Harmless rt)) (.start store hosts) events w) :
    w.AnswersFresh := by
  have keep : ∀ (w : World) (event : PoolEvent) (w' : World), w.Fine ∧ w.AnswersFresh →
      guard (system ctx rt) (Harmless rt) w event w' → w'.Fine ∧ w'.AnswersFresh :=
    fun _ _ _ before step => before.1.step step.2 step.1
  exact (run.preserves keep (fine_start store hosts)).2

/-! ## The hops of a found path -/

/-- The connection goes over the edge: it was dialed at the address at which the edge's
node answers, with port and user of that node's server. -/
def OverEdge (r : Registry) (conns : List Connection) (e : TopologyEdge) (c : ConnId) : Prop :=
  ∃ conn base, conns[c]? = some conn ∧ r.find? e.toNode = some base ∧ e.via = some conn.host ∧
    conn.args.port = base.port ∧ conn.args.username = base.user

/-- The connection and its tunnels, the outermost first, go over the edges one by one. -/
def GoesOver (r : Registry) (conns : List Connection) (c : ConnId) (walk : List TopologyEdge) : Prop :=
  ∃ ids, Visits (tunnelOf conns) c ids ∧ List.Forall₂ (OverEdge r conns) walk ids.reverse

/-- The edge's node and address come out of the syntax of chains as they are. -/
structure Carried (e : TopologyEdge) : Prop where
  node : Trimmed e.toNode
  noAt : '@' ∉ e.toNode.toList
  via : ∀ via, e.via = some via → Trimmed via ∧
    ∀ front port, rpartition ':' via.toList = some (front, port) → isDigits port = false

theorem Carried.survives {e : TopologyEdge} (carried : Carried e) {via : String} (winner : e.via = some via)
    (base : ServerConfig) : Survives base e.toNode via := by
  obtain ⟨trimmed, unported⟩ := carried.via via winner
  refine ⟨carried.noAt, trimmed, fun front port split digits => ?_⟩
  rw [unported front port split] at digits
  cases digits

section

variable {repr : String → String} {writes : Writes} {s t : Store} {name jump : String} {chain : List String}
  {persist persist' : Bool} {note : Option String} {summary : List HopSummary}

/-- The entry of each hop of a chain that was built. -/
theorem entry_of_created (built : buildChain repr writes s name chain persist note = (t, .created jump persist' summary))
    {i : Nat} {element : String} (here : chain[i]? = some element) : ∃ hop base written,
      parseHop element = some hop ∧ s.registry.find? hop.server = some base ∧
        t.registry.find? (hopName name i chain.length) = some (hopConfig base hop (hopName name i chain.length)
          (if i = 0 then none else some (hopName name (i - 1) chain.length)) written) := by
  obtain ⟨untaken, hops, planned, -, extended⟩ := built_of_created built
  obtain ⟨hop, base, written, parsed, found, entry⟩ := entry_of_planned planned extended here
  have below : i < chain.length := (List.getElem?_eq_some_iff.mp here).1
  have member : hopName name i chain.length ∈ hopNames name chain.length :=
    List.mem_map.mpr ⟨i, List.mem_range.mpr below, rfl⟩
  have free : s.registry.find? (hopName name i chain.length) = none := Registry.find?_eq_none_iff.mpr (untaken _ member)
  exact ⟨hop, base, written, parsed, found, extended.find?_new free entry⟩

/-- Following `jump_host` from the alias visits the hops, the last one first. -/
theorem visits_of_created (some_ : chain ≠ [])
    (built : buildChain repr writes s name chain persist note = (t, .created jump persist' summary)) {r : Registry}
    (same : ∀ n ∈ hopNames name chain.length, r.find? n = t.registry.find? n) :
    Visits (jumpOf r.find?) name (hopNames name chain.length).reverse := by
  have jumps : ∀ i < chain.length, jumpOf r.find? (hopName name i chain.length) =
      if i = 0 then none else some (hopName name (i - 1) chain.length) := by
    intro i below
    obtain ⟨hop, base, written, -, -, entry⟩ := entry_of_created built (List.getElem?_eq_getElem below)
    rw [jumpOf, same _ (List.mem_map.mpr ⟨i, List.mem_range.mpr below, rfl⟩), entry]
    rfl
  obtain ⟨k, length⟩ : ∃ k, chain.length = k + 1 := Nat.exists_eq_succ_of_ne_zero (by simpa using some_)
  rw [length] at jumps ⊢
  have alias_ : hopName name k (k + 1) = name := if_pos rfl
  have visited := @trail_sequence _ (jumpOf r.find?) (fun i => hopName name i (k + 1)) k (jumps 0 (Nat.succ_pos k))
    fun i below => jumps (i + 1) (Nat.succ_lt_succ below)
  rw [alias_] at visited
  exact ⟨k + 1, visited⟩

/-- The entry of a hop of a walk dials the edge. -/
theorem overEdge_of_dialedAs {walk : List TopologyEdge} (chained : chain = (walkHops walk).map chainElement)
    (built : buildChain repr writes s name chain persist note = (t, .created jump persist' summary)) {r : Registry}
    (same : ∀ n ∈ hopNames name chain.length, r.find? n = t.registry.find? n) {i : Nat} {e : TopologyEdge}
    (here : walk[i]? = some e) (usable : Usable e) (carried : Carried e) {conns : List Connection} {c : ConnId}
    (dialed : DialedAs r conns (hopName name i chain.length) c) : OverEdge s.registry conns e c := by
  obtain ⟨via, winner⟩ := Option.ne_none_iff_exists'.mp usable.2.1
  have element : chain[i]? = some (chainElement (e.toNode, via)) := by
    rw [chained, List.getElem?_map, walkHops, List.getElem?_map, here, Option.map_some, Option.map_some, winner]
    rfl
  obtain ⟨hop, base, written, parsed, found, entry⟩ := entry_of_created built element
  have below : i < chain.length := (List.getElem?_eq_some_iff.mp element).1
  obtain ⟨conn, cfg, opened, resolves, matches_⟩ := dialed
  rw [same _ (List.mem_map.mpr ⟨i, List.mem_range.mpr below, rfl⟩), entry] at resolves
  obtain rfl := Option.some.inj resolves
  obtain ⟨hop', read, server, host, port⟩ := parseHop_of_survives carried.node (carried.survives winner base)
  obtain rfl := Option.some.inj (read.symm.trans parsed)
  rw [server] at found
  exact ⟨conn, base, opened, found, by rw [matches_.host, winner, ← host]; rfl, matches_.port.trans port, matches_.user⟩

end

/-! ## From the target to the dials -/

/-- A verified answer comes from a cheapest walk whose chain was built. -/
theorem built_of_verified {repr : String → String} {around : JumpSurroundings} {writes : Writes} {s t : Store}
    {request : JumpRequest} {target jump aim : String} {persist : Bool} {hops : List HopSummary} {chain : List String}
    (asked : request.target = some target)
    (verified : setupJumpCall repr around writes s request = (t, .verified jump persist hops aim chain)) :
    buildChain repr writes s request.name chain request.persist request.note = (t, .created jump persist hops) ∧
      ∃ topology path, around.chosen request = .ok topology ∧ Optimal topology target path ∧
        chain = path.map chainElement := by
  rw [setupJumpCall, asked] at verified
  dsimp only [setupJumpAuto] at verified
  split at verified
  · cases verified
  rename_i found_chain found
  split at verified
  · rename_i built
    split at verified
    · cases verified
      refine ⟨built, ?_⟩
      unfold JumpSurroundings.findChain at found
      split at found
      · cases found
      split at found
      · cases found
      split at found
      · cases found
      rename_i topology chosen
      obtain ⟨answer, result, answers⟩ := findPath_answers topology target
      rw [result, Option.join_some] at found
      cases answer with
      | none => cases found
      | some path =>
        cases found
        exact ⟨topology, path, chosen, answers, rfl⟩
    · cases verified
  · cases verified

/-- **A connection through a found tunnel takes a cheapest route**: in every run of the
pool and the registry in which nothing that a connection relies on is rebound, as long as
the hops that `setup_jump` registered for the target are there, what `get_connection`
returns for the alias goes over the edges of a cheapest walk from the local node to the
target, each dialed at the address that the scan found, through the one before it. -/
theorem route_of_verified (repr : String → String) (around : JumpSurroundings) (writes : Writes) (s t : Store)
    (request : JumpRequest) (target jump aim : String) (persist : Bool) (hops : List HopSummary) (chain : List String)
    (asked : request.target = some target) (away : target ≠ localNode)
    (verified : setupJumpCall repr around writes s request = (t, .verified jump persist hops aim chain))
    (carried : ∀ topology, around.chosen request = .ok topology → ∀ e ∈ topology.edges, Usable e → Carried e)
    (ctx : PoolContext) (rt : Runtime) (store : Store) (hosts : HostsFile) (events : List PoolEvent) (w : World)
    (run : Run (guard (World.system ctx rt) (World.Harmless rt)) (.start store hosts) events w)
    (kept : ∀ n ∈ hopNames request.name chain.length, w.store.registry.find? n = t.registry.find? n)
    (c : ConnId) (returned : (request.name, .ok c) ∈ w.ended) :
    ∃ topology walk, around.chosen request = .ok topology ∧ IsWalk topology localNode walk target ∧
      (∀ other, IsWalk topology localNode other target → walkCost walk ≤ walkCost other) ∧
        GoesOver s.registry w.conns c walk := by
  obtain ⟨built, topology, path, chosen, ⟨walk, isWalk, rfl, cheapest⟩, chained⟩ := built_of_verified asked verified
  refine ⟨topology, walk, chosen, isWalk, cheapest, ?_⟩
  have length : chain.length = walk.length := by rw [chained, List.length_map, walkHops, List.length_map]
  have some_ : chain ≠ [] := by
    rintro rfl
    have none_ : walk = [] := List.length_eq_zero_iff.mp length.symm
    subst none_
    exact away isWalk.symm
  obtain ⟨ids, visits, dialed⟩ := (World.answersFresh_of_run run request.name c returned).visits (visits_of_created some_ built kept)
  refine ⟨ids, visits, List.forall₂_iff_get.mpr ?_⟩
  rw [← List.forall₂_reverse_iff, List.reverse_reverse] at dialed
  obtain ⟨equal, each⟩ := List.forall₂_iff_get.mp dialed
  have total : (hopNames request.name chain.length).length = walk.length := by
    rw [hopNames, List.length_map, List.length_range, length]
  refine ⟨total.symm.trans equal, fun i inWalk inIds => ?_⟩
  have dialedHere := each i (total ▸ inWalk) inIds
  have member := usable_of_walk isWalk _ (List.get_mem walk ⟨i, inWalk⟩)
  refine overEdge_of_dialedAs chained built kept (List.getElem?_eq_getElem inWalk) member.2
    (carried topology chosen _ member.1 member.2) ?_
  simpa [hopNames] using dialedHere

/-- Two servers in memory, of which a scan reached the second through the first. -/
def chainedStore : Store :=
  ⟨⟨{}, (Dict.empty.insert "web" (scannedServer "10.0.0.1")).insert "db" { scannedServer "10.1.0.1" with name := "db" }⟩,
    .text (appConfigToToml {})⟩

def chainedAround : JumpSurroundings :=
  { scannedAround "10.0.0.1" with
    topology := some ⟨[⟨localNode, "web", true, some "10.0.0.1", [], .ok⟩,
      ⟨"web", "db", true, some "10.1.0.1", [], .ok⟩]⟩ }

/-- What `setup_jump` leaves of it for a tunnel to the second server. -/
def labStore : Store :=
  (buildChain id ⟨fun _ => true, fun _ => true⟩ chainedStore "lab" ["web@10.0.0.1", "db@10.1.0.1"] false none).1

theorem verified_chained : ∃ hops, setupJumpCall id chainedAround ⟨fun _ => true, fun _ => true⟩ chainedStore
    { name := "lab", target := some "db" } =
      (labStore, .verified "lab" false hops "db" ["web@10.0.0.1", "db@10.1.0.1"]) := by
  have chain : chainedAround.findChain chainedStore.registry { name := "lab", target := some "db" } "db" =
      .ok ["web@10.0.0.1", "db@10.1.0.1"] := by decide +kernel
  simp only [setupJumpCall, setupJumpAuto, chain]
  exact ⟨_, rfl⟩

/-- Connect through it. -/
def connectLab : List PoolEvent := [.get "lab", .dialed 0 (.up none true false), .dialed 0 (.up none true false)]

/-- The connection of the tunnel goes over both edges. -/
theorem route_of_verified_lab : ∃ w, Run (guard (World.system World.sampleContext .inert) (World.Harmless .inert))
    (.start labStore .missing) connectLab w ∧ ∃ walk, GoesOver chainedStore.registry w.conns 1 walk := by
  have run : ∃ w, Run (guard (World.system World.sampleContext .inert) (World.Harmless .inert))
      (.start labStore .missing) connectLab w ∧ ("lab", .ok 1) ∈ w.ended ∧ w.store = labStore :=
    ⟨_, .step ⟨rfl, trivial⟩ (.step ⟨rfl, trivial⟩ (.step ⟨rfl, trivial⟩ (.refl _))), by decide +kernel, rfl⟩
  obtain ⟨w, run, returned, same⟩ := run
  obtain ⟨hops, verified⟩ := verified_chained
  have carried : ∀ topology, chainedAround.chosen { name := "lab", target := some "db" } = .ok topology →
      ∀ e ∈ topology.edges, Usable e → Carried e := by
    rintro _ ⟨⟩ e member -
    obtain rfl | rfl := by simpa using member
    all_goals
      refine ⟨⟨by decide, by decide⟩, by decide, ?_⟩
      rintro _ ⟨⟩
      exact ⟨⟨by decide, by decide⟩, fun front port split => by cases split⟩
  obtain ⟨topology, walk, -, -, -, follows⟩ := route_of_verified id _ _ _ _ _ "db" _ _ _ hops _ rfl (by decide) verified
    carried _ _ _ _ _ w run (fun n _ => by rw [same]) 1 returned
  exact ⟨w, run, walk, follows⟩

end McpSsh
