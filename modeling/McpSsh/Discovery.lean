import McpSsh.Registry
import McpSsh.Base.Trace
import Mathlib.Data.List.Infix

/-!
# The discovery engine

`DiscoveryEngine` of `discovery.py`. The scan is a loop over a frontier; expanding
an item probes its fresh candidates in concurrent tasks. A step is what runs between
two awaits: a turn of the loop, the end of a harvest, a task that gets the semaphore,
the end of a dial, the end of an expansion. What the network answers, how long
anything takes and whether a registration fails is up to the events.
-/

set_option autoImplicit false

namespace McpSsh

open Base

/-! ## Items and hosts -/

/-- The synthetic node of the machine the server runs on. -/
def localSeed : String := "local"

/-- `_FrontierItem`. -/
structure FrontierItem where
  name : String
  /-- `None` for the local seed. -/
  conn : Option Nat
  depth : Nat
  isLocal : Bool
deriving DecidableEq

structure DiscoveredHost where
  name : String
  fingerprint : String
  addrs : List String
  via : String
  depth : Nat
  authKey : String
  poolReachable : Bool
deriving DecidableEq

/-- How a dial of a candidate ends; a connection may present no host key. -/
inductive DialResult where
  | failed
  | up (fingerprint : Option String)
deriving DecidableEq

/-- A dial that ended: from which item, to which address. -/
structure DialRecord where
  via : FrontierItem
  addr : String
  result : DialResult
deriving DecidableEq

/-- The counters of a scan. -/
structure DiscoveryStats where
  candidates : Nat := 0
  probes : Nat := 0
  connectsTried : Nat := 0
  connectsOk : Nat := 0
  harvestedKeys : Nat := 0

/-- The arguments of a scan. -/
structure DiscoveryParams where
  session : String
  keyPaths : List String
  harvestKeys : Bool
  port : Int
  maxDepth : Int
  maxNodes : Int
  concurrency : Int
  namePrefix : String
  persist : Bool
  /-- The injected candidates, expanded. -/
  injected : List String
  injectedUsers : Dict String String
  /-- `_username_for`. -/
  usernameFor : FrontierItem → String

/-! ## Names -/

/-- `_fp_short`. -/
def fpShort (fingerprint : String) : String :=
  let body := match fingerprint.toList.dropWhile (· ≠ ':') with
    | [] => fingerprint.toList
    | _ :: rest => rest
  let slug := ((body.filter fun c => c.isAlphanum).map Char.toLower).take 8
  if slug.isEmpty then "unknown" else String.ofList slug

/-- The loop in `_register` that looks for a free name. -/
def freeName (taken : String → Bool) (base : String) : Nat → Nat → String → Option String
  | 0, _, name => if taken name then none else some name
  | fuel + 1, suffix, name =>
    if taken name then freeName taken base fuel (suffix + 1) (base ++ "-" ++ toString suffix) else some name

/-- The name of a discovered host before a suffix. -/
def baseName (p : DiscoveryParams) (fingerprint : String) : String := p.namePrefix ++ "-" ++ fpShort fingerprint

/-- The name `_register` picks; the loop needs no more turns than there are names. -/
def pickName (p : DiscoveryParams) (r : Registry) (fingerprint : String) : Option String :=
  freeName (fun name => (r.find? name).isSome) (baseName p fingerprint) r.names.length 1 (baseName p fingerprint)

/-! ## The engine -/

/-- A task of `_expand`. -/
inductive ProbeState where
  | waiting
  | dialing (user : String)
  | finished (item : Option FrontierItem)
deriving DecidableEq

structure Probe where
  addr : String
  state : ProbeState
deriving DecidableEq

/-- Where `run` stands. -/
inductive Phase where
  | looping
  | harvestingKeys (item : FrontierItem)
  | harvesting (item : FrontierItem)
  | expanding (item : FrontierItem) (probes : List Probe)
  | finished

structure Engine where
  store : Store
  /-- The number of keys in `_key_space`. -/
  keys : Nat
  visitedIps : List String
  visitedFps : List String
  discovered : List DiscoveredHost
  graph : Dict String (List String)
  skipped : List String
  registered : List String
  truncated : Bool
  stats : DiscoveryStats
  /-- The number of connections the engine opened, which are numbered from 0. -/
  opened : Nat
  openConns : List Nat
  closed : List Nat
  frontier : List FrontierItem
  phase : Phase
  /-- The dials that ended, the expansions with their candidates and the number of
  failed registrations: a record that no code reads. -/
  dials : List DialRecord
  expansions : List (FrontierItem × List String)
  failures : Nat

inductive DiscoveryEvent where
  /-- A turn of the loop; `expired` tells whether the deadline has passed. -/
  | turn (expired : Bool)
  | keysHarvested (usable : Nat) (skipped : List String)
  | harvested (crumbs : List String)
  /-- A task gets the semaphore. -/
  | start (task : Nat) (expired : Bool)
  /-- The dial of a task ends; `registers` tells whether a registration would succeed. -/
  | dialed (task : Nat) (result : DialResult) (registers : Bool)
  | joined

/-- `_record_addr`. -/
def recordAddr (fingerprint addr : String) : List DiscoveredHost → List DiscoveredHost
  | [] => []
  | host :: rest =>
    if host.fingerprint = fingerprint ∧ addr ∉ host.addrs then { host with addrs := host.addrs ++ [addr] } :: rest
    else host :: recordAddr fingerprint addr rest

/-- The loop of `_expand` that reserves the fresh candidates: those visited then,
and the fresh ones. -/
def reserve (visited : List String) : List String → List String × List String
  | [] => (visited, [])
  | cand :: rest =>
    if cand ∈ visited then reserve visited rest
    else
      let (visited, fresh) := reserve (visited ++ [cand]) rest
      (visited, cand :: fresh)

/-- Drop repetitions, keeping the order. -/
def dedup (seen : List String) : List String → List String
  | [] => []
  | c :: rest => if c ∈ seen then dedup seen rest else c :: dedup (c :: seen) rest

/-- `_auth_key_hint`. -/
def authKeyHint (keys : Nat) : String := if keys = 1 then "our-keys[1]" else "one-of-" ++ toString keys ++ "-keys"

namespace Engine

variable (p : DiscoveryParams)

/-- The configuration that `_register` adds, and whether the pool can dial it again. -/
def registration (fingerprint addr : String) (via : FrontierItem) (username name : String) : ServerConfig × Bool :=
  let keyPath := if p.harvestKeys then none else match p.keyPaths with
    | [path] => some path
    | _ => none
  ({ name, host := addr, port := p.port, user := username, authType := .key, keyPath
     jumpHost := if via.isLocal then none else some via.name
     hostKeyPolicy := some .tofu
     note := some ("disc-session=" ++ p.session ++ " fp=" ++ fingerprint) }, keyPath.isSome)

/-- `_register`: the registry with the new entry, its name and whether the pool can
dial it; `none` where it raises. -/
def register (s : Engine) (fingerprint addr : String) (via : FrontierItem) (username : String) (registers : Bool) :
    Option (Store × String × Bool) := do
  let name ← pickName p s.store.registry fingerprint
  let (cfg, poolReachable) := registration p fingerprint addr via username name
  let store ← if registers then (s.store.addTo p.persist true cfg).toOption else none
  return (store, name, poolReachable)

/-- The end of `run`. -/
def finish (s : Engine) : Engine :=
  { s with closed := s.closed ++ s.openConns, openConns := [], phase := .finished }

/-- A turn of the loop in `run`, up to the first await. -/
def turn (s : Engine) (expired : Bool) : Engine :=
  match s.frontier with
  | [] => s.finish
  | item :: frontier =>
    if expired then { s with truncated := true }.finish
    else if p.maxNodes ≤ s.discovered.length then { s with truncated := true }.finish
    else if p.maxDepth ≤ item.depth then { s with truncated := true, frontier }
    else { s with frontier, phase := .harvestingKeys item }

/-- `_maybe_harvest_keys`. -/
def keysHarvested (s : Engine) (item : FrontierItem) (usable : Nat) (skipped : List String) : Engine :=
  if p.harvestKeys && item.conn.isSome then
    { s with
      keys := s.keys + usable
      stats := { s.stats with harvestedKeys := s.stats.harvestedKeys + usable }
      skipped := s.skipped ++ skipped
      phase := .harvesting item }
  else { s with phase := .harvesting item }

/-- The candidates of an item, and the start of `_expand`. -/
def harvested (s : Engine) (item : FrontierItem) (crumbs : List String) : Engine :=
  let candidates := dedup [] (crumbs ++ p.injected)
  let (visitedIps, fresh) := reserve s.visitedIps candidates
  { s with
    visitedIps
    stats := { s.stats with candidates := s.stats.candidates + fresh.length }
    expansions := s.expansions ++ [(item, candidates)]
    phase := .expanding item (fresh.map fun addr => ⟨addr, .waiting⟩) }

/-- The task at place `i` goes on to `state`. -/
def settle (s : Engine) (item : FrontierItem) (probes : List Probe) (i : Nat) (addr : String) (state : ProbeState) :
    Engine :=
  { s with phase := .expanding item (probes.set i ⟨addr, state⟩) }

/-- `_one` from the semaphore to the dial. -/
def start (s : Engine) (item : FrontierItem) (probes : List Probe) (i : Nat) (addr : String) (expired : Bool) : Engine :=
  if expired then { s with truncated := true }.settle item probes i addr (.finished none)
  else if p.maxNodes ≤ s.discovered.length then { s with truncated := true }.settle item probes i addr (.finished none)
  else
    let s := { s with stats := { s.stats with
      probes := s.stats.probes + 1, connectsTried := s.stats.connectsTried + 1 } }
    -- `connect_candidate` does not dial without keys
    if s.keys = 0 then
      { s with dials := s.dials ++ [DialRecord.mk item addr .failed] }.settle item probes i addr (.finished none)
    else s.settle item probes i addr (.dialing ((p.injectedUsers.get? addr).getD (p.usernameFor item)))

/-- A dialed host that the registry accepted. -/
def discover (s : Engine) (item : FrontierItem) (addr fingerprint : String) (conn : Nat) (store : Store) (name : String)
    (poolReachable : Bool) : Engine :=
  { s with
    store
    discovered := s.discovered ++ [{
      name, fingerprint, addrs := [addr], via := item.name, depth := item.depth + 1
      authKey := authKeyHint s.keys, poolReachable }]
    registered := s.registered ++ [name]
    openConns := s.openConns ++ [conn]
    graph := s.graph.insert item.name ((s.graph.get? item.name).getD [] ++ [name]) }

/-- `_one` after a dial that presented `fingerprint` on connection `conn`: the next
state, and the new item. -/
def presented (s : Engine) (item : FrontierItem) (addr user fingerprint : String) (conn : Nat) (registers : Bool) :
    Engine × Option FrontierItem :=
  if fingerprint ∈ s.visitedFps then
    ({ s with discovered := recordAddr fingerprint addr s.discovered, closed := s.closed ++ [conn] }, none)
  else
    let s := { s with visitedFps := s.visitedFps ++ [fingerprint] }
    if p.maxNodes ≤ s.discovered.length then ({ s with truncated := true, closed := s.closed ++ [conn] }, none)
    else
      match s.register p fingerprint addr item user registers with
      | none => ({ s with failures := s.failures + 1, closed := s.closed ++ [conn] }, none)
      | some (store, name, poolReachable) =>
        (s.discover item addr fingerprint conn store name poolReachable,
          some ⟨name, some conn, item.depth + 1, false⟩)

/-- `_one` after its dial. -/
def dialed (s : Engine) (item : FrontierItem) (probes : List Probe) (i : Nat) (addr user : String)
    (result : DialResult) (registers : Bool) : Engine :=
  let s := { s with dials := s.dials ++ [DialRecord.mk item addr result] }
  match result with
  | .failed => s.settle item probes i addr (.finished none)
  | .up key =>
    let conn := s.opened
    let s := { s with opened := conn + 1, stats := { s.stats with connectsOk := s.stats.connectsOk + 1 } }
    match key with
    | none => { s with closed := s.closed ++ [conn] }.settle item probes i addr (.finished none)
    | some fingerprint =>
      let (s, found) := s.presented p item addr user fingerprint conn registers
      s.settle item probes i addr (.finished found)

/-- The items of the finished tasks; `none` while one is not finished. -/
def results : List Probe → Option (List FrontierItem)
  | [] => some []
  | ⟨_, .finished item⟩ :: rest => (results rest).map (item.toList ++ ·)
  | _ :: _ => none

/-- The tasks that hold the semaphore. -/
def running (probes : List Probe) : Nat := (probes.filter fun probe => probe.state matches .dialing _).length

/-- One step; `none` for an event that cannot happen. -/
def step (s : Engine) : DiscoveryEvent → Option Engine
  | .turn expired =>
    match s.phase with
    | .looping => some (s.turn p expired)
    | _ => none
  | .keysHarvested usable skipped =>
    match s.phase with
    | .harvestingKeys item => some (s.keysHarvested p item usable skipped)
    | _ => none
  | .harvested crumbs =>
    match s.phase with
    | .harvesting item => some (s.harvested p item crumbs)
    | _ => none
  | .start i expired =>
    match s.phase with
    | .expanding item probes =>
      match probes[i]? with
      | some ⟨addr, .waiting⟩ =>
        if (running probes : Int) < max 1 p.concurrency then some (s.start p item probes i addr expired) else none
      | _ => none
    | _ => none
  | .dialed i result registers =>
    match s.phase with
    | .expanding item probes =>
      match probes[i]? with
      | some ⟨addr, .dialing user⟩ => some (s.dialed p item probes i addr user result registers)
      | _ => none
    | _ => none
  | .joined =>
    match s.phase with
    | .expanding _ probes =>
      (results probes).map fun items => { s with frontier := s.frontier ++ items, phase := .looping }
    | _ => none

/-- The engine at the start of `run`. -/
def init (store : Store) (keys : Nat) (seeds : List FrontierItem) : Engine :=
  { store, keys, visitedIps := [], visitedFps := [], discovered := [], graph := Dict.empty, skipped := []
    registered := [], truncated := false, stats := {}, opened := 0, openConns := [], closed := [], frontier := seeds
    phase := .looping, dials := [], expansions := [], failures := 0 }

/-- The system of a scan. -/
def system : System Engine DiscoveryEvent := ofFunction (step p)

end Engine

/-! ## Seeds -/

section

-- the pool's connection to a name at a turn of the loop, if it succeeds
variable (r : Registry) (connects : Nat → String → Option Nat)

/-- `pool.get_connection`, which fails for a name that is not registered. -/
def seedConnection (turn : Nat) (name : String) : Option Nat :=
  if (r.find? name).isNone then none else connects turn name

/-- The loop of `_build_seed_frontier` over the given names. -/
def explicitSeeds : Nat → List String → List FrontierItem
  | _, [] => []
  | turn, seed :: rest =>
    if seed = localSeed then ⟨localSeed, none, 0, true⟩ :: explicitSeeds (turn + 1) rest
    else
      match seedConnection r connects turn seed with
      | some conn => ⟨seed, some conn, 0, false⟩ :: explicitSeeds (turn + 1) rest
      | none => explicitSeeds (turn + 1) rest

/-- `needle in s`. -/
def contains (needle : String) (s : String) : Bool := decide (needle.toList <:+: s.toList)

/-- The registered servers that are seeds by default: no hops of jump chains and no
discovered servers. -/
def isDefaultSeed (cfg : ServerConfig) : Bool :=
  !(cfg.name.toList.head? = some '_' || (cfg.note.any fun note => contains "disc-session=" note))

/-- The loop of `_build_seed_frontier` over all servers. -/
def defaultSeeds : Nat → List ServerConfig → List FrontierItem
  | _, [] => []
  | turn, cfg :: rest =>
    if !isDefaultSeed cfg then defaultSeeds (turn + 1) rest
    else
      match seedConnection r connects turn cfg.name with
      | some conn => ⟨cfg.name, some conn, 0, false⟩ :: defaultSeeds (turn + 1) rest
      | none => defaultSeeds (turn + 1) rest

/-- `_build_seed_frontier`. -/
def buildSeedFrontier (seeds : Option (List String)) : List FrontierItem :=
  match seeds with
  | none => ⟨localSeed, none, 0, true⟩ :: defaultSeeds r connects 0 r.listAll
  | some names => explicitSeeds r connects 0 names

end

end McpSsh
