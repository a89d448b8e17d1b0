import McpSsh.JumpAtomic

/-!
# Paths in the syntax of chains

`_setup_jump_auto` writes every hop of a path as `node@via`, and `_parse_hop` takes it
apart at the first `@` and the last colon. The address of a hop survives this unless it,
or the node's name, has one of these where the parser looks for them.
-/

set_option autoImplicit false

namespace McpSsh

open Base

/-! ## What survives -/

/-- A non-blank string without surrounding whitespace. -/
def Trimmed (s : String) : Prop := s ≠ "" ∧ strip s.toList = s.toList

/-- No `@` in the node's name, and an address that does not end like a port; except for
a registered host that is a colon and the registered port (or zero). -/
def Survives (base : ServerConfig) (node via : String) : Prop :=
  '@' ∉ node.toList ∧ Trimmed via ∧
    ∀ front port, rpartition ':' via.toList = some (front, port) → isDigits port = true →
      via = base.host ∧ strip front = [] ∧ ∃ p, intOf port = some p ∧ (p = 0 ∨ (p : Int) = base.port)

/-- The fields that a login uses. -/
def SameCredentials (a b : ServerConfig) : Prop :=
  a.user = b.user ∧ a.authType = b.authType ∧ a.keyPath = b.keyPath ∧ a.certPath = b.certPath ∧
    a.passwordEnv = b.passwordEnv

/-- Each hop of the path is an entry with the hop's address, and with port and
credentials of its node. -/
def RegistersPath (r : Registry) (request : JumpRequest) (path : List (String × String)) (t : Store) : Prop :=
  ∀ i node via base, path[i]? = some (node, via) → r.find? node = some base →
    ∃ config, (t.registry.half (.of request.persist)).get? (hopName request.name i path.length) = some config ∧
      config.host = via ∧ config.port = base.port ∧ SameCredentials config base

/-- A call that finds a path over registered nodes, and that nothing else stops: names
and hosts of the registry are trimmed, the new names can be added, and the connect
succeeds. -/
structure PathCall (around : JumpSurroundings) (writes : Writes) (s : Store) (request : JumpRequest)
    (path : List (String × String)) : Prop where
  found : ∃ target topology, request.target = some target ∧ around.pool = true ∧ around.state = true ∧
    (s.registry.find? target).isSome = true ∧ around.chosen request = .ok topology ∧
      findPath topology target = some (some path)
  registered : ∀ hop ∈ path, (s.registry.find? hop.1).isSome = true
  trimmed : ∀ name server, s.registry.find? name = some server → Trimmed name ∧ Trimmed server.host
  free : s.registry.find? request.name = none
  addable : (hopNames request.name path.length).all (addable request.persist writes s.registry) = true
  connects : around.connects = true

/-! ## Splitting -/

theorem partition_append {sep : Char} {front : List Char} (absent : sep ∉ front) (rest : List Char) :
    partition sep (front ++ sep :: rest) = (front, rest) := by
  have all : ∀ c ∈ front, decide (c ≠ sep) = true := by
    intro c member
    exact decide_eq_true fun same => absent (same ▸ member)
  rw [partition, List.takeWhile_append_of_pos all, List.dropWhile_append_of_pos all]
  simp

theorem rpartition_eq_some {sep : Char} {text front last : List Char}
    (split : rpartition sep text = some (front, last)) : text = front ++ sep :: last ∧ sep ∉ last := by
  unfold rpartition at split
  split at split
  · rename_i member
    obtain ⟨tail, rest, parts, absent⟩ := List.eq_append_cons_of_mem (List.mem_reverse.mpr member)
    rw [parts, partition_append absent] at split
    obtain ⟨rfl, rfl⟩ := Prod.mk.inj (Option.some.inj split)
    refine ⟨?_, fun member => absent (List.mem_reverse.mp member)⟩
    rw [← List.reverse_reverse text, parts]
    simp
  · cases split

/-- What `_parse_hop` makes of an element. -/
theorem parseHop_cases {element : String} {hop : ChainElement} (parsed : parseHop element = some hop) :
    hop.server = String.ofList (strip (partition '@' element.toList).1) ∧
      let addr := strip (partition '@' element.toList).2
      (addr = [] ∧ hop.host = none ∧ hop.port = none) ∨
      (addr ≠ [] ∧ (∀ front port, rpartition ':' addr = some (front, port) → isDigits port = false) ∧
        hop.host = some (String.ofList addr) ∧ hop.port = none) ∨
      ∃ front port n, rpartition ':' addr = some (front, port) ∧ isDigits port = true ∧ intOf port = some n ∧
        hop.host = some (String.ofList (strip front)) ∧ hop.port = some n := by
  unfold parseHop at parsed
  dsimp only at parsed ⊢
  split at parsed
  · rename_i empty
    obtain rfl := Option.some.inj parsed
    exact ⟨rfl, .inl ⟨List.isEmpty_iff.mp empty, rfl, rfl⟩⟩
  rename_i some_
  rw [List.isEmpty_iff] at some_
  split at parsed
  · rename_i front port split
    split at parsed
    · rename_i digits
      obtain ⟨n, number, rfl⟩ := Option.map_eq_some_iff.mp parsed
      exact ⟨rfl, .inr (.inr ⟨front, port, n, split, digits, number, rfl, rfl⟩)⟩
    · rename_i word
      obtain rfl := Option.some.inj parsed
      refine ⟨rfl, .inr (.inl ⟨some_, fun front' port' same => ?_, rfl, rfl⟩)⟩
      obtain ⟨rfl, rfl⟩ := Prod.mk.inj (Option.some.inj (split.symm.trans same))
      simpa using word
  · rename_i whole
    obtain rfl := Option.some.inj parsed
    refine ⟨rfl, .inr (.inl ⟨some_, fun front' port' same => ?_, rfl, rfl⟩)⟩
    rw [whole] at same
    cases same

theorem toList_chainElement (node via : String) :
    (chainElement (node, via)).toList = node.toList ++ '@' :: via.toList := by
  simp [chainElement, String.toList_append]

theorem orElse_ofList {text : List Char} (visible : text ≠ []) (y : String) :
    orElse (some (String.ofList text)) y = String.ofList text := by
  rw [orElse, if_neg]
  intro empty
  exact visible (by simpa using congrArg String.toList empty)

theorem not_mem_of_isDigits {port : List Char} (digits : isDigits port = true) : '@' ∉ port := by
  intro member
  simp only [isDigits, Bool.and_eq_true, List.all_eq_true] at digits
  have digit := digits.2 _ member
  revert digit
  decide

/-! ## One element -/

/-- The port that a hop is registered with. -/
def dialedPort (hop : ChainElement) (base : ServerConfig) : Int :=
  match hop.port with
  | some port => if port = 0 then base.port else port
  | none => base.port

/-- An `@` in the node's name ends up in the address. -/
theorem not_mem_of_dialed {node via host : String} {hop : ChainElement}
    (parsed : parseHop (chainElement (node, via)) = some hop) (dialed : orElse hop.host host = via) :
    '@' ∉ node.toList := by
  intro member
  obtain ⟨front, rest, parts, absent⟩ := List.eq_append_cons_of_mem member
  obtain ⟨-, shape⟩ := parseHop_cases parsed
  rw [toList_chainElement, parts, List.append_assoc, List.cons_append, partition_append absent] at shape
  dsimp only at shape
  have more : via.toList.count '@' < (strip (rest ++ '@' :: via.toList)).count '@' := by
    rw [count_strip (by decide), List.count_append, List.count_cons_self]
    omega
  obtain ⟨empty, -, -⟩ | ⟨some_, -, whole, -⟩ | ⟨first, port, n, split, digits, -, before, -⟩ := shape
  · rw [empty] at more
    simp at more
  · rw [whole, orElse_ofList some_] at dialed
    have count := congrArg (fun text => text.toList.count '@') dialed
    simp only [String.toList_ofList] at count
    omega
  · obtain ⟨addr, -⟩ := rpartition_eq_some split
    rw [addr, List.count_append, List.count_cons_of_ne (by decide),
      List.count_eq_zero.mpr (not_mem_of_isDigits digits), Nat.add_zero, ← count_strip (by decide) first] at more
    have some_ : strip first ≠ [] := by
      rintro empty
      rw [empty] at more
      simp at more
    rw [before, orElse_ofList some_] at dialed
    have count := congrArg (fun text => text.toList.count '@') dialed
    simp only [String.toList_ofList] at count
    omega

/-- **A hop that is taken apart as it was put together survives.** -/
theorem survives_of_parsed {r : Registry} {node via : String} {base base' : ServerConfig} {hop : ChainElement}
    (trimmed : ∀ name server, r.find? name = some server → Trimmed name ∧ Trimmed server.host)
    (registered : r.find? node = some base) (parsed : parseHop (chainElement (node, via)) = some hop)
    (found : r.find? hop.server = some base') (host : orElse hop.host base'.host = via)
    (port : dialedPort hop base' = base.port) : Survives base node via := by
  have absent := not_mem_of_dialed parsed host
  obtain ⟨server, shape⟩ := parseHop_cases parsed
  rw [toList_chainElement, partition_append absent] at server shape
  dsimp only at server shape
  rw [(trimmed node base registered).1.2, String.ofList_toList] at server
  rw [server, registered] at found
  obtain rfl := Option.some.inj found
  obtain ⟨empty, noHost, -⟩ | ⟨some_, word, whole, -⟩ | ⟨first, digits, n, split, number, value, before, dialed⟩ := shape
  · rw [noHost, orElse] at host
    obtain ⟨some_, same⟩ := host ▸ (trimmed node base registered).2
    rw [empty] at same
    exact absurd (String.toList_eq_nil_iff.mp same.symm) some_
  · rw [whole, orElse_ofList some_] at host
    have same : strip via.toList = via.toList := by simpa using congrArg String.toList host
    rw [same] at some_ word
    refine ⟨absent, ⟨fun empty => some_ (by rw [empty]; rfl), same⟩, fun front port split digits => ?_⟩
    rw [word front port split] at digits
    cases digits
  · obtain ⟨addr, -⟩ := rpartition_eq_some split
    by_cases empty : strip first = []
    · have own : via = base.host := by
        rw [before, empty] at host
        exact host.symm
      have shaped := own ▸ (trimmed node base registered).2
      refine ⟨absent, shaped, fun front port' split' digits' => ?_⟩
      rw [← shaped.2, split] at split'
      obtain ⟨rfl, rfl⟩ := Prod.mk.inj (Option.some.inj split')
      refine ⟨own, empty, n, value, ?_⟩
      rw [dialedPort, dialed] at port
      by_cases zero : n = 0
      · exact .inl zero
      · exact .inr ((if_neg zero).symm.trans port)
    · -- the rest of the address is shorter than the address
      exfalso
      rw [before, orElse_ofList empty] at host
      have same : strip first = via.toList := by simpa using congrArg String.toList host
      have lengths := congrArg List.length same
      have inner := length_strip_le first
      have outer := length_strip_le via.toList
      rw [addr, List.length_append, List.length_cons] at outer
      omega

/-- A hop that survives is taken apart as it was put together. -/
theorem parseHop_of_survives {node via : String} {base : ServerConfig} (trimmed : Trimmed node)
    (survives : Survives base node via) : ∃ hop, parseHop (chainElement (node, via)) = some hop ∧ hop.server = node ∧
      orElse hop.host base.host = via ∧ dialedPort hop base = base.port := by
  obtain ⟨absent, ⟨some_, same⟩, ported⟩ := survives
  have visible : via.toList ≠ [] := fun empty => some_ (String.toList_eq_nil_iff.mp empty)
  unfold parseHop
  rw [toList_chainElement, partition_append absent]
  dsimp only
  rw [trimmed.2, same, String.ofList_toList, String.ofList_toList, if_neg (by simpa using some_)]
  have whole : orElse (some via) base.host = via := if_neg some_
  cases split : rpartition ':' via.toList with
  | none => exact ⟨_, rfl, rfl, whole, rfl⟩
  | some parts =>
    obtain ⟨front, port⟩ := parts
    dsimp only
    cases digits : isDigits port with
    | false => exact ⟨_, rfl, rfl, whole, rfl⟩
    | true =>
      obtain ⟨own, empty, n, value, equal⟩ := ported front port split digits
      rw [if_pos rfl, value, Option.map_some]
      refine ⟨_, rfl, rfl, ?_, ?_⟩
      · rw [empty]
        exact own.symm
      · obtain rfl | same := equal
        · rfl
        · by_cases zero : n = 0
          · exact if_pos zero
          · exact (if_neg zero).trans same

/-! ## The whole chain -/

/-- The configuration of a hop through a server. -/
def hopConfig (base : ServerConfig) (hop : ChainElement) (name : String) (previous : Option String) (note : String) :
    ServerConfig :=
  { base with name := name, host := orElse hop.host base.host, port := dialedPort hop base, jumpHost := previous
              note := some note }

theorem planHops_getElem? {repr : String → String} {r : Registry} {name : String} {note : Option String}
    {total index : Nat} {previous : Option String} {chain : List String} {hops : List PlannedHop}
    (planned : planHops repr r name note total index previous chain = .ok hops) {i : Nat} {element : String}
    (here : chain[i]? = some element) : ∃ hop base written, parseHop element = some hop ∧
      r.find? hop.server = some base ∧ (hops.map PlannedHop.config)[i]? =
        some (hopConfig base hop (hopName name (index + i) total)
          (if i = 0 then previous else some (hopName name (index + i - 1) total)) written) := by
  induction chain generalizing index previous hops i with
  | nil => cases here
  | cons first chain ih =>
    rw [planHops] at planned
    cases parsed : parseHop first with
    | none =>
      rw [parsed] at planned
      cases planned
    | some hop =>
      rw [parsed] at planned
      dsimp only at planned
      cases found : r.find? hop.server with
      | none =>
        rw [found] at planned
        cases planned
      | some base =>
        rw [found] at planned
        dsimp only at planned
        cases rest : planHops repr r name note total (index + 1) (some (hopName name index total)) chain with
        | error outcome =>
          simp only [rest, bind, Except.bind] at planned
          cases planned
        | ok later =>
        simp only [rest, bind, Except.bind] at planned
        obtain rfl := Except.ok.inj planned
        cases i with
        | zero =>
          obtain rfl := Option.some.inj here
          exact ⟨hop, base, _, parsed, found, rfl⟩
        | succ i =>
          obtain ⟨hop', base', written, parsed', found', there⟩ := ih rest here
          refine ⟨hop', base', written, parsed', found', ?_⟩
          have before : (if i = 0 then some (hopName name index total) else some (hopName name (index + 1 + i - 1) total)) =
              some (hopName name (index + (i + 1) - 1) total) := by
            split
            · subst i
              rfl
            · congr 2
              omega
          have here : index + 1 + i = index + (i + 1) := by omega
          rw [List.map_cons, List.getElem?_cons_succ, there, before, here]
          rfl

section

variable {repr : String → String} {around : JumpSurroundings} {writes : Writes} {s : Store} {request : JumpRequest}
  {path : List (String × String)}

theorem PathCall.chainOf (call : PathCall around writes s request path) :
    around.chainOf s.registry request = some (path.map chainElement) := by
  obtain ⟨target, topology, aim, pool, state, known, chosen, found⟩ := call.found
  have missing : (s.registry.find? target).isNone = false := by
    rw [Option.isNone_eq_false_iff]
    exact known
  simp [JumpSurroundings.chainOf, aim, JumpSurroundings.findChain, pool, state, missing, chosen, found, Except.toOption]

/-- The call builds the chain or fails. -/
theorem PathCall.builds (call : PathCall around writes s request path) :
    (Plannable s.registry request.name (path.map chainElement) →
      (setupJumpCall repr around writes s request).2.succeeds = true ∧ ∃ hops,
        planHops repr s.registry request.name request.note path.length 0 none (path.map chainElement) = .ok hops ∧
          Extended request.persist s (setupJumpCall repr around writes s request).1 (hops.map PlannedHop.config)) ∧
    (¬ Plannable s.registry request.name (path.map chainElement) →
      (setupJumpCall repr around writes s request).2.succeeds = false) := by
  obtain ⟨fails, succeeds⟩ := @setupJumpCall_of_chain repr around writes s request _ call.chainOf
  constructor
  · intro plannable
    obtain ⟨whole, -⟩ := @buildChain_of_plannable repr writes s request.name _ request.persist request.note plannable
    rw [List.length_map] at whole
    obtain ⟨t, hops, planned, built, -, extended⟩ := whole call.addable
    have outcome := succeeds _ _ _ (by rw [built])
    rw [if_neg (by simp [call.connects]), built] at outcome
    exact ⟨outcome.2, hops, planned, outcome.1 ▸ extended⟩
  · intro not
    exact (fails (@buildChain_of_not_plannable repr writes s request.name _ request.persist request.note not).2).2

/-- The entry of a hop of a built chain. -/
theorem entry_of_planned {persist : Bool} {name : String} {note : Option String} {chain : List String} {t : Store}
    {hops : List PlannedHop} (planned : planHops repr s.registry name note chain.length 0 none chain = .ok hops)
    (extended : Extended persist s t (hops.map PlannedHop.config)) {i : Nat} {element : String}
    (here : chain[i]? = some element) : ∃ hop base written, parseHop element = some hop ∧
      s.registry.find? hop.server = some base ∧
        (t.registry.half (.of persist)).get? (hopName name i chain.length) =
          some (hopConfig base hop (hopName name i chain.length)
            (if i = 0 then none else some (hopName name (i - 1) chain.length)) written) := by
  obtain ⟨hop, base, written, parsed, found, config⟩ := planHops_getElem? planned here
  rw [Nat.zero_add] at config
  have entry : (hopName name i chain.length, hopConfig base hop (hopName name i chain.length)
      (if i = 0 then none else some (hopName name (i - 1) chain.length)) written) ∈
        (t.registry.half (.of persist)).items := by
    rw [extended.half]
    exact List.mem_append_right _ (List.mem_map.mpr ⟨_, List.mem_of_getElem? config, rfl⟩)
  exact ⟨hop, base, written, parsed, found, Dict.get?_of_mem entry⟩

/-- The entry of a hop of a path. -/
theorem entry_of_extended {t : Store} {hops : List PlannedHop}
    (planned : planHops repr s.registry request.name request.note path.length 0 none (path.map chainElement) = .ok hops)
    (extended : Extended request.persist s t (hops.map PlannedHop.config)) {i : Nat} {node via : String}
    (here : path[i]? = some (node, via)) : ∃ hop base before written,
      parseHop (chainElement (node, via)) = some hop ∧ s.registry.find? hop.server = some base ∧
        (t.registry.half (.of request.persist)).get? (hopName request.name i path.length) =
          some (hopConfig base hop (hopName request.name i path.length) before written) := by
  have element : (path.map chainElement)[i]? = some (chainElement (node, via)) := by rw [List.getElem?_map, here]; rfl
  have length : (path.map chainElement).length = path.length := List.length_map _
  rw [← length] at planned ⊢
  obtain ⟨hop, base, written, entry⟩ := entry_of_planned planned extended element
  exact ⟨hop, base, _, written, entry⟩

/-- **The hops of a path are registered as they are** exactly if each of them survives the
syntax of chains. -/
theorem path_registered_iff (repr : String → String) (call : PathCall around writes s request path) :
    (setupJumpCall repr around writes s request).2.succeeds = true ∧
        RegistersPath s.registry request path (setupJumpCall repr around writes s request).1 ↔
      ∀ hop ∈ path, ∀ base, s.registry.find? hop.1 = some base → Survives base hop.1 hop.2 := by
  obtain ⟨builds, fails⟩ := @PathCall.builds repr around writes s request path call
  constructor
  · rintro ⟨succeeded, registers⟩ ⟨node, via⟩ member base registered
    by_cases plannable : Plannable s.registry request.name (path.map chainElement)
    case neg =>
      rw [fails plannable] at succeeded
      cases succeeded
    obtain ⟨-, hops, planned, extended⟩ := builds plannable
    obtain ⟨i, here⟩ := List.mem_iff_getElem?.mp member
    obtain ⟨hop, base', before, written, parsed, found, entry⟩ := entry_of_extended planned extended here
    obtain ⟨config, there, host, port, -⟩ := registers i node via base here registered
    obtain rfl := Option.some.inj (entry.symm.trans there)
    exact survives_of_parsed call.trimmed registered parsed found host port
  · intro survive
    have resolves : ∀ hop ∈ path, ∃ base parsed, s.registry.find? hop.1 = some base ∧
        parseHop (chainElement hop) = some parsed ∧ parsed.server = hop.1 ∧ orElse parsed.host base.host = hop.2 ∧
          dialedPort parsed base = base.port := by
      rintro ⟨node, via⟩ member
      obtain ⟨base, registered⟩ := Option.isSome_iff_exists.mp (call.registered _ member)
      obtain ⟨parsed, all⟩ := parseHop_of_survives (call.trimmed _ _ registered).1 (survive _ member base registered)
      exact ⟨base, parsed, registered, all⟩
    have plannable : Plannable s.registry request.name (path.map chainElement) := by
      refine ⟨call.free, fun element member => ?_⟩
      obtain ⟨hop, inside, rfl⟩ := List.mem_map.mp member
      obtain ⟨base, parsed, registered, read, server, -⟩ := resolves hop inside
      exact ⟨parsed, read, by rw [server, registered]; rfl⟩
    obtain ⟨succeeded, hops, planned, extended⟩ := builds plannable
    refine ⟨succeeded, fun i node via base here registered => ?_⟩
    obtain ⟨hop, base', before, written, parsed, found, entry⟩ := entry_of_extended planned extended here
    obtain ⟨base'', parsed', registered', read, server, host, port⟩ := resolves _ (List.mem_of_getElem? here)
    obtain rfl := Option.some.inj (registered'.symm.trans registered)
    obtain rfl := Option.some.inj (read.symm.trans parsed)
    rw [server, registered] at found
    obtain rfl := Option.some.inj found
    exact ⟨_, entry, host, port, rfl, rfl, rfl, rfl, rfl⟩

end

/-- One server in memory, and a scan that reached it at its host. -/
def scannedServer (host : String) : ServerConfig := { name := "web", host := host, user := "root", authType := .agent }

def scannedStore (host : String) : Store :=
  ⟨⟨{}, Dict.empty.insert "web" (scannedServer host)⟩, .text (appConfigToToml {})⟩

def scannedAround (host : String) : JumpSurroundings :=
  { pool := true, state := true, age := 0, scanned := ⟨[]⟩, connects := true
    topology := some ⟨[⟨localNode, "web", true, some host, [], .ok⟩]⟩ }

theorem scanned_pathCall {host : String} (trimmed : Trimmed host)
    (found : findPath ⟨[⟨localNode, "web", true, some host, [], .ok⟩]⟩ "web" = some (some [("web", host)])) :
    PathCall (scannedAround host) ⟨fun _ => true, fun _ => true⟩ (scannedStore host)
      { name := "lab", target := some "web" } [("web", host)] where
  found := ⟨"web", _, rfl, rfl, rfl, rfl, rfl, found⟩
  registered := by simp; rfl
  trimmed name server known := by
    obtain ⟨rfl, rfl⟩ : name = "web" ∧ server = scannedServer host := by
      simpa [scannedStore, Registry.find?, Dict.get?_insert, eq_comm] using known
    exact ⟨⟨by decide, by decide⟩, trimmed⟩
  free := rfl
  addable := rfl
  connects := rfl

theorem path_registered_iff_scanned : ∃ repr around writes s request path, PathCall around writes s request path ∧
    ((setupJumpCall repr around writes s request).2.succeeds = true ∧
        RegistersPath s.registry request path (setupJumpCall repr around writes s request).1 ↔
      ∀ hop ∈ path, ∀ base, s.registry.find? hop.1 = some base → Survives base hop.1 hop.2) :=
  have call := @scanned_pathCall "10.0.0.1" ⟨by decide, by decide⟩ (by decide +kernel)
  ⟨id, _, _, _, _, _, call, path_registered_iff id call⟩

/-- Of an IPv6 address the last group is taken for a port. -/
theorem address_cut : ¬ ∀ (repr : String → String) (around : JumpSurroundings) (writes : Writes) (s : Store)
    (request : JumpRequest) (path : List (String × String)), PathCall around writes s request path →
      (setupJumpCall repr around writes s request).2.succeeds = true ∧
        RegistersPath s.registry request path (setupJumpCall repr around writes s request).1 := by
  intro all
  have call := @scanned_pathCall "fe80::1" ⟨by decide, by decide⟩ (by decide +kernel)
  obtain ⟨config, entry, host, -⟩ := (all id _ _ _ _ _ call).2 0 "web" "fe80::1" _ rfl rfl
  have dialed : ((setupJumpCall id (scannedAround "fe80::1") ⟨fun _ => true, fun _ => true⟩ (scannedStore "fe80::1")
      { name := "lab", target := some "web" }).1.registry.ephemeral.get? "lab").map ServerConfig.host = some "fe80:" := by
    decide +kernel
  have same := (congrArg (Option.map ServerConfig.host) entry).symm.trans dialed
  rw [Option.map_some, host] at same
  revert same
  decide

end McpSsh
