import McpSsh.TopologyScan
import McpSsh.Base.Traverse
import Mathlib.Data.List.Count

/-!
# One cell for each ordered pair

Which cells a scan returns, counted by their ends, and where each was probed from. The
count of a pair is the number of rows of its source times the number of targets of its
name, so one server called `local` doubles the row of the host.
-/

set_option autoImplicit false

namespace McpSsh

open Base

/-- One cell for each source and each other target, and no other cell; the cells of
`local` are probed by the host, those of a server over its connection, unless there is
none. -/
structure Matrix (selected : List String) (cells : List Cell) : Prop where
  once : ∀ s ∈ localNode :: selected, ∀ t ∈ selected, s ≠ t →
    cells.countP (fun c => c.edge.fromNode = s ∧ c.edge.toNode = t) = 1
  only : ∀ c ∈ cells, c.edge.fromNode ∈ localNode :: selected ∧ c.edge.toNode ∈ selected ∧
    c.edge.fromNode ≠ c.edge.toNode
  host : ∀ c ∈ cells, c.edge.fromNode = localNode → c.vantage = some .host
  servers : ∀ c ∈ cells, c.edge.fromNode ∈ selected →
    c.vantage = some (.server c.edge.fromNode) ∨
      c.vantage = none ∧ c.edge.sourceState = .sourceUnreachable ∧ c.edge.addresses = []

/-! ## What a row holds -/

/-- The ends of an edge. -/
def ends (e : State.TopologyEdge ℚ) : String × String := (e.fromNode, e.toNode)

section

variable {source : String} {dialer : Option Dialer} {targets : List State.TopologyNode} {portOf : Dict String Int}
  {row : List (State.TopologyEdge ℚ)}

/-- A row of probed cells: before forwarding is found to be off, each is what its probes
come to. -/
theorem scanRow_probed {dialer : Dialer} (scanned : scanRow source (some dialer) targets portOf = some row) :
    ∃ edges, (targets.zipIdx.filter fun t => t.1.name ≠ source).mapM (fun t => (portOf.get? t.1.name).map fun port =>
        aggregateCell source t.1.name (probesOf dialer t.2 t.1 port)) = some edges ∧
      row = if anyDisabled edges then edges.map disable else edges := by
  obtain ⟨edges, probed, ⟨⟩⟩ := Option.bind_eq_some_iff.mp scanned
  exact ⟨edges, probed, rfl⟩

/-- A row has one edge for each target but the source. -/
theorem ends_scanRow (scanned : scanRow source dialer targets portOf = some row) :
    row.map ends = ((targets.map State.TopologyNode.name).filter (· ≠ source)).map (Prod.mk source) := by
  rw [List.filter_map, List.map_map]
  cases dialer with
  | none =>
    cases Option.some.inj scanned
    rw [List.map_map]
    rfl
  | some dialer =>
    obtain ⟨edges, probed, rfl⟩ := scanRow_probed scanned
    have each : edges.map ends = (targets.zipIdx.filter fun t => t.1.name ≠ source).map fun t => (source, t.1.name) := by
      apply map_of_mapM probed
      intro t _ e found
      obtain ⟨port, -, rfl⟩ := Option.map_eq_some_iff.mp found
      rfl
    have indexed : (targets.zipIdx.filter fun t => t.1.name ≠ source).map Prod.fst =
        targets.filter fun t => t.name ≠ source := by
      calc _ = (targets.zipIdx.map Prod.fst).filter fun t => t.name ≠ source := by rw [List.filter_map]; rfl
        _ = _ := by rw [List.zipIdx_map_fst]
    have kept : (if anyDisabled edges then edges.map disable else edges).map ends = edges.map ends := by
      split
      · rw [List.map_map]
        rfl
      · rfl
    calc _ = edges.map ends := kept
      _ = ((targets.zipIdx.filter fun t => t.1.name ≠ source).map Prod.fst).map fun t => (source, t.name) := by
        rw [each, List.map_map]
        rfl
      _ = _ := by rw [indexed]; rfl

/-- A row that was not probed. -/
theorem scanRow_unreachable (scanned : scanRow source none targets portOf = some row) {e : State.TopologyEdge ℚ}
    (member : e ∈ row) : e.sourceState = .sourceUnreachable ∧ e.addresses = [] ∧ e.reachable = false ∧ e.via = none := by
  cases Option.some.inj scanned
  obtain ⟨t, -, rfl⟩ := List.mem_map.mp member
  exact ⟨rfl, rfl, rfl, rfl⟩

/-- Every target has a port. -/
theorem scanRow_total (ports : ∀ t ∈ targets, t.name ∈ portOf.keys) : ∃ row, scanRow source dialer targets portOf = some row := by
  cases dialer with
  | none => exact ⟨_, rfl⟩
  | some dialer =>
    obtain ⟨edges, probed⟩ : ∃ edges, (targets.zipIdx.filter fun t => t.1.name ≠ source).mapM (fun t =>
        (portOf.get? t.1.name).map fun port => aggregateCell source t.1.name (probesOf dialer t.2 t.1 port)) =
          some edges := by
      apply mapM_total
      intro t member
      have target : t.1 ∈ targets := (List.mem_zipIdx' (List.mem_filter.mp member).1).2 ▸ List.getElem_mem _
      obtain ⟨port, found⟩ := Dict.mem_keys_iff.mp (ports t.1 target)
      exact ⟨_, by rw [found]; rfl⟩
    exact ⟨_, by rw [scanRow, probed]; rfl⟩

end

/-! ## What a scan holds -/

section

variable {w : ScanOutcome} {nodes : List State.TopologyNode} {cells : List Cell}

theorem scanCells_total : ∃ cells, scanCells w nodes = some cells := by
  have ports : ∀ n ∈ nodes,
      n.name ∈ (nodes.foldl (fun (d : Dict String Int) n => d.insert n.name n.port) Dict.empty).keys := by
    intro n member
    have folded := @Dict.mem_keys_foldl_insert _ _ _ (nodes.map fun n => (n.name, n.port)) Dict.empty n.name
    rw [List.foldl_map] at folded
    exact folded.mpr (.inr (List.mem_map.mpr ⟨_, List.mem_map_of_mem member, rfl⟩))
  obtain ⟨rows, scanned⟩ := @mapM_total _ _ (fun s => (scanRow s.1 s.2 nodes
      (nodes.foldl (fun (d : Dict String Int) n => d.insert n.name n.port) Dict.empty)).map fun row =>
        row.map fun edge => (⟨s.2.map Dialer.vantage, edge⟩ : Cell)) (sources w nodes) fun s _ => by
    obtain ⟨row, scanned⟩ := @scanRow_total s.1 s.2 nodes _ ports
    exact ⟨_, by rw [scanned]; rfl⟩
  exact ⟨rows.flatten, by rw [scanCells, scanned]; rfl⟩

/-- The rows, source by source. -/
theorem scanCells_rows (scanned : scanCells w nodes = some cells) :
    ∃ rows portOf, cells = rows.flatten ∧ (sources w nodes).mapM (fun s => (scanRow s.1 s.2 nodes portOf).map fun row =>
      row.map fun edge => (⟨s.2.map Dialer.vantage, edge⟩ : Cell)) = some rows := by
  obtain ⟨rows, each, ⟨⟩⟩ := Option.bind_eq_some_iff.mp scanned
  exact ⟨rows, _, rfl, each⟩

theorem names_sources : (sources w nodes).map Prod.fst = localNode :: nodes.map State.TopologyNode.name := by
  rw [sources, List.map_cons, List.map_map]
  calc _ = localNode :: (nodes.zipIdx.map Prod.fst).map State.TopologyNode.name := by rw [List.map_map]; rfl
    _ = _ := by rw [List.zipIdx_map_fst]

/-- The host dials for `local`, a connection for its server. -/
theorem mem_sources {source : String} {dialer : Option Dialer} (listed : (source, dialer) ∈ sources w nodes) :
    source = localNode ∧ dialer.map Dialer.vantage = some .host ∨
      source ∈ nodes.map State.TopologyNode.name ∧
        (dialer = none ∨ dialer.map Dialer.vantage = some (.server source)) := by
  obtain same | later := List.mem_cons.mp listed
  · obtain ⟨rfl, rfl⟩ := Prod.mk.inj same
    exact .inl ⟨rfl, rfl⟩
  · obtain ⟨n, member, same⟩ := List.mem_map.mp later
    obtain ⟨rfl, rfl⟩ := Prod.mk.inj same
    have node : n.1 ∈ nodes := (List.mem_zipIdx' member).2 ▸ List.getElem_mem _
    refine .inr ⟨List.mem_map_of_mem node, ?_⟩
    cases w.source n.2 with
    | error message => exact .inl rfl
    | ok reply => exact .inr rfl

/-- The ends of all cells, row by row. -/
theorem ends_scanCells (scanned : scanCells w nodes = some cells) :
    cells.map (fun c => ends c.edge) = (localNode :: nodes.map State.TopologyNode.name).flatMap fun s =>
      ((nodes.map State.TopologyNode.name).filter (· ≠ s)).map (Prod.mk s) := by
  obtain ⟨rows, portOf, rfl, each⟩ := scanCells_rows scanned
  have row : rows.map (List.map fun c => ends c.edge) = (sources w nodes).map fun s =>
      ((nodes.map State.TopologyNode.name).filter (· ≠ s.1)).map (Prod.mk s.1) := by
    apply map_of_mapM each
    intro s _ row found
    obtain ⟨row, scanned, rfl⟩ := Option.map_eq_some_iff.mp found
    rw [← ends_scanRow scanned, List.map_map]
    rfl
  rw [List.map_flatten, row, ← @names_sources w, List.flatMap, List.map_map]
  rfl

/-- A cell lies in the row of its source. -/
theorem mem_scanCells (scanned : scanCells w nodes = some cells) {c : Cell} (member : c ∈ cells) :
    ∃ source dialer row portOf, (source, dialer) ∈ sources w nodes ∧ scanRow source dialer nodes portOf = some row ∧
      c.edge ∈ row ∧ c.vantage = dialer.map Dialer.vantage := by
  obtain ⟨rows, portOf, rfl, each⟩ := scanCells_rows scanned
  obtain ⟨row, inRows, member⟩ := List.mem_flatten.mp member
  obtain ⟨⟨source, dialer⟩, listed, found⟩ := mem_of_mapM each inRows
  obtain ⟨row, scanned, rfl⟩ := Option.map_eq_some_iff.mp found
  obtain ⟨edge, inRow, rfl⟩ := List.mem_map.mp member
  exact ⟨source, dialer, row, portOf, listed, scanned, inRow, rfl⟩

/-- A row holds edges of its source. -/
theorem fromNode_of_mem {source : String} {dialer : Option Dialer} {portOf : Dict String Int}
    {row : List (State.TopologyEdge ℚ)} (scanned : scanRow source dialer nodes portOf = some row)
    {e : State.TopologyEdge ℚ} (member : e ∈ row) : e.fromNode = source ∧ e.toNode ≠ source ∧
      e.toNode ∈ nodes.map State.TopologyNode.name := by
  have listed : ends e ∈ row.map ends := List.mem_map_of_mem member
  rw [ends_scanRow scanned] at listed
  obtain ⟨name, kept, same⟩ := List.mem_map.mp listed
  cases same
  exact ⟨rfl, of_decide_eq_true (List.mem_filter.mp kept).2, (List.mem_filter.mp kept).1⟩

theorem count_rows (sources names : List String) (s t : String) :
    (sources.flatMap fun s' => (names.filter (· ≠ s')).map (Prod.mk s')).count (s, t) =
      sources.count s * (names.filter (· ≠ s)).count t := by
  induction sources with
  | nil => rw [List.flatMap_nil, List.count_nil, List.count_nil, Nat.zero_mul]
  | cons s' sources ih =>
    rw [List.flatMap_cons, List.count_append, ih, List.count_cons]
    by_cases same : s' = s
    · subst same
      have row := List.count_map_of_injective (names.filter (· ≠ s')) (Prod.mk s') (Prod.mk_right_injective s') t
      rw [row, if_pos (beq_self_eq_true s'), Nat.add_mul, Nat.one_mul, Nat.add_comm]
    · have none_ : ((names.filter (· ≠ s')).map (Prod.mk s')).count (s, t) = 0 := by
        apply List.count_eq_zero_of_not_mem
        intro listed
        obtain ⟨_, -, pair⟩ := List.mem_map.mp listed
        exact same (congrArg Prod.fst pair)
      have different : ¬ (s' == s) = true := fun equal => same (eq_of_beq equal)
      rw [none_, if_neg different, Nat.zero_add, Nat.add_zero]

/-- How many cells there are from one node to another. -/
theorem count_scanCells (scanned : scanCells w nodes = some cells) {s t : String} (other : s ≠ t) :
    cells.countP (fun c => c.edge.fromNode = s ∧ c.edge.toNode = t) =
      (localNode :: nodes.map State.TopologyNode.name).count s * (nodes.map State.TopologyNode.name).count t := by
  have pairs : cells.countP (fun c => c.edge.fromNode = s ∧ c.edge.toNode = t) =
      (cells.map fun c => ends c.edge).count (s, t) := by
    rw [List.count, List.countP_map]
    apply List.countP_congr
    intro c _
    simp [ends]
  have kept : ((nodes.map State.TopologyNode.name).filter (· ≠ s)).count t = (nodes.map State.TopologyNode.name).count t :=
    List.count_filter (decide_eq_true other.symm)
  rw [pairs, ends_scanCells scanned, count_rows, kept]

end

/-! ## The condition -/

theorem names_harvestNodes (w : ScanOutcome) (configs : List ServerConfig) :
    (harvestNodes w configs).map State.TopologyNode.name = configs.map ServerConfig.name := by
  have name : ∀ cfg connects harvested, (harvestNode cfg connects harvested).name = cfg.name := by
    intro cfg connects harvested
    rcases connects with _ | ⟨⟩ <;> rcases harvested with _ | _ <;> rfl
  rw [harvestNodes, List.map_map]
  calc _ = (configs.zipIdx.map Prod.fst).map ServerConfig.name := by
        rw [List.map_map]
        exact List.map_congr_left fun c _ => name _ _ _
    _ = _ := by rw [List.zipIdx_map_fst]

section

variable {w : ScanOutcome} {nodes : List State.TopologyNode} {cells : List Cell} {selected : List String}

/-- Nothing to scan but servers called `local`. -/
theorem cells_eq_nil (scanned : scanCells w nodes = some cells)
    (only : ∀ n ∈ nodes.map State.TopologyNode.name, n = localNode) : cells = [] := by
  apply List.eq_nil_iff_forall_not_mem.mpr
  intro c member
  obtain ⟨source, dialer, row, portOf, listed, scanned, inRow, -⟩ := mem_scanCells scanned member
  obtain ⟨-, other, target⟩ := fromNode_of_mem scanned inRow
  have known : source ∈ localNode :: nodes.map State.TopologyNode.name := @names_sources w nodes ▸ List.mem_map_of_mem listed
  have here : source = localNode := by
    obtain first | later := List.mem_cons.mp known
    · exact first
    · exact only source later
  exact other ((only _ target).trans here.symm)

theorem matrix_of_distinct (scanned : scanCells w nodes = some cells)
    (distinct : (localNode :: nodes.map State.TopologyNode.name).Nodup) :
    Matrix (nodes.map State.TopologyNode.name) cells where
  once s source t target other := by
    rw [count_scanCells scanned other, List.count_eq_one_of_mem distinct source,
      List.count_eq_one_of_mem (List.nodup_cons.mp distinct).2 target]
  only c member := by
    obtain ⟨source, dialer, row, portOf, listed, scanned, inRow, -⟩ := mem_scanCells scanned member
    obtain ⟨rfl, other, target⟩ := fromNode_of_mem scanned inRow
    exact ⟨@names_sources w nodes ▸ List.mem_map_of_mem listed, target, other.symm⟩
  host c member here := by
    obtain ⟨source, dialer, row, portOf, listed, scanned, inRow, vantage⟩ := mem_scanCells scanned member
    obtain ⟨rfl, -, -⟩ := fromNode_of_mem scanned inRow
    obtain ⟨-, host⟩ | ⟨named, -⟩ := mem_sources listed
    · exact vantage.trans host
    · exact absurd (here ▸ named) (List.nodup_cons.mp distinct).1
  servers c member there := by
    obtain ⟨source, dialer, row, portOf, listed, scanned, inRow, vantage⟩ := mem_scanCells scanned member
    obtain ⟨rfl, -, -⟩ := fromNode_of_mem scanned inRow
    obtain ⟨here, -⟩ | ⟨-, rfl | server⟩ := mem_sources listed
    · exact absurd (here ▸ there) (List.nodup_cons.mp distinct).1
    · obtain ⟨state, addresses, -⟩ := scanRow_unreachable scanned inRow
      exact .inr ⟨vantage, state, addresses⟩
    · exact .inl (vantage.trans server)

/-- A second server of a name, or one called `local`, doubles a cell. -/
theorem distinct_of_matrix (scanned : scanCells w nodes = some cells) (matrix : Matrix (nodes.map State.TopologyNode.name) cells)
    {target : String} (listed : target ∈ nodes.map State.TopologyNode.name) (other : target ≠ localNode) :
    (localNode :: nodes.map State.TopologyNode.name).Nodup := by
  have once : ∀ t ∈ nodes.map State.TopologyNode.name, localNode ≠ t →
      (localNode :: nodes.map State.TopologyNode.name).count localNode = 1 ∧
        (nodes.map State.TopologyNode.name).count t = 1 := by
    intro t there away
    have one := matrix.once localNode List.mem_cons_self t there away
    rw [count_scanCells scanned away] at one
    exact ⟨Nat.eq_one_of_mul_eq_one_right one, Nat.eq_one_of_mul_eq_one_left one⟩
  have host := (once target listed other.symm).1
  rw [List.count_cons_self] at host
  have absent : localNode ∉ nodes.map State.TopologyNode.name := List.count_eq_zero.mp (by omega)
  refine List.nodup_cons.mpr ⟨absent, List.nodup_iff_count_le_one.mpr fun t => ?_⟩
  by_cases there : t ∈ nodes.map State.TopologyNode.name
  · exact (once t there fun same => absent (same ▸ there)).2.le
  · rw [List.count_eq_zero_of_not_mem there]
    exact Nat.zero_le 1

/-- **The matrix is truthful exactly when no selected server is called `local`** and the
names differ, or every one is called `local` and there is nothing to scan. -/
theorem scanTopology_matrix_iff (registry : Registry) (include_ exclude : Option (List String)) :
    ∃ cells result, scanCells w (harvestNodes w (selectNodes registry include_ exclude)) = some cells ∧
      scanTopology w registry include_ exclude = some result ∧ result.edges = cells.map Cell.edge ∧
      (Matrix ((selectNodes registry include_ exclude).map ServerConfig.name) cells ↔
        (∀ cfg ∈ selectNodes registry include_ exclude, cfg.name = localNode) ∨
          ((selectNodes registry include_ exclude).map ServerConfig.name).Nodup ∧
            ∀ cfg ∈ selectNodes registry include_ exclude, cfg.name ≠ localNode) := by
  obtain ⟨cells, scanned⟩ := @scanCells_total w (harvestNodes w (selectNodes registry include_ exclude))
  refine ⟨cells, _, scanned, by rw [scanTopology, scanned]; rfl, rfl, ?_⟩
  have names := names_harvestNodes w (selectNodes registry include_ exclude)
  constructor
  · intro matrix
    by_cases only : ∀ cfg ∈ selectNodes registry include_ exclude, cfg.name = localNode
    · exact .inl only
    · push Not at only
      obtain ⟨cfg, member, other⟩ := only
      rw [← names] at matrix ⊢
      obtain ⟨absent, distinct⟩ := List.nodup_cons.mp
        (distinct_of_matrix scanned matrix (names ▸ List.mem_map_of_mem member) other)
      refine .inr ⟨distinct, fun cfg member here => absent ?_⟩
      rw [names, ← here]
      exact List.mem_map_of_mem member
  · rintro (only | ⟨distinct, absent⟩)
    · have all : ∀ name ∈ (selectNodes registry include_ exclude).map ServerConfig.name, name = localNode := by
        intro name listed
        obtain ⟨cfg, member, rfl⟩ := List.mem_map.mp listed
        exact only cfg member
      rw [cells_eq_nil scanned (names ▸ all)]
      refine ⟨fun s source t target other => ?_, nofun, nofun, nofun⟩
      obtain rfl | source := List.mem_cons.mp source
      · exact absurd (all t target).symm other
      · exact absurd ((all s source).trans (all t target).symm) other
    · rw [← names]
      apply matrix_of_distinct scanned
      rw [names]
      refine List.nodup_cons.mpr ⟨fun here => ?_, distinct⟩
      obtain ⟨cfg, member, same⟩ := List.mem_map.mp here
      exact absent cfg member same

end

/-! ## A server called `local` -/

/-- A registry with a server `local` and a server `web`. -/
def shadowedRegistry : Registry where
  config := { settings := {}, servers := Dict.empty }
  ephemeral := (Dict.empty.insert "local"
      { name := "local", host := "10.0.0.5", user := "root", authType := .agent }).insert "web"
    { name := "web", host := "10.0.0.6", user := "root", authType := .agent }

/-- **The row of `local` comes twice**, from the host and from the server of that name. -/
theorem shadowed_matrix : ¬ ∀ (w : ScanOutcome) (registry : Registry) (include_ exclude : Option (List String))
    (cells : List Cell), scanCells w (harvestNodes w (selectNodes registry include_ exclude)) = some cells →
      Matrix ((selectNodes registry include_ exclude).map ServerConfig.name) cells := by
  intro claim
  let w : ScanOutcome :=
    { scannedAt := ⟨0, none⟩
      connects := fun _ => .ok ()
      harvest := fun _ => .ok []
      host := fun _ _ _ _ => .opened 1 none
      source := fun _ => .ok fun _ _ _ _ => .raised .timeout }
  have names : (selectNodes shadowedRegistry none none).map ServerConfig.name = ["local", "web"] := by decide +kernel
  obtain ⟨cells, scanned⟩ := @scanCells_total w (harvestNodes w (selectNodes shadowedRegistry none none))
  have matrix := claim w shadowedRegistry none none cells scanned
  rw [← names_harvestNodes w] at matrix names
  have distinct := @distinct_of_matrix _ _ _ scanned matrix "web" (by rw [names]; decide) (by decide)
  rw [names] at distinct
  exact absurd distinct (by decide)

end McpSsh
