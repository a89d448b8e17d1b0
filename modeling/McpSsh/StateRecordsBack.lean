import McpSsh.State
import McpSsh.Json.RoundTrip

/-!
# Records that are dumped and validated

Each record validates as itself once it is dumped, and what is dumped can be written, if
its times and floats are encoded faithfully.
-/

set_option autoImplicit false

namespace McpSsh.State

open Base Json

/-! ## What pydantic keeps -/

section

variable {φ : Type} (c : Scalars φ)

/-- The time is read back from its text. -/
def KeepsTime (t : Timestamp) : Prop := c.readTime (dumpTime c t) = some t

/-- The float is written as a number with a fraction or an exponent, and read back. -/
def KeepsFloat (x : φ) : Prop := FloatText (c.writeFloat x).toList ∧ c.readFloat (c.writeFloat x) = some x

def ProcessKept (r : ProcessRecord) : Prop :=
  KeepsTime c r.startedAt ∧ ∀ t, r.lastChecked = some t → KeepsTime c t

def SessionKept (r : SessionRecord) : Prop :=
  KeepsTime c r.startedAt ∧ ∀ t, r.lastChecked = some t → KeepsTime c t

def TopologyResult.Kept (t : TopologyResult φ) : Prop :=
  KeepsTime c t.scannedAt ∧
    ∀ edge ∈ t.edges, ∀ probe ∈ edge.addresses, ∀ x, probe.latencyMs = some x → KeepsFloat c x

end

/-! ## Reading what was written -/

theorem characters_ofString (s : String) : characters (ofString s) = some s.toList := by
  have all : ∀ cs : List Char, characters (cs.map .char) = some cs := by
    intro cs
    induction cs with
    | nil => rfl
    | cons c cs ih => rw [List.map_cons, characters, ih]; rfl
  exact all s.toList

theorem ofString_inj {s t : String} : ofString s = ofString t ↔ s = t := by
  refine ⟨fun same => ?_, congrArg _⟩
  have both := congrArg characters same
  rw [characters_ofString, characters_ofString] at both
  exact String.toList_inj.mp (Option.some.inj both)

@[simp] theorem asStr_text (s : String) : asStr (text s) = some s := by
  rw [text, asStr, characters_ofString, Option.map_some, String.ofList_toList]

/-- A field of a dumped object. -/
theorem field_object (fields : List (String × Value)) (key : String) :
    field (fields.map fun f => (ofString f.1, f.2)) key = (fields.find? fun f => f.1 = key).map Prod.snd := by
  have same : ((fun f : PyString × Value => decide (f.1 = ofString key)) ∘ fun f : String × Value => (ofString f.1, f.2)) =
      fun f => decide (f.1 = key) := by
    funext f
    simp [ofString_inj]
  rw [field, List.find?_map, Option.map_map, same]
  rfl

theorem asEnum_text {α : Type} {all : List α} {value : α → String} (total : ∀ a, ofValue all value (value a) = some a)
    (a : α) : asEnum all value (text (value a)) = some a := by
  rw [asEnum, asStr_text, Option.bind_some, total]

theorem literal_text (value : String) : literal value (some (text value)) = some () := by
  rw [literal, withDefault, asEnum, asStr_text, Option.bind_some]
  simp [ofValue]

theorem optional_nullable {α : Type} {read : Value → Option α} {write : α → Value} {o : Option α}
    (reads : ∀ a, o = some a → orNull read (write a) = some (some a)) :
    optional read (some (nullable write o)) = some o := by
  cases o with
  | none => rfl
  | some a => exact reads a rfl

theorem asList_map {α : Type} {read : Value → Option α} {write : α → Value} {l : List α}
    (reads : ∀ a ∈ l, read (write a) = some a) : asList read (.arr (l.map write)) = some l := by
  rw [asList, List.mapM_map]
  induction l with
  | nil => rfl
  | cons a l ih =>
    rw [List.forall_mem_cons] at reads
    simp [List.mapM_cons, reads.1, ih reads.2]

/-- A dictionary that was dumped is read back. -/
theorem asDict_items {α : Type} {read : Value → Option α} {write : α → Value} {d : Dict String α}
    (reads : ∀ e ∈ d.items, read (write e.2) = some e.2) :
    asDict read (object (d.items.map fun e => (e.1, write e.2))) = some d := by
  obtain ⟨r, result, items⟩ := Dict.foldlM_insert (fun e : String × α => read (write e.2)) Prod.fst Prod.snd reads
    Dict.empty (by simpa using d.nodup)
  have same : r = d := Dict.ext_items (by simpa [Dict.empty] using items)
  rw [object, asDict, List.map_map, List.foldlM_map]
  rw [same] at result
  refine Eq.trans ?_ result
  congr 1
  funext d e
  have key : asStr (.str (ofString e.1)) = some e.1 := asStr_text e.1
  simp [key]

section

variable {φ : Type} {c : Scalars φ}

/-- **A dumped process validates as itself.** -/
theorem validateProcess_dump {r : ProcessRecord} (kept : ProcessKept c r) : validateProcess c (dumpProcess c r) = some r := by
  obtain ⟨started, checked⟩ := kept
  have lastChecked : optional c.readTime (some (nullable (dumpTime c) r.lastChecked)) = some r.lastChecked :=
    optional_nullable fun t given => congrArg (Option.map some) (checked t given)
  have exitCode : optional (asInt c) (some (nullable .int r.exitCode)) = some r.exitCode :=
    optional_nullable fun _ _ => rfl
  have status : asEnum ProcessStatus.all ProcessStatus.value (text r.status.value) = some r.status :=
    asEnum_text ProcessStatus.ofValue_value r.status
  simp only [validateProcess, dumpProcess, object, field_object]
  simp [required, withDefault, asInt, literal_text, lastChecked, exitCode, status, show c.readTime _ = _ from started]

/-- A dumped session validates as itself. -/
theorem validateSession_dump {r : SessionRecord} (kept : SessionKept c r) :
    validateSession c (dumpSession c r) = some r := by
  obtain ⟨started, checked⟩ := kept
  have lastChecked : optional c.readTime (some (nullable (dumpTime c) r.lastChecked)) = some r.lastChecked :=
    optional_nullable fun t given => congrArg (Option.map some) (checked t given)
  have window : optional asStr (some (nullable text r.tmuxWindow)) = some r.tmuxWindow :=
    optional_nullable fun s _ => congrArg (Option.map some) (asStr_text s)
  have command : orNull asStr (nullable text r.command) = some r.command :=
    @optional_nullable _ asStr _ _ fun s _ => congrArg (Option.map some) (asStr_text s)
  have status : asEnum ProcessStatus.all ProcessStatus.value (text r.status.value) = some r.status :=
    asEnum_text ProcessStatus.ofValue_value r.status
  simp only [validateSession, dumpSession, object, field_object]
  simp [required, withDefault, asBool, literal_text, lastChecked, window, command, status,
    show c.readTime _ = _ from started]

theorem validateProbe_dump {p : AddressProbe φ} (kept : ∀ x, p.latencyMs = some x → KeepsFloat c x) :
    validateProbe c (dumpProbe c p) = some p := by
  have latency : optional (asFloat c) (some (nullable (fun x => .float (c.writeFloat x)) p.latencyMs)) =
      some p.latencyMs :=
    optional_nullable fun x given => congrArg (Option.map some) (kept x given).2
  have state : asEnum AddressState.all AddressState.value (text p.state.value) = some p.state :=
    asEnum_text AddressState.ofValue_value p.state
  simp only [validateProbe, dumpProbe, object, field_object]
  simp [required, withDefault, asInt, asBool, latency, state]

/-- An edge is read back by its fields' names, since it is dumped without its aliases. -/
theorem validateEdge_dump {e : TopologyEdge φ}
    (kept : ∀ probe ∈ e.addresses, ∀ x, probe.latencyMs = some x → KeepsFloat c x) :
    validateEdge c (dumpEdge c e) = some e := by
  have via : optional asStr (some (nullable text e.via)) = some e.via :=
    optional_nullable fun s _ => congrArg (Option.map some) (asStr_text s)
  have addresses : asList (validateProbe c) (.arr (e.addresses.map (dumpProbe c))) = some e.addresses :=
    asList_map fun probe member => validateProbe_dump (kept probe member)
  have state : asEnum SourceState.all SourceState.value (text e.sourceState.value) = some e.sourceState :=
    asEnum_text SourceState.ofValue_value e.sourceState
  simp only [validateEdge, dumpEdge, object, field_object]
  simp [required, withDefault, asBool, via, addresses, state]

theorem validateNode_dump (n : TopologyNode) : validateNode c (dumpNode n) = some n := by
  have candidates : asList asStr (.arr (n.candidateAddrs.map text)) = some n.candidateAddrs :=
    asList_map fun s _ => asStr_text s
  have error : optional asStr (some (nullable text n.harvestError)) = some n.harvestError :=
    optional_nullable fun s _ => congrArg (Option.map some) (asStr_text s)
  simp only [validateNode, dumpNode, object, field_object]
  simp [required, withDefault, asInt, asBool, candidates, error]

/-- **A dumped topology validates as itself.** -/
theorem validateTopology_dump {t : TopologyResult φ} (kept : t.Kept c) :
    validateTopology c (dumpTopology c t) = some t := by
  obtain ⟨scanned, floats⟩ := kept
  have nodes : asList (validateNode c) (.arr (t.nodes.map dumpNode)) = some t.nodes :=
    asList_map fun n _ => validateNode_dump n
  have edges : asList (validateEdge c) (.arr (t.edges.map (dumpEdge c))) = some t.edges :=
    asList_map fun e member => validateEdge_dump (floats e member)
  have adjacency : asDict (asList asStr) (object (t.adjacency.items.map fun e => (e.1, .arr (e.2.map text)))) =
      some t.adjacency :=
    @asDict_items _ _ (fun l : List String => .arr (l.map text)) _ fun e _ => asList_map fun s _ => asStr_text s
  simp only [validateTopology, dumpTopology]
  rw [object]
  simp only [field_object]
  simp [required, withDefault, nodes, edges, adjacency, show c.readTime _ = _ from scanned]

/-! ## What is dumped can be written -/

theorem dumpable_object {fields : List (String × Value)} (distinct : (fields.map Prod.fst).Nodup)
    (values : ∀ f ∈ fields, Dumpable f.2) : Dumpable (object fields) := by
  refine .obj ?_ ?_ ?_
  · have keys : (fields.map fun f => (ofString f.1, f.2)).map Prod.fst = (fields.map Prod.fst).map ofString := by
      rw [List.map_map, List.map_map]
      rfl
    rw [keys]
    exact distinct.map fun s t same => ofString_inj.mp same
  · intro f member
    obtain ⟨g, -, rfl⟩ := List.mem_map.mp member
    exact ⟨g.1, rfl⟩
  · intro f member
    obtain ⟨g, inside, rfl⟩ := List.mem_map.mp member
    exact values g inside

theorem dumpable_nullable {α : Type} {write : α → Value} {o : Option α} (dumpable : ∀ a, o = some a → Dumpable (write a)) :
    Dumpable (nullable write o) := by
  cases o with
  | none => exact .null
  | some a => exact dumpable a rfl

theorem dumpable_map {α : Type} {write : α → Value} {l : List α} (dumpable : ∀ a ∈ l, Dumpable (write a)) :
    Dumpable (.arr (l.map write)) := by
  refine .arr fun v member => ?_
  obtain ⟨a, inside, rfl⟩ := List.mem_map.mp member
  exact dumpable a inside

theorem dumpable_dumpProcess (r : ProcessRecord) : Dumpable (dumpProcess c r) := by
  refine dumpable_object (by simp) ?_
  simp only [List.forall_mem_cons]
  exact ⟨.str _, .str _, .str _, .str _, .int _, .str _, .str _, .str _, dumpable_nullable fun _ _ => .str _, .str _,
    dumpable_nullable fun _ _ => .int _, by simp⟩

theorem dumpable_dumpSession (r : SessionRecord) : Dumpable (dumpSession c r) := by
  refine dumpable_object (by simp) ?_
  simp only [List.forall_mem_cons]
  exact ⟨.str _, .str _, .str _, dumpable_nullable fun _ _ => .str _, .bool _, dumpable_nullable fun _ _ => .str _, .str _,
    dumpable_nullable fun _ _ => .str _, .str _, by simp⟩

theorem dumpable_dumpProbe {p : AddressProbe φ} (kept : ∀ x, p.latencyMs = some x → KeepsFloat c x) :
    Dumpable (dumpProbe c p) := by
  refine dumpable_object (by simp) ?_
  simp only [List.forall_mem_cons]
  exact ⟨.str _, .int _, .str _, dumpable_nullable fun x given => .float (kept x given).1, .bool _, by simp⟩

theorem dumpable_dumpEdge {e : TopologyEdge φ}
    (kept : ∀ probe ∈ e.addresses, ∀ x, probe.latencyMs = some x → KeepsFloat c x) : Dumpable (dumpEdge c e) := by
  refine dumpable_object (by simp) ?_
  simp only [List.forall_mem_cons]
  exact ⟨.str _, .str _, .bool _, dumpable_nullable fun _ _ => .str _,
    dumpable_map fun probe member => dumpable_dumpProbe (kept probe member), .str _, by simp⟩

theorem dumpable_dumpNode (n : TopologyNode) : Dumpable (dumpNode n) := by
  refine dumpable_object (by simp) ?_
  simp only [List.forall_mem_cons]
  exact ⟨.str _, .str _, .int _, dumpable_map fun _ _ => .str _, .bool _, dumpable_nullable fun _ _ => .str _, .bool _,
    by simp⟩

theorem dumpable_dumpTopology {t : TopologyResult φ} (kept : t.Kept c) : Dumpable (dumpTopology c t) := by
  refine dumpable_object (by simp) ?_
  simp only [List.forall_mem_cons]
  refine ⟨.str _, dumpable_map fun n _ => dumpable_dumpNode n, dumpable_map fun e member => dumpable_dumpEdge (kept.2 e member),
    dumpable_object ?_ ?_, by simp⟩
  · rw [List.map_map]
    exact t.adjacency.nodup
  · intro f member
    obtain ⟨e, -, rfl⟩ := List.mem_map.mp member
    exact dumpable_map fun _ _ => .str _

end

end McpSsh.State
