import McpSsh.Toml.Misread

/-!
# Strings that stay

A string that a statement has stored is never changed by a later one: pairs and
headers may add to the tables around it, and everything else is an error.
-/

set_option autoImplicit false

namespace McpSsh.Toml

open Base

/-- The string `s` stands at the end of a path of tables, whichever of several entries
under one key is taken. -/
def HoldsAt (s : String) : Key → Value → Prop
  | [], v => v = .str s
  | k :: ks, .table t => (lookup k t).isSome ∧ ∀ e ∈ t, e.1 = k → HoldsAt s ks e.2
  | _ :: _, _ => False

/-- Every string of `v` is at the same place in `v'`. -/
def KeepsStrings (v v' : Value) : Prop := ∀ s path, HoldsAt s path v → HoldsAt s path v'

theorem KeepsStrings.refl (v : Value) : KeepsStrings v v := fun _ _ held => held

theorem KeepsStrings.trans {v v' v'' : Value} (first : KeepsStrings v v') (second : KeepsStrings v' v'') :
    KeepsStrings v v'' := fun s path held => second s path (first s path held)

theorem mem_of_lookup {k : String} {t : Table} {v : Value} (found : lookup k t = some v) : (k, v) ∈ t := by
  obtain ⟨e, there, rfl⟩ := Option.map_eq_some_iff.mp found
  have key : e.1 = k := by simpa using List.find?_some there
  exact key ▸ List.mem_of_find?_eq_some there

theorem lookup_isSome_of_mem {e : String × Value} {t : Table} (member : e ∈ t) : (lookup e.1 t).isSome := by
  simp only [lookup, Option.isSome_map, List.find?_isSome]
  exact ⟨e, member, by simp⟩

/-- A fresh key at the end changes no string. -/
theorem keepsStrings_append {k : String} {t : Table} (fresh : lookup k t = none) (v : Value) :
    KeepsStrings (.table t) (.table (t ++ [(k, v)])) := by
  intro s path held
  cases path with
  | nil => cases held
  | cons j ks =>
    obtain ⟨present, held⟩ := held
    refine ⟨?_, fun e member key => ?_⟩
    · rw [lookup_append]
      simp [present]
    · rcases List.mem_append.mp member with old | new
      · exact held e old key
      · cases List.mem_singleton.mp new
        cases key
        rw [fresh] at present
        cases present

/-- A value may be replaced by one that keeps its strings. -/
theorem keepsStrings_assign {k : String} {t : Table} {v v' : Value} (there : lookup k t = some v)
    (kept : KeepsStrings v v') : KeepsStrings (.table t) (.table (assign k v' t)) := by
  intro s path held
  cases path with
  | nil => cases held
  | cons j ks =>
    obtain ⟨present, held⟩ := held
    have changed : ∀ e ∈ t, (if e.1 = k then (k, v') else e) ∈ assign k v' t := fun e member => List.mem_map_of_mem member
    constructor
    · obtain ⟨u, found⟩ := Option.isSome_iff_exists.mp present
      have member := changed _ (mem_of_lookup found)
      by_cases same : j = k
      · rw [if_pos same] at member
        exact same ▸ lookup_isSome_of_mem member
      · rw [if_neg same] at member
        exact lookup_isSome_of_mem member
    · intro e member key
      obtain ⟨old, inside, rfl⟩ := List.mem_map.mp member
      by_cases same : old.1 = k
      · rw [if_pos same] at key ⊢
        exact kept s ks (held (k, v) (mem_of_lookup there) key)
      · rw [if_neg same] at key ⊢
        exact held old inside key

theorem keepsStrings_array (vs : List Value) (v : Value) : KeepsStrings (.array vs) v := by
  intro s path held
  cases path <;> cases held

/-! ## Statements -/

/-- `f` keeps the strings of the tables it changes. -/
def Keeping (f : Table → Except TomlError Table) : Prop :=
  ∀ t t', f t = .ok t' → KeepsStrings (.table t) (.table t')

theorem keeping_ok : Keeping .ok := by
  intro t t' same
  cases same
  exact .refl _

theorem keeping_addKey (k : String) (v : Value) (busy : TomlError) : Keeping (addKey k v busy) := by
  intro t t' added
  unfold addKey at added
  split at added
  · rename_i fresh
    cases added
    exact keepsStrings_append fresh _
  · cases added

theorem keeping_appendTable (last : String) : Keeping (appendTable last) := by
  intro t t' appended
  unfold appendTable at appended
  split at appended
  · rename_i fresh
    cases appended
    exact keepsStrings_append fresh _
  · rename_i vs there
    cases appended
    exact keepsStrings_assign there (keepsStrings_array _ _)
  · cases appended

theorem Keeping.updateNest {lists : Bool} {f : Table → Except TomlError Table} (keeping : Keeping f) (key : Key) :
    Keeping (updateNest lists f key) := by
  induction key with
  | nil => exact keeping
  | cons k ks ih =>
    intro t t' updated
    unfold Toml.updateNest at updated
    split at updated
    · rename_i fresh
      obtain ⟨sub, inner, same⟩ := bind_eq_ok.mp updated
      cases same
      exact keepsStrings_append fresh _
    · rename_i sub there
      obtain ⟨sub', inner, same⟩ := bind_eq_ok.mp updated
      cases same
      exact keepsStrings_assign there (ih sub sub' inner)
    · rename_i vs there
      split at updated
      · obtain ⟨sub', inner, same⟩ := bind_eq_ok.mp updated
        cases same
        exact keepsStrings_assign there (keepsStrings_array _ _)
      · cases updated
    · cases updated

theorem keeps_add {t t' : InlineTable} {key : Key} {value : Value} (added : t.add key value = .ok t') :
    KeepsStrings (.table t.data) (.table t'.data) := by
  unfold InlineTable.add at added
  split at added
  · cases added
  · obtain ⟨data, inner, same⟩ := bind_eq_ok.mp added
    cases same
    exact (keeping_addKey _ _ _).updateNest _ _ _ inner

/-- The pairs of an inline table that are read later change no string read before. -/
theorem keeps_parseInlineTable {n : Nat} {t : InlineTable} {src rest : List Char} {data : Table}
    (read : parseInlineTable n t src = .ok (data, rest)) : KeepsStrings (.table t.data) (.table data) := by
  induction n generalizing t src with
  | zero => cases read
  | succ n ih =>
    rw [parseInlineTable.eq_2] at read
    obtain ⟨⟨key, left⟩, -, read⟩ := bind_eq_ok.mp read
    simp only at read
    split at read
    · obtain ⟨⟨value, left⟩, -, read⟩ := bind_eq_ok.mp read
      obtain ⟨t', added, read⟩ := bind_eq_ok.mp read
      split at read
      · cases read
        exact keeps_add added
      · exact (keeps_add added).trans (ih read)
      · cases read
    · cases read

theorem keeps_keyValueRule {d d' : Doc} {src rest : List Char} (read : keyValueRule d src = .ok (d', rest)) :
    KeepsStrings (.table d.data) (.table d'.data) := by
  unfold keyValueRule at read
  obtain ⟨⟨key, left⟩, -, read⟩ := bind_eq_ok.mp read
  simp only at read
  split at read
  · obtain ⟨⟨value, left⟩, -, read⟩ := bind_eq_ok.mp read
    simp only at read
    split at read
    · cases read
    split at read
    · cases read
    · obtain ⟨data, stored, same⟩ := bind_eq_ok.mp read
      cases same
      exact (keeping_addKey _ _ _).updateNest _ _ _ stored
  · cases read

theorem keeps_createDictRule {d d' : Doc} {src rest : List Char} (read : createDictRule d src = .ok (d', rest)) :
    KeepsStrings (.table d.data) (.table d'.data) := by
  unfold createDictRule at read
  obtain ⟨⟨key, left⟩, -, read⟩ := bind_eq_ok.mp read
  simp only at read
  split at read
  · cases read
  obtain ⟨data, stored, read⟩ := bind_eq_ok.mp read
  split at read
  · cases read
    exact keeping_ok.updateNest _ _ _ stored
  · cases read

theorem keeps_createListRule {d d' : Doc} {src rest : List Char} (read : createListRule d src = .ok (d', rest)) :
    KeepsStrings (.table d.data) (.table d'.data) := by
  unfold createListRule at read
  obtain ⟨⟨key, left⟩, -, read⟩ := bind_eq_ok.mp read
  simp only at read
  split at read
  · cases read
  obtain ⟨data, stored, read⟩ := bind_eq_ok.mp read
  split at read
  · cases read
    exact (keeping_appendTable _).updateNest _ _ _ stored
  · cases read

theorem keeps_statement {d d' : Doc} {src rest : List Char} (read : statement d src = .ok (d', rest)) :
    KeepsStrings (.table d.data) (.table d'.data) := by
  unfold statement at read
  split at read
  · have kept := keeps_createListRule read
    exact kept
  · have kept := keeps_createDictRule read
    exact kept
  · cases read
    exact .refl _
  · split at read
    · exact keeps_keyValueRule read
    · cases read
  · cases read
    exact .refl _

/-- **Strings that are stored stay to the end of the document.** -/
theorem keeps_statements {n : Nat} {d : Doc} {src : List Char} {t : Table} (read : statements n d src = .ok t) :
    KeepsStrings (.table d.data) (.table t) := by
  induction n generalizing d src with
  | zero => cases read
  | succ n ih =>
    unfold statements at read
    split at read
    · cases read
      exact .refl _
    · exact ih read
    · obtain ⟨⟨d', left⟩, one, read⟩ := bind_eq_ok.mp read
      obtain ⟨left', -, read⟩ := bind_eq_ok.mp read
      split at read
      · cases read
        exact keeps_statement one
      · exact (keeps_statement one).trans (ih read)
      · cases read

end McpSsh.Toml
