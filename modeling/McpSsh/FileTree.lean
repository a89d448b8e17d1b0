import McpSsh.Sync
import McpSsh.Base.NormPath

/-!
# A file tree and its paths

The tree of directories and files that a server holds, where every directory has
one entry of a name, and what a path leads to: component by component, from the root
or from the directory the server starts in.
-/

set_option autoImplicit false

namespace McpSsh

open Base

theorem FileName.ext_text {m n : FileName} (same : m.text = n.text) : m = n := by
  cases m
  cases n
  cases same
  rfl

/-- A name other than `.` and `..` is a component of its own. -/
theorem FileName.not_dots {name : FileName} (plain : name.isDots = false) :
    ¬ (name.text.toList = [] ∨ name.text.toList = ['.']) ∧ name.text.toList ≠ dotdot := by
  refine ⟨?_, fun up => ?_⟩
  · rintro (empty | dot)
    · exact name.toList_ne_nil empty
    · have same : name.text = "." := String.toList_inj.mp dot
      simp [FileName.isDots, same] at plain
  · have same : name.text = ".." := String.toList_inj.mp up
    simp [FileName.isDots, same] at plain

namespace Listing

/-- The entry with this name; `.` and `..` are no entries of their own. -/
def find (comp : List Char) : Listing → Option (FileName × SftpAttrs × Listing)
  | .nil => none
  | .cons name attrs below rest =>
    if name.isDots = false ∧ name.text.toList = comp then some (name, attrs, below) else rest.find comp

/-- No directory has two entries of one name. -/
def Distinct : Listing → Prop
  | .nil => True
  | .cons name _ below rest => rest.find name.text.toList = none ∧ below.Distinct ∧ rest.Distinct

theorem find_spec {l : Listing} {comp : List Char} {name : FileName} {attrs : SftpAttrs} {below : Listing}
    (found : l.find comp = some (name, attrs, below)) : name.isDots = false ∧ name.text.toList = comp := by
  induction l with
  | nil => cases found
  | cons first firstAttrs firstBelow rest _ ih =>
    rw [find] at found
    split at found
    · rename_i here
      cases found
      exact here
    · exact ih found

theorem Distinct.below {l : Listing} (distinct : l.Distinct) {comp : List Char} {name : FileName}
    {attrs : SftpAttrs} {below : Listing} (found : l.find comp = some (name, attrs, below)) : below.Distinct := by
  induction l with
  | nil => cases found
  | cons first firstAttrs firstBelow rest _ ih =>
    rw [find] at found
    split at found
    · cases found
      exact distinct.2.1
    · exact ih distinct.2.2 found

end Listing

/-- What a location holds: its attributes, and its entries if it is a directory. -/
abbrev Node := SftpAttrs × Listing

namespace Node

/-- Going down by names, through directories. -/
def descend (node : Node) : List FileName → Option Node
  | [] => some node
  | name :: names =>
    if node.1.isDir then
      match node.2.find name.text.toList with
      | some (_, attrs, below) => descend (attrs, below) names
      | none => none
    else none

theorem descend_cons {node last : Node} {name : FileName} {names : List FileName} :
    node.descend (name :: names) = some last ↔ node.1.isDir = true ∧ ∃ attrs below,
      node.2.find name.text.toList = some (name, attrs, below) ∧ descend (attrs, below) names = some last := by
  rw [descend]
  split
  · rename_i dir
    cases found : node.2.find name.text.toList with
    | none => simp
    | some entry =>
      obtain ⟨other, attrs, below⟩ := entry
      obtain rfl : other = name := FileName.ext_text (String.toList_inj.mp (Listing.find_spec found).2)
      simp [dir]
  · rename_i file
    simp [file]

theorem descend_append (node : Node) (front back : List FileName) :
    node.descend (front ++ back) = (node.descend front).bind fun mid => mid.descend back := by
  induction front generalizing node with
  | nil => rfl
  | cons name front ih =>
    rw [List.cons_append, descend, descend]
    split
    · cases node.2.find name.text.toList with
      | none => rfl
      | some entry => exact ih _
    · rfl

/-- The names that lead somewhere are proper ones. -/
theorem plain_of_descend {node last : Node} {names : List FileName} (reached : node.descend names = some last) :
    ∀ name ∈ names, name.isDots = false := by
  induction names generalizing node with
  | nil => simp
  | cons name names ih =>
    obtain ⟨-, attrs, below, found, inside⟩ := descend_cons.mp reached
    exact List.forall_mem_cons.mpr ⟨(Listing.find_spec found).1, ih inside⟩

theorem descend_singleton {node last : Node} {name : FileName} : node.descend [name] = some last ↔
    node.1.isDir = true ∧ node.2.find name.text.toList = some (name, last.1, last.2) := by
  rw [descend_cons]
  constructor
  · rintro ⟨dir, attrs, below, found, same⟩
    cases same
    exact ⟨dir, found⟩
  · rintro ⟨dir, found⟩
    exact ⟨dir, last.1, last.2, found, rfl⟩

end Node

namespace Listing

/-- A listing reads an entry that it holds. -/
theorem reads_of_find {l : Listing} {dirPath : String} {comp : List Char} {name : FileName} {subAttrs a : SftpAttrs}
    {sub : Listing} {names : List FileName} (found : l.find comp = some (name, subAttrs, sub))
    (held : (subAttrs.isDir = false ∧ names = [] ∧ subAttrs = a) ∨
      (subAttrs.isDir = true ∧ sub.Reads (fun _ => false) (joinPath dirPath name.text) names a)) :
    l.Reads (fun _ => false) dirPath (name :: names) a := by
  induction l with
  | nil => cases found
  | cons first firstAttrs firstBelow rest _ ih =>
    rw [find] at found
    split at found
    · rename_i here
      cases found
      rcases held with ⟨file, rfl, rfl⟩ | ⟨subDir, inside⟩
      · exact .here here.1 file
      · exact .down here.1 subDir rfl inside
    · exact .skip (ih found)

theorem descend_of_reads {l : Listing} (distinct : l.Distinct) {attrs : SftpAttrs} (dir : attrs.isDir = true)
    {dirPath : String} {names : List FileName} {a : SftpAttrs} (reads : l.Reads (fun _ => false) dirPath names a) :
    ∃ below, Node.descend (attrs, l) names = some (a, below) ∧ a.isDir = false := by
  induction reads generalizing attrs with
  | @here _ name a below rest plain file =>
    refine ⟨below, ?_, file⟩
    rw [Node.descend_singleton]
    exact ⟨dir, by simp [find, plain]⟩
  | @down dirPath name subAttrs sub rest names a plain subDir _ _ ih =>
    obtain ⟨below, reached, file⟩ := ih distinct.2.1 subDir
    refine ⟨below, ?_, file⟩
    rw [Node.descend_cons]
    exact ⟨dir, subAttrs, sub, by simp [find, plain], reached⟩
  | @skip dirPath name subAttrs sub rest names a later ih =>
    obtain ⟨below, reached, file⟩ := ih distinct.2.2 dir
    refine ⟨below, ?_, file⟩
    cases names with
    | nil =>
      rw [Node.descend, Option.some.injEq, Prod.mk.injEq] at reached
      rw [← reached.1, dir] at file
      cases file
    | cons first names =>
      obtain ⟨_, firstAttrs, firstBelow, found, inside⟩ := Node.descend_cons.mp reached
      rw [Node.descend_cons]
      refine ⟨dir, firstAttrs, firstBelow, ?_, inside⟩
      -- the entry before it has another name
      have other : ¬ (name.isDots = false ∧ name.text.toList = first.text.toList) := by
        rintro ⟨-, same⟩
        rw [← same, distinct.1] at found
        cases found
      rw [find, if_neg other]
      exact found

theorem reads_of_descend {l : Listing} {attrs : SftpAttrs} (dir : attrs.isDir = true) {dirPath : String}
    {names : List FileName} {a : SftpAttrs} {below : Listing} (reached : Node.descend (attrs, l) names = some (a, below))
    (file : a.isDir = false) : l.Reads (fun _ => false) dirPath names a := by
  induction names generalizing attrs l dirPath with
  | nil =>
    rw [Node.descend, Option.some.injEq, Prod.mk.injEq] at reached
    rw [← reached.1, dir] at file
    cases file
  | cons name names ih =>
    obtain ⟨-, subAttrs, sub, found, inside⟩ := Node.descend_cons.mp reached
    apply reads_of_find found
    cases subDir : subAttrs.isDir with
    | true => exact .inr ⟨rfl, ih subDir inside⟩
    | false =>
      cases names with
      | nil =>
        rw [Node.descend, Option.some.injEq, Prod.mk.injEq] at inside
        exact .inl ⟨rfl, rfl, inside.1⟩
      | cons second names =>
        have nested := (Node.descend_cons.mp inside).1
        rw [subDir] at nested
        cases nested

/-- **The files a listing reads are those below it.** -/
theorem reads_iff_descend {l : Listing} (distinct : l.Distinct) {attrs : SftpAttrs} (dir : attrs.isDir = true)
    (dirPath : String) {names : List FileName} {a : SftpAttrs} : l.Reads (fun _ => false) dirPath names a ↔
      ∃ below, Node.descend (attrs, l) names = some (a, below) ∧ a.isDir = false := by
  constructor
  · exact descend_of_reads distinct dir
  · rintro ⟨below, reached, file⟩
    exact reads_of_descend dir reached file

end Listing

/-- A server's files, and where its relative paths start. -/
structure FileTree where
  attrs : SftpAttrs
  root : Listing
  cwd : List FileName
  isDir : attrs.isDir = true
  distinct : root.Distinct
  /-- The starting directory is there. -/
  home : ∃ node, Node.descend (attrs, root) cwd = some node ∧ node.1.isDir = true

namespace FileTree

variable (t : FileTree)

/-- What is at a location, by the names that go down to it from the root. -/
def node (loc : List FileName) : Option Node := Node.descend (t.attrs, t.root) loc

def IsDir (loc : List FileName) : Prop := ∃ node, t.node loc = some node ∧ node.1.isDir = true

def IsFile (loc : List FileName) : Prop := ∃ node, t.node loc = some node ∧ node.1.isDir = false

/-- A component of a path, from a directory. -/
def step (loc : List FileName) (comp : List Char) : Option (List FileName) :=
  match t.node loc with
  | none => none
  | some node =>
    if node.1.isDir = false then none
    else if comp = [] ∨ comp = ['.'] then some loc
    else if comp = dotdot then some loc.dropLast
    else (node.2.find comp).map fun entry => loc ++ [entry.1]

/-- Where the path starts. -/
def start (path : String) : List FileName := if path.toList.head? = some '/' then [] else t.cwd

/-- The location that a path leads to. -/
def resolve (path : String) : Option (List FileName) := (segments path.toList).foldlM t.step (t.start path)

/-- What the server answers about a path, when no request fails. -/
def remote (path : String) : RemotePath := { root := (t.resolve path).bind t.node }

/-- The server, with what its `glob` answers. -/
def server (glob : String → Option (List String)) : SftpServer := ⟨t.remote, glob⟩

variable {t}

/-! ## Locations -/

theorem isDir_start (path : String) : t.IsDir (t.start path) := by
  unfold start
  split
  · exact ⟨_, rfl, t.isDir⟩
  · exact t.home

theorem IsDir.not_isFile {loc : List FileName} (dir : t.IsDir loc) : ¬ t.IsFile loc := by
  rintro ⟨node, at_, file⟩
  obtain ⟨other, again, dir⟩ := dir
  rw [at_, Option.some.injEq] at again
  rw [again, dir] at file
  cases file

/-- What holds a location is a directory. -/
theorem isDir_of_node_append {front : List FileName} {name : FileName} {back : List FileName} {node : Node}
    (at_ : t.node (front ++ name :: back) = some node) : t.IsDir front := by
  rw [FileTree.node, Node.descend_append] at at_
  obtain ⟨mid, reached, inside⟩ := Option.bind_eq_some_iff.mp at_
  exact ⟨mid, reached, (Node.descend_cons.mp inside).1⟩

theorem isDir_dropLast {loc : List FileName} (dir : t.IsDir loc) : t.IsDir loc.dropLast := by
  rcases List.eq_nil_or_concat loc with rfl | ⟨front, last, rfl⟩
  · exact dir
  · rw [List.concat_eq_append] at dir ⊢
    obtain ⟨node, at_, -⟩ := dir
    rw [List.dropLast_concat]
    exact isDir_of_node_append at_

theorem distinct_of_descend {node last : Node} (distinct : node.2.Distinct) {names : List FileName}
    (reached : node.descend names = some last) : last.2.Distinct := by
  induction names generalizing node with
  | nil =>
    cases reached
    exact distinct
  | cons name names ih =>
    obtain ⟨-, attrs, below, found, inside⟩ := Node.descend_cons.mp reached
    exact @ih (attrs, below) (distinct.below found) inside

/-! ## Paths -/

theorem step_of_isDir {loc : List FileName} (dir : t.IsDir loc) {comp : List Char} (same : comp = [] ∨ comp = ['.']) :
    t.step loc comp = some loc := by
  obtain ⟨node, at_, dir⟩ := dir
  rw [step, at_]
  simp [dir, same]

theorem isDir_of_step {loc next : List FileName} {comp : List Char} (stepped : t.step loc comp = some next) :
    t.IsDir loc := by
  unfold step at stepped
  split at stepped
  · cases stepped
  · rename_i node at_
    split at stepped
    · cases stepped
    · rename_i dir
      exact ⟨node, at_, by simpa using dir⟩

/-- A component leads to a directory further up or the same, or to an entry. -/
theorem step_cases {loc next : List FileName} {comp : List Char} (stepped : t.step loc comp = some next) :
    t.IsDir next ∨ ∃ name : FileName, next = loc ++ [name] ∧ name.text.toList = comp ∧ (t.node next).isSome = true := by
  have dir := isDir_of_step stepped
  obtain ⟨node, at_, isDir⟩ := id dir
  rw [step, at_] at stepped
  simp only [isDir, Bool.true_eq_false, if_false] at stepped
  split at stepped
  · cases stepped
    exact .inl dir
  split at stepped
  · cases stepped
    exact .inl (isDir_dropLast dir)
  · obtain ⟨⟨name, attrs, below⟩, found, rfl⟩ := Option.map_eq_some_iff.mp stepped
    refine .inr ⟨name, rfl, (Listing.find_spec found).2, ?_⟩
    rw [FileTree.node, Node.descend_append]
    have inside : node.descend [name] = some (attrs, below) := by
      rw [Node.descend_singleton, (Listing.find_spec found).2]
      exact ⟨isDir, found⟩
    change ((t.node loc).bind fun mid => mid.descend [name]).isSome = true
    rw [at_, Option.bind_some, inside]
    rfl

/-- A component that is a name leads to the entry of that name. -/
theorem step_name {loc : List FileName} {name : FileName} {node : Node} (at_ : t.node (loc ++ [name]) = some node) :
    t.step loc name.text.toList = some (loc ++ [name]) := by
  rw [FileTree.node, Node.descend_append] at at_
  obtain ⟨mid, reached, inside⟩ := Option.bind_eq_some_iff.mp at_
  obtain ⟨dir, found⟩ := Node.descend_singleton.mp inside
  obtain ⟨some_, down⟩ := FileName.not_dots (Listing.find_spec found).1
  have here : t.node loc = some mid := reached
  rw [step, here]
  simp only [dir, Bool.true_eq_false, some_, down, if_false, found, Option.map_some]

theorem step_ends {loc next : List FileName} {name : FileName} (plain : name.isDots = false)
    (stepped : t.step loc name.text.toList = some next) : next = loc ++ [name] := by
  have dir := isDir_of_step stepped
  obtain ⟨node, at_, isDir⟩ := id dir
  obtain ⟨some_, down⟩ := FileName.not_dots plain
  rw [step, at_] at stepped
  simp only [isDir, Bool.true_eq_false, some_, down, if_false] at stepped
  obtain ⟨⟨other, attrs, below⟩, found, rfl⟩ := Option.map_eq_some_iff.mp stepped
  rw [FileName.ext_text (String.toList_inj.mp (Listing.find_spec found).2)]

/-- Following proper names goes down by them, where there is something. -/
theorem follow_iff {names : List FileName} (plain : ∀ name ∈ names, name.isDots = false) (loc : List FileName)
    (here : (t.node loc).isSome = true) (next : List FileName) :
    (names.map fun name => name.text.toList).foldlM t.step loc = some next ↔
      next = loc ++ names ∧ (t.node (loc ++ names)).isSome = true := by
  induction names generalizing loc with
  | nil => simp [here, eq_comm]
  | cons name names ih =>
    rw [List.map_cons, List.foldlM_cons]
    have whole : loc ++ name :: names = loc ++ [name] ++ names := by simp
    rw [whole]
    constructor
    · intro followed
      obtain ⟨mid, stepped, rest⟩ := Option.bind_eq_some_iff.mp followed
      obtain rfl := step_ends (plain name (by simp)) stepped
      have mid_ : (t.node (loc ++ [name])).isSome = true := by
        rcases step_cases stepped with ⟨node, at_, -⟩ | ⟨_, -, -, some_⟩
        · rw [at_]
          rfl
        · exact some_
      exact (ih (fun other member => plain other (by simp [member])) _ mid_).mp rest
    · rintro ⟨rfl, some_⟩
      obtain ⟨last, reached⟩ := Option.isSome_iff_exists.mp some_
      obtain ⟨mid, at_⟩ : ∃ mid, t.node (loc ++ [name]) = some mid := by
        rw [FileTree.node, Node.descend_append] at reached
        obtain ⟨mid, at_, -⟩ := Option.bind_eq_some_iff.mp reached
        exact ⟨mid, at_⟩
      refine Option.bind_eq_some_iff.mpr ⟨loc ++ [name], step_name at_, ?_⟩
      exact (ih (fun other member => plain other (by simp [member])) _ (by rw [at_]; rfl)).mpr ⟨rfl, some_⟩

/-- What a path leads to is there. -/
theorem node_of_foldlM {comps : List (List Char)} {loc next : List FileName} (here : (t.node loc).isSome = true)
    (followed : comps.foldlM t.step loc = some next) : (t.node next).isSome = true := by
  induction comps generalizing loc with
  | nil =>
    cases followed
    exact here
  | cons comp comps ih =>
    rw [List.foldlM_cons] at followed
    obtain ⟨mid, stepped, rest⟩ := Option.bind_eq_some_iff.mp followed
    refine ih ?_ rest
    rcases step_cases stepped with ⟨node, at_, -⟩ | ⟨_, -, -, some_⟩
    · rw [at_]
      rfl
    · exact some_

theorem node_of_resolve {path : String} {loc : List FileName} (leads : t.resolve path = some loc) :
    ∃ node, t.node loc = some node := by
  obtain ⟨node, at_, -⟩ := t.isDir_start path
  exact Option.isSome_iff_exists.mp (node_of_foldlM (by rw [at_]; rfl) leads)

/-- A step fails where there is no directory. -/
theorem foldlM_segments_of_not_isDir {loc : List FileName} (file : ¬ t.IsDir loc) (path : List Char) :
    (segments path).foldlM t.step loc = none := by
  cases comps : segments path with
  | nil => exact absurd comps (segments_ne_nil path)
  | cons first others =>
    rw [List.foldlM_cons]
    cases stepped : t.step loc first with
    | none => rfl
    | some next => exact absurd (isDir_of_step stepped) file

/-- **A joined path leads on from where its base leads to.** -/
theorem resolve_joinPath (a : String) {b : String} (relative : b.toList.head? ≠ some '/') :
    t.resolve (joinPath a b) = (t.resolve a).bind fun loc => (segments b.toList).foldlM t.step loc := by
  have starts : t.start (joinPath a b) = t.start a := by
    rw [start, start]
    simp only [head_joinPath a relative]
  rw [resolve, resolve, starts]
  rcases joinPath_spec a relative with ⟨rfl, same⟩ | ⟨front, whole, before | ⟨before, -⟩⟩
  · rw [same]
    have here : (segments "".toList).foldlM t.step (t.start "") = some (t.start "") := by
      simp [segments, step_of_isDir (isDir_start "")]
    rw [here]
    rfl
  · rw [whole, before, segments_append_slash, segments_append_slash, List.foldlM_append, List.foldlM_append]
    cases (segments front).foldlM t.step (t.start a) with
    | none => rfl
    | some loc =>
      by_cases dir : t.IsDir loc
      · have here : (segments []).foldlM t.step loc = some loc := by simp [segments, step_of_isDir dir]
        simp [here]
      · simp [foldlM_segments_of_not_isDir dir]
  · rw [whole, before, segments_append_slash, List.foldlM_append]
    rfl

/-- Slashes at the end lead no further. -/
theorem foldlM_segments_slashes {loc next : List FileName} {front : List Char} {count : Nat}
    (leads : (segments (front ++ List.replicate count '/')).foldlM t.step loc = some next) :
    (segments front).foldlM t.step loc = some next := by
  induction count generalizing next with
  | zero => simpa using leads
  | succ count ih =>
    rw [List.replicate_succ', ← List.append_assoc, segments_append_slash, List.foldlM_append] at leads
    obtain ⟨mid, followed, last⟩ := Option.bind_eq_some_iff.mp leads
    have dir : t.IsDir mid := by
      by_contra file
      rw [foldlM_segments_of_not_isDir file] at last
      cases last
    have here : (segments []).foldlM t.step mid = some mid := by simp [segments, step_of_isDir dir]
    rw [here] at last
    cases last
    exact ih followed

/-- Slashes alone lead to where they start. -/
theorem resolve_slashes {path : String} (slashes : stripSlashes path = "") : t.resolve path = some (t.start path) := by
  obtain ⟨count, whole⟩ := toList_stripSlashes path
  have stay : ∀ {loc : List FileName}, t.IsDir loc →
      (segments (List.replicate count '/')).foldlM t.step loc = some loc := by
    intro loc dir
    clear whole
    induction count with
    | zero => simp [segments, step_of_isDir dir]
    | succ count ih => simpa [List.replicate_succ, segments, step_of_isDir dir] using ih
  rw [resolve, whole, slashes]
  exact stay (isDir_start path)

theorem start_of_slashes {path : String} (slashes : stripSlashes path = "") (some_ : path ≠ "") :
    t.start path = [] := by
  obtain ⟨count, whole⟩ := toList_stripSlashes path
  rw [slashes] at whole
  cases count with
  | zero => exact absurd (String.toList_eq_nil_iff.mp whole) some_
  | succ count => rw [start, whole, if_pos (by simp [List.replicate_succ])]

theorem resolve_stripSlashes {path : String} {loc : List FileName} (leads : t.resolve path = some loc)
    (some_ : stripSlashes path ≠ "") : t.resolve (stripSlashes path) = some loc := by
  obtain ⟨count, whole⟩ := toList_stripSlashes path
  have chars : (stripSlashes path).toList ≠ [] := by simpa [String.toList_eq_nil_iff] using some_
  have starts : t.start path = t.start (stripSlashes path) := by
    rw [start, start, whole, List.head?_append_of_ne_nil _ chars]
  rw [resolve, whole, starts] at leads
  exact foldlM_segments_slashes leads

/-- A path that leads to a file ends with the file's name. -/
theorem basename_of_isFile {path : String} {loc : List FileName} (leads : t.resolve path = some loc)
    (file : t.IsFile loc) : ∃ front name, loc = front ++ [name] ∧ name.text = basename path := by
  obtain ⟨init, whole⟩ := segments_basename path
  rw [resolve, whole, List.foldlM_append] at leads
  obtain ⟨mid, -, last⟩ := Option.bind_eq_some_iff.mp leads
  rw [List.foldlM_cons] at last
  obtain ⟨next, stepped, same⟩ := Option.bind_eq_some_iff.mp last
  cases same
  rcases step_cases stepped with dir | ⟨name, rfl, text, -⟩
  · exact absurd file dir.not_isFile
  · exact ⟨mid, name, rfl, String.toList_inj.mp text⟩

end FileTree

end McpSsh
