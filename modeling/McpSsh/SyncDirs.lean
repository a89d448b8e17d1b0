import McpSsh.SyncSource

/-!
# The directories that a sync needs

Before it copies a file, `_sync_cross_server` asks for one directory, the one the file goes
into, and passes over the failure. A directory whose parent is missing as well stays
missing, and the copy fails.
-/

set_option autoImplicit false

namespace McpSsh

open Base

/-! ## Places on a server -/

/-- What is at the locations of a server: each thing is in a directory. -/
structure Places where
  cwd : List FileName
  dir : List FileName → Bool
  there : List FileName → Bool
  root : dir [] = true
  home : dir cwd = true
  present : ∀ loc, dir loc = true → there loc = true
  closed : ∀ loc name, there (loc ++ [name]) = true → dir loc = true

/-- The file name that a component of a path is. -/
def FileName.ofComp (comp : List Char) : Option FileName :=
  if proper : comp ≠ [] ∧ '/' ∉ comp then
    some ⟨String.ofList comp, by simpa using proper.1, by simpa using proper.2⟩
  else none

theorem FileName.ofComp_text (name : FileName) : FileName.ofComp name.text.toList = some name := by
  rw [ofComp, dif_pos ⟨name.toList_ne_nil, name.solid⟩]
  congr 1
  exact FileName.ext_text String.ofList_toList

namespace Places

/-- Going on by one component of a path. The last one need not be there. -/
def step (p : Places) (loc : List FileName) (comp : List Char) : Option (List FileName) :=
  if comp = [] then some loc
  else if p.dir loc = false then none
  else if comp = ['.'] then some loc
  else if comp = dotdot then some loc.dropLast
  else (FileName.ofComp comp).map fun name => loc ++ [name]

def start (p : Places) (path : String) : List FileName := if path.toList.head? = some '/' then [] else p.cwd

/-- The location that a path names, if the directories above it are there. -/
def locate (p : Places) (path : String) : Option (List FileName) :=
  (segments path.toList).foldlM p.step (p.start path)

/-- With a directory or a file added in a directory. -/
def add (p : Places) (loc : List FileName) (isDir : Bool) (parent : p.dir loc.dropLast = true) : Places where
  cwd := p.cwd
  dir l := p.dir l || (isDir && l = loc)
  there l := p.there l || l = loc
  root := by simp [p.root]
  home := by simp [p.home]
  present l := by
    rw [Bool.or_eq_true, Bool.or_eq_true, Bool.and_eq_true]
    exact Or.imp (p.present l) And.right
  closed l name := by
    rw [Bool.or_eq_true, Bool.or_eq_true, decide_eq_true_eq]
    rintro (old | new)
    · exact .inl (p.closed l name old)
    · rw [← new, List.dropLast_concat] at parent
      exact .inl parent

/-- `mkdir`: the parent is there, and the path is not. -/
def mkdir (p : Places) (path : String) : Option Places := do
  let loc ← p.locate path
  if free : p.dir loc.dropLast = true ∧ p.there loc = false then some (p.add loc true free.1) else none

/-- `scp` to a path: its directory is there. -/
def scp (p : Places) (path : String) : Option Places := do
  let loc ← p.locate path
  if parent : p.dir loc.dropLast = true then some (p.add loc false parent) else none

/-- The places after a request, if it goes through. -/
def after (p : Places) : SyncCall → Places
  | .mkdir path => (p.mkdir path).getD p
  | .scp _ _ dst _ => (p.scp dst).getD p
  | .remove _ _ => p

end Places

/-- The places of a file tree. -/
def FileTree.places (t : FileTree) : Places where
  cwd := t.cwd
  dir loc := (t.node loc).any fun node => node.1.isDir
  there loc := (t.node loc).isSome
  root := by simp [FileTree.node, Node.descend, t.isDir]
  home := by
    obtain ⟨node, at_, dir⟩ := t.home
    simp [FileTree.node, at_, dir]
  present loc := by
    cases t.node loc <;> simp
  closed loc name some_ := by
    obtain ⟨node, at_⟩ := Option.isSome_iff_exists.mp some_
    obtain ⟨above, at_, dir⟩ := FileTree.isDir_of_node_append at_
    simp [at_, dir]

namespace Places

section

variable {p q : Places} {loc next : List FileName}

/-! ## What a path names -/

theorem dir_dropLast (dir : p.dir loc = true) : p.dir loc.dropLast = true := by
  obtain rfl | ⟨front, last, rfl⟩ := List.eq_nil_or_concat loc
  · exact p.root
  · rw [List.concat_eq_append] at dir ⊢
    rw [List.dropLast_concat]
    exact p.closed front last (p.present _ dir)

theorem dir_add {isDir : Bool} (parent : p.dir loc.dropLast = true) {l : List FileName} :
    (p.add loc isDir parent).dir l = true ↔ p.dir l = true ∨ isDir = true ∧ l = loc := by
  simp only [add, Bool.or_eq_true, Bool.and_eq_true, decide_eq_true_eq]

theorem there_add {isDir : Bool} (parent : p.dir loc.dropLast = true) {l : List FileName} :
    (p.add loc isDir parent).there l = true ↔ p.there l = true ∨ l = loc := by
  simp only [add, Bool.or_eq_true, decide_eq_true_eq]

theorem dir_start (path : String) : p.dir (p.start path) = true := by
  unfold start
  split
  · exact p.root
  · exact p.home

theorem step_nil (loc : List FileName) : p.step loc [] = some loc := if_pos rfl

theorem dropLast_step {comp : List Char} (parent : p.dir loc.dropLast = true)
    (stepped : p.step loc comp = some next) : p.dir next.dropLast = true := by
  unfold step at stepped
  split at stepped
  · cases stepped
    exact parent
  split at stepped
  · cases stepped
  rename_i dir
  have dir : p.dir loc = true := by simpa using dir
  split at stepped
  · cases stepped
    exact parent
  split at stepped
  · cases stepped
    exact dir_dropLast parent
  · obtain ⟨name, -, rfl⟩ := Option.map_eq_some_iff.mp stepped
    rwa [List.dropLast_concat]

theorem dropLast_follow {comps : List (List Char)} (parent : p.dir loc.dropLast = true)
    (followed : comps.foldlM p.step loc = some next) : p.dir next.dropLast = true := by
  induction comps generalizing loc with
  | nil =>
    cases followed
    exact parent
  | cons comp comps ih =>
    rw [List.foldlM_cons] at followed
    obtain ⟨mid, stepped, rest⟩ := Option.bind_eq_some_iff.mp followed
    exact ih (dropLast_step parent stepped) rest

/-- What a path names is in a directory. -/
theorem dropLast_locate {path : String} (located : p.locate path = some loc) : p.dir loc.dropLast = true :=
  dropLast_follow (dir_dropLast (dir_start path)) located

/-- With more directories, a path names what it named. -/
theorem follow_mono (more : ∀ l, p.dir l = true → q.dir l = true) {comps : List (List Char)}
    (followed : comps.foldlM p.step loc = some next) : comps.foldlM q.step loc = some next := by
  induction comps generalizing loc with
  | nil => exact followed
  | cons comp comps ih =>
    rw [List.foldlM_cons] at followed ⊢
    obtain ⟨mid, stepped, rest⟩ := Option.bind_eq_some_iff.mp followed
    refine Option.bind_eq_some_iff.mpr ⟨mid, ?_, ih rest⟩
    unfold step at stepped ⊢
    split
    · rwa [if_pos ‹_›] at stepped
    · rename_i some_
      rw [if_neg some_] at stepped
      obtain ⟨dir, stepped⟩ := Option.ite_none_left_eq_some.mp stepped
      have dir := more loc (by simpa using dir)
      rw [if_neg (by simp [dir])]
      exact stepped

theorem locate_mono (more : ∀ l, p.dir l = true → q.dir l = true) (cwd : q.cwd = p.cwd) {path : String}
    (located : p.locate path = some loc) : q.locate path = some loc := by
  have starts : q.start path = p.start path := by rw [start, start, cwd]
  rw [locate, starts]
  exact follow_mono more located

theorem follow_slashes (front : List Char) (count : Nat) (loc : List FileName) :
    (segments (front ++ List.replicate count '/')).foldlM p.step loc = (segments front).foldlM p.step loc := by
  induction count with
  | zero => simp
  | succ count ih =>
    rw [List.replicate_succ', ← List.append_assoc, segments_append_slash, List.foldlM_append, ih]
    have last : ∀ l, (segments []).foldlM p.step l = some l := fun l => by simp [segments, step_nil]
    simp only [last]
    cases (segments front).foldlM p.step loc <;> rfl

/-- The directory of a path is named by its components but the last. -/
theorem locate_dirname (path : String) :
    p.locate (dirname path) = (segments path.toList).dropLast.foldlM p.step (p.start path) := by
  obtain ⟨solid, none_⟩ | ⟨front, last, whole, solid, init⟩ := segments_dropLast path.toList
  · have relative : path.toList.head? ≠ some '/' := by
      intro slash
      exact solid (List.mem_of_head? slash)
    rw [none_, dirname_of_solid solid, locate, start, start, if_neg relative]
    simp [segments, step_nil]
  · rw [init, dirname_split whole solid, locate]
    have back : (segments (front ++ ['/'])).foldlM p.step (p.start path) =
        (segments front).foldlM p.step (p.start path) := follow_slashes front 1 _
    split
    · rename_i slashes
      have starts : p.start (String.ofList (front ++ ['/'])) = p.start path := by
        rw [start, start, String.toList_ofList, whole]
        cases front <;> rfl
      rw [starts, String.toList_ofList, back]
    · rename_i slashes
      obtain ⟨count, stripped⟩ := toList_stripSlashes (String.ofList (front ++ ['/']))
      rw [String.toList_ofList] at stripped
      have some_ : (stripSlashes (String.ofList (front ++ ['/']))).toList ≠ [] := by
        intro empty
        rw [empty, List.nil_append] at stripped
        apply slashes
        rw [List.all_eq_true]
        intro c member
        have inside : c ∈ List.replicate count '/' := stripped ▸ List.mem_append_left _ member
        simp [(List.mem_replicate.mp inside).2]
      have starts : p.start (stripSlashes (String.ofList (front ++ ['/']))) = p.start path := by
        have head := congrArg List.head? stripped
        rw [List.head?_append_of_ne_nil _ some_] at head
        rw [start, start, ← head, whole]
        cases front <;> rfl
      rw [starts, ← back]
      conv_rhs => rw [stripped, follow_slashes]

/-- A joined path goes on from where its base is. -/
theorem segments_join (p : Places) (a : String) {b : String} (relative : b.toList.head? ≠ some '/') :
    ∃ before, segments (joinPath a b).toList = before ++ segments b.toList ∧
      before.foldlM p.step (p.start (joinPath a b)) = p.locate a := by
  have starts : p.start (joinPath a b) = p.start a := by
    rw [start, start]
    simp only [head_joinPath a relative]
  rw [starts, locate]
  obtain ⟨rfl, same⟩ | ⟨front, whole, before | ⟨before, -⟩⟩ := joinPath_spec a relative
  · refine ⟨[], by rw [same]; rfl, ?_⟩
    simp [segments, step_nil]
  · refine ⟨segments front, by rw [whole, segments_append_slash], ?_⟩
    rw [before]
    exact (follow_slashes front 1 _).symm
  · exact ⟨segments front, by rw [whole, segments_append_slash], by rw [before]⟩

/-- Proper names lead down through directories. -/
theorem follow_names {names : List FileName} (plain : ∀ name ∈ names, name.isDots = false) (loc : List FileName) :
    (names.map fun name => name.text.toList).foldlM p.step loc =
      if names = [] ∨ p.dir (loc ++ names.dropLast) = true then some (loc ++ names) else none := by
  induction names using List.reverseRecOn with
  | nil => simp
  | append_singleton names name ih =>
    have front := ih fun other member => plain other (List.mem_append_left _ member)
    obtain ⟨some_, down⟩ := FileName.not_dots (plain name (by simp))
    rw [not_or] at some_
    rw [List.map_append, List.foldlM_append, front, List.dropLast_concat]
    have stepped : p.step (loc ++ names) name.text.toList =
        if p.dir (loc ++ names) = true then some (loc ++ (names ++ [name])) else none := by
      rw [step, if_neg some_.1, if_neg some_.2, if_neg down, FileName.ofComp_text, Option.map_some, List.append_assoc]
      cases p.dir (loc ++ names) <;> rfl
    cases dir : p.dir (loc ++ names) with
    | true =>
      have above : names = [] ∨ p.dir (loc ++ names.dropLast) = true := by
        by_cases top : names = []
        · exact .inl top
        · refine .inr ?_
          rw [← List.dropLast_append_of_ne_nil top]
          exact dir_dropLast dir
      rw [if_pos above]
      simp [stepped, dir]
    | false =>
      split <;> simp [stepped, dir]

/-! ## The directory and the place of one file -/

section

variable {dstPath : String} {top names : List FileName}

/-- Where a file goes, relative to the destination. -/
theorem locate_file (located : p.locate dstPath = some top) (plain : ∀ name ∈ names, name.isDots = false)
    (inside : names ≠ []) : p.locate (joinPath dstPath (relPath names)) =
      if p.dir (top ++ names.dropLast) = true then some (top ++ names) else none := by
  obtain ⟨before, whole, leads⟩ := segments_join p dstPath (stays_relPath plain).1
  rw [locate, whole, List.foldlM_append, leads, located, segments_relPath inside, Option.bind_eq_bind, Option.bind_some,
    follow_names plain]
  simp [inside]

/-- The directory that is asked for. -/
theorem locate_parent (located : p.locate dstPath = some top) (plain : ∀ name ∈ names, name.isDots = false)
    (inside : names ≠ []) : p.locate (dirname (joinPath dstPath (relPath names))) =
      if p.dir (top ++ names.dropLast).dropLast = true then some (top ++ names.dropLast) else none := by
  obtain ⟨before, whole, leads⟩ := segments_join p dstPath (stays_relPath plain).1
  have comps : (segments (joinPath dstPath (relPath names)).toList).dropLast =
      before ++ names.dropLast.map fun name => name.text.toList := by
    rw [whole, segments_relPath inside, List.dropLast_append_of_ne_nil (by simpa using inside), List.map_dropLast]
  have plainDir : ∀ name ∈ names.dropLast, name.isDots = false := fun name member =>
    plain name (List.dropLast_subset names member)
  rw [locate_dirname, comps, List.foldlM_append, leads, located, Option.bind_eq_bind, Option.bind_some,
    follow_names plainDir]
  by_cases flat : names.dropLast = []
  · simp [flat, dropLast_locate located]
  · rw [List.dropLast_append_of_ne_nil flat]
    simp [flat]

/-- **`mkdir` makes one directory**, when the one above it is there. -/
theorem mkdir_spec (located : p.locate dstPath = some top) (plain : ∀ name ∈ names, name.isDots = false)
    (inside : names ≠ []) : p.mkdir (dirname (joinPath dstPath (relPath names))) =
      if free : p.dir (top ++ names.dropLast).dropLast = true ∧ p.there (top ++ names.dropLast) = false then
        some (p.add (top ++ names.dropLast) true free.1) else none := by
  rw [mkdir, locate_parent located plain inside]
  by_cases parent : p.dir (top ++ names.dropLast).dropLast = true
  · rw [if_pos parent]
    rfl
  · rw [if_neg parent, dif_neg fun free => parent free.1]
    rfl

/-- **`scp` needs the directory of the file.** -/
theorem scp_spec (located : p.locate dstPath = some top) (plain : ∀ name ∈ names, name.isDots = false)
    (inside : names ≠ []) : p.scp (joinPath dstPath (relPath names)) =
      if parent : p.dir (top ++ names).dropLast = true then some (p.add (top ++ names) false parent) else none := by
  rw [scp, locate_file located plain inside, ← List.dropLast_append_of_ne_nil inside]
  by_cases parent : p.dir (top ++ names).dropLast = true
  · rw [if_pos parent, dif_pos parent]
    exact dif_pos parent
  · rw [if_neg parent, dif_neg parent]
    rfl

end

end

end Places

/-! ## When every directory is there in time -/

/-- The names of a relative path. -/
def pathNames (rel : String) : List FileName := (segments rel.toList).filterMap FileName.ofComp

/-- The names of the directory of a relative path. -/
def dirNames (rel : String) : List FileName := (pathNames rel).dropLast

theorem pathNames_relPath {names : List FileName} (inside : names ≠ []) : pathNames (relPath names) = names := by
  rw [pathNames, segments_relPath inside, List.filterMap_map]
  have whole : (FileName.ofComp ∘ fun name : FileName => name.text.toList) = some := funext FileName.ofComp_text
  rw [whole, List.filterMap_some]

/-- The copies go through exactly where the directory of their target is there. -/
def Behaves (env : SyncEnv) : Places → List SyncCall → Prop
  | _, [] => True
  | p, .scp rel src dst preserve :: rest =>
    env.scp rel = (p.scp dst).isSome ∧ Behaves env (p.after (.scp rel src dst preserve)) rest
  | p, call :: rest => Behaves env (p.after call) rest

/-- The directory of a file that is to be copied is there, or it is that of a file copied
before, or it is free and the one above it is one of these. -/
def Ready (dst : Places) (top : List FileName) (before : List String) (rel : String) : Prop :=
  dst.dir (top ++ dirNames rel) = true ∨ (∃ r ∈ before, dirNames r = dirNames rel) ∨
    dst.there (top ++ dirNames rel) = false ∧ (∀ r ∈ before, pathNames r ≠ dirNames rel) ∧
      (dst.dir (top ++ dirNames rel).dropLast = true ∨ ∃ r ∈ before, top ++ dirNames r = (top ++ dirNames rel).dropLast)

/-- All files are ready when their turn comes. -/
def AllReady (dst : Places) (top : List FileName) : List String → List String → Prop
  | _, [] => True
  | before, rel :: rest => Ready dst top before rel ∧ AllReady dst top (before ++ [rel]) rest

/-- The files that are to be copied, in the order of the listing. -/
def toCopy (files dstFiles : Dict String SftpAttrs) : List String :=
  (files.items.filter fun e => needsCopy e.2 (dstFiles.get? e.1)).map Prod.fst

/-- The call returns, and every file that the source path takes in was copied to its place
or is unchanged. -/
def Synced (env : SyncEnv) (src : FileTree) (glob : String → Option (List String)) (dst : SftpServer)
    (srcPath dstPath : String) (delete preserve : Bool) (files : Dict String SftpAttrs) : Prop :=
  let run := syncCrossServer env (src.server glob) dst srcPath dstPath delete preserve
  run.2.isSome = true ∧ ∀ loc rel, src.Matched glob srcPath loc rel →
    (∃ from_, .scp rel from_ (joinPath dstPath rel) preserve ∈ run.1 ∧ env.scp rel = true) ∨
      ∃ attrs, files.get? rel = some attrs ∧
        needsCopy attrs ((sftpListTree (dst.path dstPath) dstPath).get? rel) = false

/-! ## The loop -/

/-- The places when some files have been copied. -/
structure MadeFrom (dst p : Places) (dstPath : String) (top : List FileName) (before : List String) : Prop where
  located : p.locate dstPath = some top
  dir : ∀ loc, p.dir loc = true ↔ dst.dir loc = true ∨ ∃ r ∈ before, top ++ dirNames r = loc
  there : ∀ loc, p.there loc = true ↔
    dst.there loc = true ∨ ∃ r ∈ before, top ++ dirNames r = loc ∨ top ++ pathNames r = loc

section

variable {dst p : Places} {dstPath : String} {top names : List FileName} {before : List String}

theorem MadeFrom.ready_of_free (copied : MadeFrom dst p dstPath top before) {rel : String}
    (parent : p.dir (top ++ dirNames rel).dropLast = true) (free : p.there (top ++ dirNames rel) = false) :
    Ready dst top before rel := by
  refine .inr (.inr ⟨?_, ?_, (copied.dir _).mp parent⟩)
  · rw [Bool.eq_false_iff] at free ⊢
    exact fun there => free ((copied.there _).mpr (.inl there))
  · intro r member same
    have there := (copied.there (top ++ dirNames rel)).mpr (.inr ⟨r, member, .inr (by rw [same])⟩)
    rw [free] at there
    cases there

theorem MadeFrom.ready_of_dir (copied : MadeFrom dst p dstPath top before) {rel : String}
    (dir : p.dir (top ++ dirNames rel) = true) : Ready dst top before rel := by
  obtain old | ⟨r, member, same⟩ := (copied.dir _).mp dir
  · exact .inl old
  · exact .inr (.inl ⟨r, member, List.append_cancel_left same⟩)

/-- A file that is ready finds its directory, or a free place for it. -/
theorem MadeFrom.of_ready (copied : MadeFrom dst p dstPath top before) {rel : String}
    (ready : Ready dst top before rel) : p.dir (top ++ dirNames rel) = true ∨
      p.dir (top ++ dirNames rel).dropLast = true ∧ p.there (top ++ dirNames rel) = false := by
  obtain old | ⟨r, member, same⟩ | ⟨free, noFile, parent⟩ := ready
  · exact .inl ((copied.dir _).mpr (.inl old))
  · exact .inl ((copied.dir _).mpr (.inr ⟨r, member, by rw [same]⟩))
  · by_cases there : p.there (top ++ dirNames rel) = true
    · obtain old | ⟨r, member, same | same⟩ := (copied.there _).mp there
      · rw [free] at old
        cases old
      · exact .inl ((copied.dir _).mpr (.inr ⟨r, member, same⟩))
      · exact absurd (List.append_cancel_left same) (noFile r member)
    · exact .inr ⟨(copied.dir _).mpr parent, by simpa using there⟩

theorem exists_mem_concat {α : Type} {P : α → Prop} {l : List α} {a : α} :
    (∃ x ∈ l ++ [a], P x) ↔ (∃ x ∈ l, P x) ∨ P a := by
  simp only [List.mem_append, List.mem_singleton, or_and_right, exists_or, exists_eq_left]

/-- What the request for a directory adds. -/
theorem Places.after_mkdir (located : p.locate dstPath = some top) (plain : ∀ name ∈ names, name.isDots = false)
    (inside : names ≠ []) {q : Places} (made : q = p.after (.mkdir (dirname (joinPath dstPath (relPath names))))) :
    let d := top ++ names.dropLast
    let makes := p.dir d.dropLast = true ∧ p.there d = false
    q.cwd = p.cwd ∧ (∀ loc, q.dir loc = true ↔ p.dir loc = true ∨ makes ∧ loc = d) ∧
      ∀ loc, q.there loc = true ↔ p.there loc = true ∨ makes ∧ loc = d := by
  intro d makes
  have spec := mkdir_spec located plain inside
  by_cases free : makes
  · rw [dif_pos free] at spec
    have added : q = p.add d true free.1 := by rw [made, after, spec]; rfl
    rw [added]
    refine ⟨rfl, fun loc => ?_, fun loc => ?_⟩
    · rw [dir_add]
      exact or_congr_right (and_congr_left fun _ => iff_of_true rfl free)
    · rw [there_add]
      exact or_congr_right (iff_and_self.mpr fun _ => free)
  · rw [dif_neg free] at spec
    have same : q = p := by rw [made, after, spec]; rfl
    rw [same]
    exact ⟨rfl, fun loc => by simp only [free, false_and, or_false], fun loc => by simp only [free, false_and, or_false]⟩

/-- **One file**: it is copied exactly if it is ready, and then its directory is there. -/
theorem MadeFrom.next (copied : MadeFrom dst p dstPath top before) (plain : ∀ name ∈ names, name.isDots = false)
    (inside : names ≠ []) {q : Places} (made : q = p.after (.mkdir (dirname (joinPath dstPath (relPath names))))) :
    ((q.scp (joinPath dstPath (relPath names))).isSome = true ↔ Ready dst top before (relPath names)) ∧
      (Ready dst top before (relPath names) → ∀ rel src preserve, MadeFrom dst
        (q.after (.scp rel src (joinPath dstPath (relPath names)) preserve)) dstPath top (before ++ [relPath names])) := by
  have whole : pathNames (relPath names) = names := pathNames_relPath inside
  have dirs : names.dropLast = dirNames (relPath names) := by rw [dirNames, whole]
  obtain ⟨cwd, dir, there⟩ := Places.after_mkdir copied.located plain inside made
  have located : q.locate dstPath = some top :=
    Places.locate_mono (fun l old => (dir l).mpr (.inl old)) cwd copied.located
  have spec := Places.scp_spec located plain inside
  have split : (top ++ names).dropLast = top ++ dirNames (relPath names) := by
    rw [← dirs, List.dropLast_append_of_ne_nil inside]
  rw [dirs] at dir there
  have ready : q.dir (top ++ names).dropLast = true ↔ Ready dst top before (relPath names) := by
    rw [split, dir]
    constructor
    · rintro (old | ⟨⟨parent, free⟩, -⟩)
      · exact copied.ready_of_dir old
      · exact copied.ready_of_free parent free
    · intro ready
      exact (copied.of_ready ready).imp_right fun free => ⟨free, rfl⟩
  constructor
  · rw [← ready, spec]
    by_cases here : q.dir (top ++ names).dropLast = true
    · rw [dif_pos here]
      exact iff_of_true rfl here
    · rw [dif_neg here]
      exact iff_of_false Bool.false_ne_true here
  · intro isReady rel src preserve
    have here := ready.mpr isReady
    rw [dif_pos here] at spec
    rw [Places.after, spec, Option.getD_some]
    have own := copied.of_ready isReady
    constructor
    · exact Places.locate_mono (fun l old => (Places.dir_add here).mpr (.inl old)) rfl located
    · intro loc
      rw [Places.dir_add, dir, exists_mem_concat, ← or_assoc, ← copied.dir]
      constructor
      · rintro ((old | ⟨-, rfl⟩) | ⟨⟨⟩, -⟩)
        · exact .inl old
        · exact .inr rfl
      · rintro (old | rfl)
        · exact .inl (.inl old)
        · exact .inl (own.imp_right fun free => ⟨free, rfl⟩)
    · intro loc
      rw [Places.there_add, there, exists_mem_concat, ← or_assoc, ← copied.there, whole]
      constructor
      · rintro ((old | ⟨-, rfl⟩) | rfl)
        · exact .inl old
        · exact .inr (.inl rfl)
        · exact .inr (.inr rfl)
      · rintro (old | rfl | rfl)
        · exact .inl (.inl old)
        · exact .inl (own.imp (p.present _) fun free => ⟨free, rfl⟩)
        · exact .inr rfl

end

/-! ## The whole loop -/

section

variable (env : SyncEnv) (dstFiles : Dict String SftpAttrs) (base dstPath : String) (preserve : Bool)

/-- The loop only adds to the log. -/
theorem calls_copyFiles (files : List (String × SftpAttrs)) (s : SyncState) :
    (copyFiles env dstFiles base dstPath preserve files s).1.calls =
      s.calls ++ (copyFiles env dstFiles base dstPath preserve files {}).1.calls := by
  induction files generalizing s with
  | nil => simp [copyFiles]
  | cons e files ih =>
    rw [copyFiles, copyFiles]
    cases needed : needsCopy e.2 (dstFiles.get? e.1) with
    | false =>
      simp only [Bool.not_false, if_true]
      rw [ih]
      conv_rhs => rw [ih]
      rfl
    | true =>
      cases sent : env.scp e.1 with
      | false => simp
      | true =>
        simp only [Bool.not_true, Bool.false_eq_true, if_false, if_true]
        rw [ih]
        conv_rhs => rw [ih]
        simp only [List.nil_append, List.append_assoc]

theorem snd_copyFiles (files : List (String × SftpAttrs)) (s : SyncState) :
    (copyFiles env dstFiles base dstPath preserve files s).2 = (copyFiles env dstFiles base dstPath preserve files {}).2 := by
  rw [Bool.eq_iff_iff, copyFiles_snd, copyFiles_snd]

variable {dstFiles} in
theorem copyFiles_unchanged {e : String × SftpAttrs} (same : needsCopy e.2 (dstFiles.get? e.1) = false)
    (files : List (String × SftpAttrs)) : ∀ run, copyFiles env dstFiles base dstPath preserve (e :: files) {} = run →
      run.1.calls = (copyFiles env dstFiles base dstPath preserve files {}).1.calls ∧
        run.2 = (copyFiles env dstFiles base dstPath preserve files {}).2 := by
  rintro _ rfl
  rw [copyFiles, same, Bool.not_false, if_pos rfl]
  constructor
  · rw [calls_copyFiles]
    rfl
  · exact snd_copyFiles env dstFiles base dstPath preserve files _

variable {dstFiles} in
theorem copyFiles_changed {e : String × SftpAttrs} (needed : needsCopy e.2 (dstFiles.get? e.1) = true)
    (files : List (String × SftpAttrs)) : ∀ run, copyFiles env dstFiles base dstPath preserve (e :: files) {} = run →
      run.1.calls = .mkdir (dirname (joinPath dstPath e.1)) ::
        .scp e.1 (srcFull base e.1) (joinPath dstPath e.1) preserve ::
          (if env.scp e.1 = true then (copyFiles env dstFiles base dstPath preserve files {}).1.calls else []) ∧
      run.2 = (env.scp e.1 && (copyFiles env dstFiles base dstPath preserve files {}).2) := by
  rintro _ rfl
  rw [copyFiles, needed, Bool.not_true, if_neg Bool.false_ne_true]
  dsimp only
  cases env.scp e.1 with
  | false => exact ⟨rfl, rfl⟩
  | true =>
    rw [if_pos rfl, if_pos rfl]
    constructor
    · rw [calls_copyFiles]
      rfl
    · exact snd_copyFiles env dstFiles base dstPath preserve files _

variable {env dstFiles base dstPath preserve} in
/-- **Every copy of the loop goes through** exactly if all files are ready in time. -/
theorem copyFiles_snd_iff_ready {dst p : Places} {top : List FileName} {before : List String}
    {files : List (String × SftpAttrs)}
    (shapes : ∀ e ∈ files, ∃ names : List FileName, names ≠ [] ∧ (∀ name ∈ names, name.isDots = false) ∧
      e.1 = relPath names)
    (copied : MadeFrom dst p dstPath top before)
    (behaves : Behaves env p (copyFiles env dstFiles base dstPath preserve files {}).1.calls) :
    (copyFiles env dstFiles base dstPath preserve files {}).2 = true ↔
      AllReady dst top before ((files.filter fun e => needsCopy e.2 (dstFiles.get? e.1)).map Prod.fst) := by
  induction files generalizing p before with
  | nil => exact iff_of_true rfl trivial
  | cons e files ih =>
    obtain ⟨⟨names, inside, plain, rel⟩, shapes⟩ := List.forall_mem_cons.mp shapes
    cases needed : needsCopy e.2 (dstFiles.get? e.1) with
    | false =>
      obtain ⟨calls, snd⟩ := copyFiles_unchanged env base dstPath preserve needed files _ rfl
      rw [calls] at behaves
      rw [snd, List.filter_cons_of_neg (by simp [needed])]
      exact ih shapes copied behaves
    | true =>
      obtain ⟨calls, snd⟩ := copyFiles_changed env base dstPath preserve needed files _ rfl
      obtain ⟨sent, goesOn⟩ := copied.next plain inside rfl
      rw [← rel] at sent goesOn
      rw [calls] at behaves
      obtain ⟨outcome, behaves⟩ := behaves
      rw [← outcome] at sent
      rw [snd, List.filter_cons_of_pos (by simp [needed]), List.map_cons, AllReady, Bool.and_eq_true, sent]
      apply and_congr_right
      intro ready
      rw [if_pos (sent.mpr ready)] at behaves
      exact ih shapes (goesOn ready _ _ _) behaves

end

theorem Behaves.front {env : SyncEnv} {p : Places} {a b : List SyncCall} (behaves : Behaves env p (a ++ b)) :
    Behaves env p a := by
  induction a generalizing p with
  | nil => trivial
  | cons call a ih =>
    cases call with
    | mkdir path => exact ih behaves
    | scp rel src dst preserve => exact ⟨behaves.1, ih behaves.2⟩
    | remove rel path => exact ih behaves

/-- A listed file has a relative path made of proper names. -/
theorem FileTree.Leads.shape {t : FileTree} {path rel : String} {loc : List FileName} (leads : t.Leads path loc rel) :
    ∃ names : List FileName, names ≠ [] ∧ (∀ name ∈ names, name.isDots = false) ∧ rel = relPath names := by
  cases leads with
  | file leads isFile =>
    obtain ⟨front, name, rfl, text⟩ := FileTree.basename_of_isFile leads isFile
    obtain ⟨node, at_, -⟩ := isFile
    have plain := Node.plain_of_descend at_
    refine ⟨[name], List.cons_ne_nil _ _, ?_, by rw [relPath_singleton, text]⟩
    exact fun other member => plain other (List.mem_append_right _ member)
  | @below top names leads dir isFile =>
    have inside := dir.ne_nil_of_isFile isFile
    obtain ⟨node, at_, -⟩ := isFile
    have plain := Node.plain_of_descend at_
    exact ⟨names, inside, fun other member => plain other (List.mem_append_right _ member), rfl⟩

theorem FileTree.Matched.leads {t : FileTree} {glob : String → Option (List String)} {srcPath rel : String}
    {loc : List FileName} (matched : t.Matched glob srcPath loc rel) : ∃ path, t.Leads path loc rel := by
  unfold FileTree.Matched at matched
  split at matched
  · obtain ⟨path, -, leads⟩ := matched
    exact ⟨path, leads⟩
  · exact ⟨srcPath, matched⟩

/-- The run over a listing. -/
theorem syncCrossServer_listed {env : SyncEnv} {src dst : SftpServer} {srcPath dstPath base : String}
    {delete preserve : Bool} {files : Dict String SftpAttrs} (sessions : env.sessions = true)
    (listed : sourceFiles src srcPath = .listed files base) : ∃ removes,
      (syncCrossServer env src dst srcPath dstPath delete preserve).1 =
          (copyFiles env (sftpListTree (dst.path dstPath) dstPath) base dstPath preserve files.items {}).1.calls ++ removes ∧
        (syncCrossServer env src dst srcPath dstPath delete preserve).2.isSome =
          (copyFiles env (sftpListTree (dst.path dstPath) dstPath) base dstPath preserve files.items {}).2 := by
  rw [syncCrossServer, sessions, Bool.not_true, if_neg Bool.false_ne_true, listed]
  dsimp only
  generalize copyFiles env (sftpListTree (dst.path dstPath) dstPath) base dstPath preserve files.items {} = loop
  obtain ⟨s, copied⟩ := loop
  cases copied with
  | false => exact ⟨[], by simp, by simp⟩
  | true =>
    cases delete with
    | false => exact ⟨[], by simp, by simp⟩
    | true => exact ⟨_, calls_deleteFiles env dstPath files _ s, by simp⟩

/-- **A sync copies everything exactly if** the one directory it asks for per file is
enough, file by file. -/
theorem synced_iff (env : SyncEnv) (src dst : FileTree) (glob dstGlob : String → Option (List String))
    (srcPath dstPath base : String) (delete preserve : Bool) (files : Dict String SftpAttrs) (top : List FileName)
    (sessions : env.sessions = true) (listed : sourceFiles (src.server glob) srcPath = .listed files base)
    (parent : dst.places.locate dstPath = some top)
    (behaves : Behaves env dst.places
      (syncCrossServer env (src.server glob) (dst.server dstGlob) srcPath dstPath delete preserve).1) :
    Synced env src glob (dst.server dstGlob) srcPath dstPath delete preserve files ↔
      AllReady dst.places top [] (toCopy files (sftpListTree (dst.remote dstPath) dstPath)) := by
  obtain ⟨-, lists, from_⟩ := FileTree.sourceFiles_spec listed
  obtain ⟨removes, log, returns⟩ := @syncCrossServer_listed env _ (dst.server dstGlob) _ dstPath _ delete preserve _
    sessions listed
  have shapes : ∀ e ∈ files.items, ∃ names : List FileName, names ≠ [] ∧ (∀ name ∈ names, name.isDots = false) ∧
      e.1 = relPath names := by
    intro e member
    obtain ⟨loc, matched, -⟩ := from_ e.1 e.2 (Dict.get?_of_mem member)
    obtain ⟨path, leads⟩ := matched.leads
    exact leads.shape
  have start : MadeFrom dst.places dst.places dstPath top [] := ⟨parent, fun loc => by simp, fun loc => by simp⟩
  rw [log] at behaves
  refine Iff.trans ?_ (copyFiles_snd_iff_ready shapes start behaves.front)
  rw [Synced, returns, log]
  constructor
  · exact And.left
  · intro done
    refine ⟨done, fun loc rel matched => ?_⟩
    obtain ⟨attrs, found⟩ := Dict.mem_keys_iff.mp (lists loc rel matched)
    have member := Dict.get?_eq_some_iff.mp found
    cases needed : needsCopy attrs ((sftpListTree ((dst.server dstGlob).path dstPath) dstPath).get? rel) with
    | false => exact .inr ⟨attrs, found, needed⟩
    | true =>
      obtain ⟨full, sent⟩ := scp_mem_copyFiles _ _ _ _ _ {} done member needed
      exact .inl ⟨full, List.mem_append_left _ sent, (copyFiles_snd _ _ _ _ _ _ _).mp done _ member needed⟩

/-! ## A tree that is too deep -/

theorem distinct_below {entries : Listing} (distinct : entries.Distinct) :
    (Listing.cons ⟨"src", by decide, by decide⟩ plainDir entries .nil).Distinct := by
  simp [Listing.Distinct, Listing.find, distinct]

/-- A directory `src` with these entries. -/
def treeWith (entries : Listing) (distinct : entries.Distinct) : FileTree where
  attrs := plainDir
  root := .cons ⟨"src", by decide, by decide⟩ plainDir entries .nil
  cwd := []
  isDir := isDir_plainDir
  distinct := distinct_below distinct
  home := ⟨(plainDir, .cons ⟨"src", by decide, by decide⟩ plainDir entries .nil), rfl, isDir_plainDir⟩

theorem distinct_nestedTree : nestedTree.Distinct := by
  simp [nestedTree, flatTree, Listing.Distinct, Listing.find]

theorem distinct_shallow : (Listing.cons ⟨"top", by decide, by decide⟩ plainFile .nil nestedTree).Distinct := by
  simp [nestedTree, flatTree, Listing.Distinct, Listing.find]

/-- In `src`, a file `top`, and in `sub` a file `a`. -/
def shallow : FileTree := treeWith (.cons ⟨"top", by decide, by decide⟩ plainFile .nil nestedTree) distinct_shallow

/-- In `src`, only a file `a` in `sub`. -/
def deep : FileTree := treeWith nestedTree distinct_nestedTree

def emptyTree : FileTree where
  attrs := plainDir
  root := .nil
  cwd := []
  isDir := isDir_plainDir
  distinct := trivial
  home := ⟨(plainDir, .nil), rfl, isDir_plainDir⟩

theorem listed_shallow : sourceFiles (shallow.server fun _ => none) "/src" =
    .listed ((Dict.empty.insert "top" plainFile).insert "sub/a" plainFile) "/src" := by
  rw [sourceFiles, if_neg (by decide)]
  rfl

theorem listed_deep : sourceFiles (deep.server fun _ => none) "/src" =
    .listed (Dict.empty.insert "sub/a" plainFile) "/src" := by
  rw [sourceFiles, if_neg (by decide)]
  rfl

/-- A file at the top makes room for the directory beside it. -/
theorem synced_shallow : Synced .smooth shallow (fun _ => none) (emptyTree.server fun _ => none) "/src" "/out" false false
    ((Dict.empty.insert "top" plainFile).insert "sub/a" plainFile) := by
  refine (synced_iff .smooth shallow emptyTree (fun _ => none) (fun _ => none) "/src" "/out" "/src" false false _
    [⟨"out", by decide, by decide⟩] rfl listed_shallow (by decide +kernel) ?_).mpr ?_
  · have log : (syncCrossServer .smooth (shallow.server fun _ => none) (emptyTree.server fun _ => none) "/src" "/out"
        false false).1 = [.mkdir "/out", .scp "top" "/src/top" "/out/top" false,
          .mkdir "/out/sub", .scp "sub/a" "/src/sub/a" "/out/sub/a" false] := by decide +kernel
    rw [log]
    exact ⟨by decide +kernel, by decide +kernel, trivial⟩
  · have files : toCopy ((Dict.empty.insert "top" plainFile).insert "sub/a" plainFile)
        (sftpListTree (emptyTree.remote "/out") "/out") = ["top", "sub/a"] := by decide +kernel
    rw [files]
    refine ⟨.inr (.inr ⟨by decide +kernel, List.forall_mem_nil _, .inl (by decide +kernel)⟩), ?_, trivial⟩
    refine .inr (.inr ⟨by decide +kernel, by decide +kernel, .inr ⟨"top", by simp, by decide +kernel⟩⟩)

/-- **Two directories at once are not made**: the one above the file's is missing as well. -/
theorem deep_tree_fails : ¬ ∀ (env : SyncEnv) (src dst : FileTree) (glob dstGlob : String → Option (List String))
    (srcPath dstPath base : String) (delete preserve : Bool) (files : Dict String SftpAttrs) (top : List FileName),
    env.sessions = true → isGlob srcPath = false → (∃ loc, src.resolve srcPath = some loc ∧ src.IsDir loc) →
    sourceFiles (src.server glob) srcPath = .listed files base → dst.places.locate dstPath = some top →
    Behaves env dst.places
      (syncCrossServer env (src.server glob) (dst.server dstGlob) srcPath dstPath delete preserve).1 →
    Synced env src glob (dst.server dstGlob) srcPath dstPath delete preserve files := by
  intro claim
  let refuses : SyncEnv := { sessions := true, scp := fun _ => false, remove := fun _ => false }
  have log : (syncCrossServer refuses (deep.server fun _ => none) (emptyTree.server fun _ => none) "/src" "/out"
      false false).1 = [.mkdir "/out/sub", .scp "sub/a" "/src/sub/a" "/out/sub/a" false] := by decide +kernel
  have synced := claim refuses deep emptyTree (fun _ => none) (fun _ => none) "/src" "/out" "/src" false false _
    [⟨"out", by decide, by decide⟩] rfl (by decide) ⟨[⟨"src", by decide, by decide⟩], by decide +kernel, _, rfl, by decide⟩
    listed_deep (by decide +kernel) (by rw [log]; exact ⟨by decide +kernel, trivial⟩)
  have raised : (syncCrossServer refuses (deep.server fun _ => none) (emptyTree.server fun _ => none) "/src" "/out"
      false false).2.isSome = false := by decide +kernel
  exact absurd (raised.symm.trans synced.1) Bool.false_ne_true

end McpSsh
