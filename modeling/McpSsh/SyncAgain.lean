import McpSsh.Base.Trace
import McpSsh.SyncDirs
import McpSsh.TreeListing

/-!
# A sync that is run again

What a run of `_sync_cross_server` leaves on the destination, and what a second run makes
of it. A copy has the size of the file that was read, and its time only with `preserve`;
otherwise it has the time of the copy, which is seldom the time of a file.
-/

set_option autoImplicit false

namespace McpSsh

open Base

/-! ## What the requests leave -/

namespace FileTree

/-- A file or a directory more. -/
structure Gains (t t' : FileTree) (loc : List FileName) (attrs : SftpAttrs) : Prop where
  cwd : t'.cwd = t.cwd
  dir : ∀ l, t'.places.dir l = true ↔ t.places.dir l = true ∨ attrs.isDir = true ∧ l = loc
  file : ∀ l, t'.fileAt l = if attrs.isDir = false ∧ l = loc then some attrs else t.fileAt l

/-- A file less. -/
structure Loses (t t' : FileTree) (loc : List FileName) : Prop where
  cwd : t'.cwd = t.cwd
  dir : ∀ l, t'.places.dir l = true ↔ t.places.dir l = true
  file : ∀ l, t'.fileAt l = if l = loc then none else t.fileAt l

end FileTree

/-- The attributes of a copy: its time is that of the copy unless it is preserved. -/
def copyAttrs (read : SftpAttrs) (preserve : Bool) (time : Int) : SftpAttrs :=
  { read with mtime := if preserve then read.mtime else some time }

/-- The file that the source server reads from a path. -/
def FileTree.read (t : FileTree) (path : String) : Option SftpAttrs := (t.resolve path).bind t.fileAt

/-- What a request leaves on the destination. A file goes to its path, or into the
directory that is there; a directory is only made where nothing is. -/
inductive Change (src : FileTree) (clock : String → Int) : System FileTree SyncCall where
  | made {t t' : FileTree} {path : String} {loc : List FileName} {attrs : SftpAttrs}
      (located : t.places.locate path = some loc) (free : t.places.there loc = false) (dir : attrs.isDir = true)
      (gains : t.Gains t' loc attrs) : Change src clock t (.mkdir path) t'
  | notMade {t : FileTree} {path : String} : Change src clock t (.mkdir path) t
  | copied {t t' : FileTree} {rel srcPath dstPath : String} {preserve : Bool} {read attrs : SftpAttrs}
      {loc target : List FileName} (reads : src.read srcPath = some read) (located : t.places.locate dstPath = some loc)
      (lands : t.places.dir loc = false ∧ target = loc ∨
        t.places.dir loc = true ∧ t.places.dir target = false ∧ ∃ name, target = loc ++ [name])
      (file : attrs.isDir = false) (size : attrs.size = (copyAttrs read preserve (clock rel)).size)
      (mtime : attrs.mtime = (copyAttrs read preserve (clock rel)).mtime) (gains : t.Gains t' target attrs) :
      Change src clock t (.scp rel srcPath dstPath preserve) t'
  | removed {t t' : FileTree} {rel path : String} {loc : List FileName} (located : t.places.locate path = some loc)
      (loses : t.Loses t' loc) : Change src clock t (.remove rel path) t'
  | notRemoved {t : FileTree} {rel path : String} : Change src clock t (.remove rel path) t

/-! ## The second run -/

/-- The run copies nothing and skips every file. -/
def CopiesNothing (env : SyncEnv) (src dst : SftpServer) (srcPath dstPath : String) (delete preserve : Bool)
    (files : Dict String SftpAttrs) : Prop :=
  ∃ report, (syncCrossServer env src dst srcPath dstPath delete preserve).2 = some report ∧ report.copied = [] ∧
    report.skipped = files.items.length

/-- The entries of the files that are to be copied. -/
def entriesToCopy (files dstFiles : Dict String SftpAttrs) : List (String × SftpAttrs) :=
  files.items.filter fun e => needsCopy e.2 (dstFiles.get? e.1)

/-- Every file that is to be copied goes to its own path, where no directory is or is
made, and its copy passes for the file. -/
def CopiesSettle (src dst : FileTree) (clock : String → Int) (base dstPath : String) (preserve : Bool)
    (all : List (String × SftpAttrs)) : Prop :=
  ∀ top, dst.places.locate dstPath = some top → ∀ e ∈ all, dst.places.dir (top ++ pathNames e.1) = false ∧
    (∀ other ∈ all, pathNames e.1 ≠ dirNames other.1) ∧
    ∀ read, src.read (srcFull base e.1) = some read →
      needsCopy e.2 (some (copyAttrs read preserve (clock e.1))) = false

/-! ## The loops -/

section

variable (env : SyncEnv) (dstFiles : Dict String SftpAttrs) (base dstPath : String) (preserve : Bool)

/-- The requests for one file. -/
def copyCalls (e : String × SftpAttrs) : List SyncCall :=
  [.mkdir (dirname (joinPath dstPath e.1)), .scp e.1 (srcFull base e.1) (joinPath dstPath e.1) preserve]

/-- A loop that gets to its end has copied and skipped what it should. -/
theorem copyFiles_done {files : List (String × SftpAttrs)} {s : SyncState}
    (done : (copyFiles env dstFiles base dstPath preserve files s).2 = true) :
    let all := files.filter fun e => needsCopy e.2 (dstFiles.get? e.1)
    let end_ := (copyFiles env dstFiles base dstPath preserve files s).1
    end_.calls = s.calls ++ all.flatMap (copyCalls base dstPath preserve) ∧
      end_.copied = s.copied ++ all.map Prod.fst ∧ end_.skipped + all.length = s.skipped + files.length := by
  induction files generalizing s with
  | nil => simp [copyFiles]
  | cons e files ih =>
    rw [copyFiles] at done ⊢
    cases needed : needsCopy e.2 (dstFiles.get? e.1) with
    | false =>
      simp only [needed, Bool.not_false, if_true] at done
      obtain ⟨calls, copied, skipped⟩ := ih done
      simp only [Bool.not_false, if_true, List.filter_cons, needed, Bool.false_eq_true, if_false, List.length_cons]
      refine ⟨calls, copied, ?_⟩
      dsimp only at skipped
      omega
    | true =>
      cases sent : env.scp e.1 with
      | false => simp [needed, sent] at done
      | true =>
        simp only [needed, sent, Bool.not_true, Bool.false_eq_true, if_false, if_true] at done
        obtain ⟨calls, copied, skipped⟩ := ih done
        simp only [Bool.not_true, Bool.false_eq_true, if_false, if_true, List.filter_cons, needed, List.length_cons]
        refine ⟨?_, ?_, ?_⟩
        · rw [calls, List.flatMap_cons, List.append_assoc]
          rfl
        · rw [copied]
          simp
        · dsimp only at skipped
          omega

/-- The delete loop changes neither count. -/
theorem deleteFiles_counts (srcFiles : Dict String SftpAttrs) (rels : List String) (s : SyncState) :
    (deleteFiles env dstPath srcFiles rels s).copied = s.copied ∧
      (deleteFiles env dstPath srcFiles rels s).skipped = s.skipped := by
  induction rels generalizing s with
  | nil => exact ⟨rfl, rfl⟩
  | cons rel rels ih =>
    rw [deleteFiles]
    split
    · exact ih s
    · obtain ⟨copied, skipped⟩ := ih (if env.remove rel then
        { s with
          calls := s.calls ++ [.remove rel (joinPath dstPath rel)]
          deleted := s.deleted ++ [rel] }
        else { s with calls := s.calls ++ [.remove rel (joinPath dstPath rel)] })
      constructor
      · refine Eq.trans ?_ (copied.trans ?_)
        · rfl
        · split <;> rfl
      · refine Eq.trans ?_ (skipped.trans ?_)
        · rfl
        · split <;> rfl

end

/-- **A run copies nothing exactly if** no file is to be copied. -/
theorem copiesNothing_iff {env : SyncEnv} {src dst : SftpServer} {srcPath dstPath base : String} {delete preserve : Bool}
    {files : Dict String SftpAttrs} (sessions : env.sessions = true)
    (listed : sourceFiles src srcPath = .listed files base) :
    CopiesNothing env src dst srcPath dstPath delete preserve files ↔
      entriesToCopy files (sftpListTree (dst.path dstPath) dstPath) = [] := by
  have spec := @copyFiles_done env (sftpListTree (dst.path dstPath) dstPath) base dstPath preserve files.items {}
  have ends := copyFiles_snd env (sftpListTree (dst.path dstPath) dstPath) base dstPath preserve files.items {}
  rw [CopiesNothing, syncCrossServer, sessions, Bool.not_true, if_neg Bool.false_ne_true, listed]
  simp only [entriesToCopy]
  generalize copyFiles env (sftpListTree (dst.path dstPath) dstPath) base dstPath preserve files.items {} = loop at spec ends ⊢
  obtain ⟨s, done⟩ := loop
  cases done with
  | false =>
    simp only [Bool.not_false, if_true, reduceCtorEq, false_and, exists_false, false_iff]
    intro none_
    refine Bool.false_ne_true (ends.mpr fun e member needed => ?_)
    exact absurd needed (by simpa using List.filter_eq_nil_iff.mp none_ e member)
  | true =>
    obtain ⟨-, copied, skipped⟩ := spec rfl
    simp only [Bool.not_true, Bool.false_eq_true, if_false, Option.some.injEq, exists_eq_left']
    have counts : (if delete = true then deleteFiles env dstPath files (sftpListTree (dst.path dstPath) dstPath).keys s
        else s).copied = s.copied ∧ (if delete = true then
          deleteFiles env dstPath files (sftpListTree (dst.path dstPath) dstPath).keys s else s).skipped = s.skipped := by
      split
      · exact deleteFiles_counts env dstPath files _ s
      · exact ⟨rfl, rfl⟩
    rw [counts.1, counts.2]
    simp only [List.nil_append] at copied skipped
    rw [copied, List.map_eq_nil_iff]
    constructor
    · exact And.left
    · intro none_
      refine ⟨none_, ?_⟩
      rw [none_, List.length_nil] at skipped
      omega

/-! ## Places and paths -/

namespace FileTree

variable {t t' : FileTree} {loc : List FileName}

/-- What the server resolves is what the tree has: first for one place, then for paths. -/
theorem dir_places_iff : t.places.dir loc = true ↔ t.IsDir loc := by
  simp only [places, IsDir, Option.any_eq_true]

theorem there_places_iff : t.places.there loc = true ↔ t.places.dir loc = true ∨ (t.fileAt loc).isSome = true := by
  simp only [places, fileAt]
  cases t.node loc with
  | none => simp
  | some node => cases node.1.isDir <;> simp

/-- No place is a directory and a file. -/
theorem fileAt_of_dir (dir : t.places.dir loc = true) : t.fileAt loc = none := by
  obtain ⟨node, at_, isDir⟩ := dir_places_iff.mp dir
  simp [fileAt, at_, isDir]

/-- A tree that gains a file loses nothing. -/
theorem Gains.there {attrs : SftpAttrs} (gains : t.Gains t' loc attrs) {l : List FileName}
    (there : t.places.there l = true) : t'.places.there l = true := by
  rw [there_places_iff, gains.file] at *
  rcases there with dir | file
  · exact .inl ((gains.dir l).mpr (.inl dir))
  · right
    split
    · rfl
    · exact file

/-- What leads to a directory starts from one. -/
theorem dir_of_follow {comps : List (List Char)} {last : List FileName} (followed : comps.foldlM t.places.step loc = some last)
    (dir : t.places.dir last = true) : t.places.dir loc = true := by
  induction comps generalizing loc with
  | nil =>
    cases followed
    exact dir
  | cons comp comps ih =>
    rw [List.foldlM_cons] at followed
    obtain ⟨mid, stepped, rest⟩ := Option.bind_eq_some_iff.mp followed
    have inside := ih rest
    unfold Places.step at stepped
    split at stepped
    · cases stepped
      exact inside
    · by_contra file
      rw [if_pos (by simpa using file)] at stepped
      cases stepped

/-- A step that the server resolves is one in the tree, if it ends at something. -/
theorem step_of_places {comp : List Char} {next : List FileName} (stepped : t.places.step loc comp = some next)
    (dir : t.places.dir loc = true) (there : t.places.dir next = true) : t.step loc comp = some next := by
  have isDir := dir_places_iff.mp dir
  unfold Places.step at stepped
  split at stepped
  · cases stepped
    exact step_of_isDir isDir (.inl ‹_›)
  rename_i some_
  rw [if_neg (by simp [dir])] at stepped
  split at stepped
  · cases stepped
    exact step_of_isDir isDir (.inr ‹_›)
  rename_i dot
  split at stepped
  · rename_i up
    cases stepped
    obtain ⟨node, at_, kind⟩ := isDir
    rw [step, at_]
    dsimp only
    rw [if_neg (by simp [kind]), if_neg (not_or.mpr ⟨some_, dot⟩), if_pos up]
  · obtain ⟨name, proper, rfl⟩ := Option.map_eq_some_iff.mp stepped
    obtain ⟨node, at_, -⟩ := dir_places_iff.mp there
    have text : name.text.toList = comp := by
      unfold FileName.ofComp at proper
      split at proper
      · cases proper
        exact String.toList_ofList
      · cases proper
    rw [← text]
    exact step_name at_

/-- A path that names a directory leads to it. -/
theorem resolve_of_locate {path : String} (located : t.places.locate path = some loc) (dir : t.places.dir loc = true) :
    t.resolve path = some loc := by
  have follow : ∀ (comps : List (List Char)) (start : List FileName), comps.foldlM t.places.step start = some loc →
      comps.foldlM t.step start = some loc := by
    intro comps
    induction comps with
    | nil => exact fun start followed => followed
    | cons comp comps ih =>
      intro start followed
      have top := dir_of_follow followed dir
      rw [List.foldlM_cons] at followed ⊢
      obtain ⟨mid, stepped, rest⟩ := Option.bind_eq_some_iff.mp followed
      exact Option.bind_eq_some_iff.mpr ⟨mid, step_of_places stepped top (dir_of_follow rest dir), ih mid rest⟩
  exact follow _ _ located

/-- What a path leads to is what it names. -/
theorem locate_of_resolve {path : String} (leads : t.resolve path = some loc) : t.places.locate path = some loc := by
  have follow : ∀ (comps : List (List Char)) (start : List FileName), comps.foldlM t.step start = some loc →
      comps.foldlM t.places.step start = some loc := by
    intro comps
    induction comps with
    | nil => exact fun start followed => followed
    | cons comp comps ih =>
      intro start followed
      rw [List.foldlM_cons] at followed ⊢
      obtain ⟨mid, stepped, rest⟩ := Option.bind_eq_some_iff.mp followed
      refine Option.bind_eq_some_iff.mpr ⟨mid, ?_, ih mid rest⟩
      have dir := isDir_of_step stepped
      have place := dir_places_iff.mpr dir
      rw [Places.step]
      by_cases empty : comp = []
      · rw [if_pos empty, ← stepped, step_of_isDir dir (.inl empty)]
      rw [if_neg empty, if_neg (by simp [place])]
      by_cases dot : comp = ['.']
      · rw [if_pos dot, ← stepped, step_of_isDir dir (.inr dot)]
      rw [if_neg dot]
      obtain ⟨node, at_, kind⟩ := dir
      rw [step, at_] at stepped
      dsimp only at stepped
      rw [if_neg (by simp [kind]), if_neg (not_or.mpr ⟨empty, dot⟩)] at stepped
      by_cases up : comp = dotdot
      · rw [if_pos up] at stepped ⊢
        exact stepped
      · rw [if_neg up] at stepped ⊢
        obtain ⟨entry, found, rfl⟩ := Option.map_eq_some_iff.mp stepped
        rw [← (Listing.find_spec (show node.2.find comp = some (entry.1, entry.2.1, entry.2.2) from found)).2,
          FileName.ofComp_text]
        rfl
  exact follow _ _ leads

end FileTree

namespace Places

variable {p : Places} {dstPath rel : String} {loc : List FileName}

/-- What holds a directory is one. -/
theorem dir_of_append {front back : List FileName} (dir : p.dir (front ++ back) = true) : p.dir front = true := by
  induction back using List.reverseRecOn with
  | nil => rwa [List.append_nil] at dir
  | append_singleton back last ih =>
    apply ih
    rw [← List.append_assoc] at dir
    exact p.closed _ last (p.present _ dir)

/-- A joined path names nothing unless its base does. -/
theorem locate_of_join {path : String} (relative : path.toList.head? ≠ some '/')
    (located : p.locate (joinPath dstPath path) = some loc) : ∃ top, p.locate dstPath = some top := by
  obtain ⟨before, whole, leads⟩ := segments_join p dstPath relative
  rw [locate, whole, List.foldlM_append, leads] at located
  obtain ⟨top, based, -⟩ := Option.bind_eq_some_iff.mp located
  exact ⟨top, based⟩

/-- A path whose parent resolves starts at a destination that does. -/
theorem locate_of_parent {path : String} (relative : path.toList.head? ≠ some '/')
    (located : p.locate (dirname (joinPath dstPath path)) = some loc) : ∃ top, p.locate dstPath = some top := by
  obtain ⟨before, whole, leads⟩ := segments_join p dstPath relative
  have some_ := segments_ne_nil path.toList
  rw [locate_dirname, whole, List.dropLast_append_of_ne_nil some_, List.foldlM_append, leads] at located
  obtain ⟨top, based, -⟩ := Option.bind_eq_some_iff.mp located
  exact ⟨top, based⟩

end Places

/-- A relative path that is made of proper names. -/
structure Proper (rel : String) : Prop where
  inside : pathNames rel ≠ []
  plain : ∀ name ∈ pathNames rel, name.isDots = false
  whole : rel = relPath (pathNames rel)

/-- The names by which `_sftp_list_tree` reports files are proper. -/
theorem FileTree.Leads.proper {t : FileTree} {path rel : String} {loc : List FileName} (leads : t.Leads path loc rel) :
    Proper rel := by
  obtain ⟨names, inside, plain, rfl⟩ := leads.shape
  have same := pathNames_relPath inside
  exact ⟨by rwa [same], by rwa [same], by rw [same]⟩

namespace Proper

variable {p : Places} {dstPath rel other : String} {top loc : List FileName}

theorem relative (proper : Proper rel) : rel.toList.head? ≠ some '/' := by
  rw [proper.whole]
  exact head_relPath _

/-- A proper name is determined by its parts. -/
theorem eq_of_pathNames (proper : Proper rel) (proper' : Proper other) (same : pathNames rel = pathNames other) :
    rel = other := by rw [proper.whole, proper'.whole, same]

/-- The place of a file, below the directory that the destination is. -/
theorem locate (proper : Proper rel) (located : p.locate (joinPath dstPath rel) = some loc) :
    ∃ top, p.locate dstPath = some top ∧ p.dir (top ++ dirNames rel) = true ∧ loc = top ++ pathNames rel := by
  obtain ⟨top, based⟩ := Places.locate_of_join proper.relative located
  rw [proper.whole, Places.locate_file based proper.plain proper.inside] at located
  obtain ⟨dir, same⟩ := Option.ite_none_right_eq_some.mp located
  exact ⟨top, based, dir, (Option.some.inj same).symm⟩

/-- The parent of a destination file is its directory in the destination. -/
theorem locate_parent (proper : Proper rel) (based : p.locate dstPath = some top)
    (located : p.locate (dirname (joinPath dstPath rel)) = some loc) : loc = top ++ dirNames rel := by
  rw [proper.whole, Places.locate_parent based proper.plain proper.inside] at located
  exact (Option.some.inj (Option.ite_none_right_eq_some.mp located).2).symm

end Proper

/-! ## What one file leaves -/

/-- What is there is a copy of the file that was read. -/
def IsCopy (src : FileTree) (clock : String → Int) (base : String) (preserve : Bool) (rel : String)
    (there : Option SftpAttrs) : Prop :=
  ∃ read attrs, src.read (srcFull base rel) = some read ∧ there = some attrs ∧
    attrs.size = (copyAttrs read preserve (clock rel)).size ∧ attrs.mtime = (copyAttrs read preserve (clock rel)).mtime

section

variable {src dst t t' : FileTree} {clock : String → Int} {base dstPath rel : String} {preserve : Bool}
  {top : List FileName}

/-- **What `mkdir` of a parent changes**: that directory at most, where nothing was. -/
theorem mkdir_step (proper : Proper rel) (based : t.places.locate dstPath = some top)
    (stepped : Change src clock t (.mkdir (dirname (joinPath dstPath rel))) t') :
    t'.cwd = t.cwd ∧ (∀ l, t.places.dir l = true → t'.places.dir l = true) ∧
      (∀ l, t'.places.dir l = true → t.places.dir l = true ∨ l = top ++ dirNames rel ∧ t.places.there l = false) ∧
      (∀ l, t.places.there l = true → t'.places.there l = true) ∧ ∀ l, t'.fileAt l = t.fileAt l := by
  cases stepped with
  | notMade => exact ⟨rfl, fun l old => old, fun l old => .inl old, fun l there => there, fun l => rfl⟩
  | made located free dir gains =>
    have same := proper.locate_parent based located
    refine ⟨gains.cwd, fun l old => (gains.dir l).mpr (.inl old), fun l there => ?_, fun l => gains.there, fun l => ?_⟩
    · obtain old | ⟨-, here⟩ := (gains.dir l).mp there
      · exact .inl old
      · exact .inr ⟨here.trans same, by rw [here, free]⟩
    · rw [gains.file, if_neg]
      rintro ⟨file, -⟩
      rw [dir] at file
      cases file

/-- What the destination names is what it named. -/
theorem located_of_mkdir_step (proper : Proper rel)
    (stepped : Change src clock t (.mkdir (dirname (joinPath dstPath rel))) t') (based : t'.places.locate dstPath = some top) :
    t.places.locate dstPath = some top := by
  cases stepped with
  | notMade => exact based
  | made located free dir gains =>
    obtain ⟨top', before⟩ := Places.locate_of_parent proper.relative located
    have after := Places.locate_mono (fun l old => (gains.dir l).mpr (.inl old)) gains.cwd before
    rw [based] at after
    rw [before, after]

/-- **What a copy changes**: the one file, in a directory that was there. -/
theorem scp_step (proper : Proper rel)
    (stepped : Change src clock t (.scp rel (srcFull base rel) (joinPath dstPath rel) preserve) t') :
    ∃ top, t.places.locate dstPath = some top ∧ t.places.dir (top ++ dirNames rel) = true ∧ t'.cwd = t.cwd ∧
      (∀ l, t'.places.dir l = true ↔ t.places.dir l = true) ∧
      (∀ l, t.places.there l = true → t'.places.there l = true) ∧
      (t.places.dir (top ++ pathNames rel) = false →
        IsCopy src clock base preserve rel (t'.fileAt (top ++ pathNames rel)) ∧
          ∀ l, l ≠ top ++ pathNames rel → t'.fileAt l = t.fileAt l) := by
  cases stepped with
  | @copied _ _ _ _ _ _ read attrs loc target reads located lands file size mtime gains =>
    obtain ⟨top, based, dir, rfl⟩ := proper.locate located
    refine ⟨top, based, dir, gains.cwd, fun l => ?_, fun l => gains.there, fun free => ?_⟩
    · rw [gains.dir, file]
      simp
    · obtain ⟨-, rfl⟩ | ⟨inside, -⟩ := lands
      · refine ⟨⟨read, attrs, reads, ?_, size, mtime⟩, fun l other => ?_⟩
        · rw [gains.file, if_pos ⟨file, rfl⟩]
        · rw [gains.file, if_neg fun here => other here.2]
      · rw [free] at inside
        cases inside

end

/-! ## What the copies leave -/

/-- The destination when some files have been copied. Unless a directory is at the place
of one of them, the copies are there, and the other files are as they were. -/
structure Midway (src dst t : FileTree) (clock : String → Int) (base dstPath : String) (preserve : Bool)
    (top : List FileName) (done : List (String × SftpAttrs)) : Prop where
  located : t.places.locate dstPath = some top
  dir : ∀ l, t.places.dir l = true ↔ dst.places.dir l = true ∨ ∃ e ∈ done, l = top ++ dirNames e.1
  made : ∀ l, t.places.dir l = true → dst.places.dir l = true ∨ dst.places.there l = false
  there : ∀ l, dst.places.there l = true → t.places.there l = true
  copies : (∀ e ∈ done, t.places.dir (top ++ pathNames e.1) = false) →
    (∀ e ∈ done, IsCopy src clock base preserve e.1 (t.fileAt (top ++ pathNames e.1))) ∧
      ∀ names, (∀ e ∈ done, names ≠ pathNames e.1) → t.fileAt (top ++ names) = dst.fileAt (top ++ names)

section

variable {src dst t t' : FileTree} {clock : String → Int} {base dstPath : String} {preserve : Bool}
  {top : List FileName} {done : List (String × SftpAttrs)}

/-- Before the first copy nothing has changed. -/
theorem Midway.start (located : dst.places.locate dstPath = some top) :
    Midway src dst dst clock base dstPath preserve top [] where
  located := located
  dir l := by simp
  made l := .inl
  there l := id
  copies _ := ⟨fun e member => absurd member List.not_mem_nil, fun names _ => rfl⟩

/-- **One file more.** -/
theorem Midway.next (midway : Midway src dst t clock base dstPath preserve top done) {e : String × SftpAttrs}
    (proper : Proper e.1) (fresh : ∀ other ∈ done, pathNames other.1 ≠ pathNames e.1)
    (run : Run (Change src clock) t (copyCalls base dstPath preserve e) t') :
    Midway src dst t' clock base dstPath preserve top (done ++ [e]) := by
  obtain ⟨mid, makes, copies⟩ : ∃ mid, Change src clock t (.mkdir (dirname (joinPath dstPath e.1))) mid ∧
      Change src clock mid (.scp e.1 (srcFull base e.1) (joinPath dstPath e.1) preserve) t' := by
    cases run with
    | step makes rest =>
      cases rest with
      | step copies rest =>
        cases rest
        exact ⟨_, makes, copies⟩
  obtain ⟨cwd, keeps, only, stays, files⟩ := mkdir_step proper midway.located makes
  have there := Places.locate_mono keeps cwd midway.located
  obtain ⟨top', based, above, cwd', same, stays', lands⟩ := scp_step proper copies
  obtain rfl : top' = top := Option.some.inj (based.symm.trans there)
  have dirs : ∀ l, t'.places.dir l = true ↔ t.places.dir l = true ∨ l = top' ++ dirNames e.1 := by
    intro l
    rw [same]
    constructor
    · exact fun dir => (only l dir).imp_right And.left
    · rintro (old | rfl)
      · exact keeps l old
      · exact above
  constructor
  · exact Places.locate_mono (fun l dir => (same l).mpr dir) cwd' there
  · intro l
    rw [dirs, midway.dir, exists_mem_concat, or_assoc]
  · intro l dir
    obtain old | ⟨-, free⟩ := only l ((same l).mp dir)
    · exact midway.made l old
    · right
      rw [Bool.eq_false_iff] at free ⊢
      exact fun there => free (midway.there l there)
  · exact fun l there => stays' l (stays l (midway.there l there))
  · intro free
    have free_ : ∀ other ∈ done ++ [e], mid.places.dir (top' ++ pathNames other.1) = false := fun other member => by
      rw [Bool.eq_false_iff, ne_eq, ← same, free other member]
      exact Bool.false_ne_true
    obtain ⟨before, others⟩ := midway.copies fun other member => by
      rw [Bool.eq_false_iff]
      intro dir
      have later := keeps _ dir
      rw [free_ other (List.mem_append_left _ member)] at later
      cases later
    obtain ⟨copy, rest⟩ := lands (free_ e (by simp))
    constructor
    · intro other member
      obtain old | rfl := (List.mem_append.mp member).imp_right List.mem_singleton.mp
      · rw [rest _ fun clash => fresh other old (List.append_cancel_left clash), files]
        exact before other old
      · exact copy
    · intro names apart
      rw [rest _ fun clash => apart e (by simp) (List.append_cancel_left clash), files]
      exact others names fun other member => apart other (List.mem_append_left _ member)

/-- **All files.** -/
theorem Midway.run {rest : List (String × SftpAttrs)} (midway : Midway src dst t clock base dstPath preserve top done)
    (proper : ∀ e ∈ rest, Proper e.1) (apart : (done ++ rest).Pairwise fun a b => pathNames a.1 ≠ pathNames b.1)
    (run : Run (Change src clock) t (rest.flatMap (copyCalls base dstPath preserve)) t') :
    Midway src dst t' clock base dstPath preserve top (done ++ rest) := by
  induction rest generalizing t done with
  | nil =>
    cases run
    rwa [List.append_nil]
  | cons e rest ih =>
    obtain ⟨first, proper⟩ := List.forall_mem_cons.mp proper
    rw [List.flatMap_cons] at run
    obtain ⟨mid, here, later⟩ := run.split
    have fresh : ∀ other ∈ done, pathNames other.1 ≠ pathNames e.1 := fun other member =>
      (List.pairwise_append.mp apart).2.2 other member e List.mem_cons_self
    have next := midway.next first fresh here
    rw [List.append_cons] at apart ⊢
    exact ih next proper apart later

/-- A file that was copied has the destination be a directory. -/
theorem located_of_copies {e : String × SftpAttrs} {rest : List (String × SftpAttrs)} (proper : Proper e.1)
    (run : Run (Change src clock) dst ((e :: rest).flatMap (copyCalls base dstPath preserve)) t) :
    ∃ top, dst.places.locate dstPath = some top := by
  rw [List.flatMap_cons] at run
  obtain ⟨mid, here, -⟩ := run.split
  cases here with
  | step makes rest =>
    cases rest with
    | step copies _ =>
      obtain ⟨top, based, -⟩ := scp_step proper copies
      exact ⟨top, located_of_mkdir_step proper makes based⟩

end

/-! ## What the removals leave -/

section

variable {src t t' : FileTree} {clock : String → Int} {dstPath : String} {top : List FileName} {rels : List String}

/-- The requests of the delete loop. -/
def removeCalls (dstPath : String) (rels : List String) : List SyncCall :=
  rels.map fun rel => .remove rel (joinPath dstPath rel)

/-- Where the destination is no directory, nothing is removed. -/
theorem unmoved (proper : ∀ rel ∈ rels, Proper rel)
    (noDir : ∀ top, t.places.locate dstPath = some top → t.places.dir top = false)
    (run : Run (Change src clock) t (removeCalls dstPath rels) t') : t' = t := by
  induction rels with
  | nil =>
    cases run
    rfl
  | cons rel rels ih =>
    obtain ⟨first, proper⟩ := List.forall_mem_cons.mp proper
    cases run with
    | step stepped rest =>
      cases stepped with
      | notRemoved => exact ih proper rest
      | removed located loses =>
        obtain ⟨top, based, dir, -⟩ := first.locate located
        have none_ := noDir top based
        rw [Places.dir_of_append dir] at none_
        cases none_

/-- The removals keep the directories and the files with other paths. -/
theorem removes (proper : ∀ rel ∈ rels, Proper rel) (located : t.places.locate dstPath = some top)
    (run : Run (Change src clock) t (removeCalls dstPath rels) t') :
    t'.places.locate dstPath = some top ∧ (∀ l, t'.places.dir l = true ↔ t.places.dir l = true) ∧
      ∀ names, (∀ rel ∈ rels, names ≠ pathNames rel) → t'.fileAt (top ++ names) = t.fileAt (top ++ names) := by
  induction rels generalizing t with
  | nil =>
    cases run
    exact ⟨located, fun l => Iff.rfl, fun names _ => rfl⟩
  | cons rel rels ih =>
    obtain ⟨first, proper⟩ := List.forall_mem_cons.mp proper
    cases run with
    | step stepped rest =>
      cases stepped with
      | notRemoved =>
        obtain ⟨located, dirs, files⟩ := ih proper located rest
        exact ⟨located, dirs, fun names apart => files names (List.forall_mem_cons.mp apart).2⟩
      | removed there loses =>
        obtain ⟨top', based, -, rfl⟩ := first.locate there
        obtain rfl : top' = top := Option.some.inj (based.symm.trans located)
        have still := Places.locate_mono (fun l dir => (loses.dir l).mpr dir) loses.cwd located
        obtain ⟨located, dirs, files⟩ := ih proper still rest
        refine ⟨located, fun l => (dirs l).trans (loses.dir l), fun names apart => ?_⟩
        obtain ⟨other, apart⟩ := List.forall_mem_cons.mp apart
        rw [files names apart, loses.file, if_neg fun clash => other (List.append_cancel_left clash)]

end

/-! ## Two runs -/

theorem needsCopy_congr {a b c : SftpAttrs} (size : b.size = c.size) (mtime : b.mtime = c.mtime) :
    needsCopy a (some b) = needsCopy a (some c) := by
  simp only [needsCopy, size, mtime]

/-- A copy passes for its file with its time, or when its own is close. -/
theorem needsCopy_copyAttrs {a : SftpAttrs} {preserve : Bool} {time : Int} :
    needsCopy a (some (copyAttrs a preserve time)) = false ↔
      preserve = true ∨ (a.mtime.getD 0 - time).natAbs ≤ mtimeTolerance := by
  cases preserve with
  | true => simp [needsCopy, copyAttrs]
  | false => simp [needsCopy, copyAttrs]

theorem entriesToCopy_eq_nil {files dstFiles : Dict String SftpAttrs} : entriesToCopy files dstFiles = [] ↔
    ∀ e ∈ files.items, needsCopy e.2 (dstFiles.get? e.1) = false := by
  simp [entriesToCopy, List.filter_eq_nil_iff]

/-- The requests of a run that succeeds. -/
theorem log_of_succeeds {env : SyncEnv} {src dst : SftpServer} {srcPath dstPath base : String} {delete preserve : Bool}
    {files : Dict String SftpAttrs} (listed : sourceFiles src srcPath = .listed files base)
    (succeeds : (syncCrossServer env src dst srcPath dstPath delete preserve).2.isSome = true) :
    ∃ rels, (∀ rel ∈ rels, rel ∈ (sftpListTree (dst.path dstPath) dstPath).keys ∧ rel ∉ files.keys) ∧
      (syncCrossServer env src dst srcPath dstPath delete preserve).1 =
        (entriesToCopy files (sftpListTree (dst.path dstPath) dstPath)).flatMap (copyCalls base dstPath preserve) ++
          removeCalls dstPath rels := by
  have spec := @copyFiles_done env (sftpListTree (dst.path dstPath) dstPath) base dstPath preserve files.items {}
  have sessions : env.sessions = true := by
    by_contra closed
    rw [syncCrossServer, Bool.eq_false_iff.mpr closed, Bool.not_false, if_pos rfl] at succeeds
    cases succeeds
  rw [syncCrossServer, sessions, Bool.not_true, if_neg Bool.false_ne_true, listed] at succeeds ⊢
  simp only [entriesToCopy] at *
  generalize copyFiles env (sftpListTree (dst.path dstPath) dstPath) base dstPath preserve files.items {} = loop at *
  obtain ⟨s, done⟩ := loop
  cases done with
  | false => simp at succeeds
  | true =>
    obtain ⟨calls, -⟩ := spec rfl
    cases delete with
    | false => exact ⟨[], by simp, by simpa [removeCalls] using calls⟩
    | true =>
      refine ⟨(sftpListTree (dst.path dstPath) dstPath).keys.filter (· ∉ files.keys), by simp, ?_⟩
      dsimp only at calls
      simp only [Bool.not_true, Bool.false_eq_true, if_false, if_true, calls_deleteFiles, calls, List.nil_append]
      rfl

/-- An entry of the destination is the file at its place. -/
theorem get?_listing {t : FileTree} {dstPath rel : String} {top : List FileName}
    (located : t.places.locate dstPath = some top) (dir : t.places.dir top = true) (proper : Proper rel) :
    (sftpListTree (t.remote dstPath) dstPath).get? rel = t.fileAt (top ++ pathNames rel) := by
  have leads := FileTree.resolve_of_locate located dir
  ext attrs
  rw [FileTree.get?_sftpListTree_iff leads (FileTree.dir_places_iff.mp dir)]
  constructor
  · rintro ⟨names, same, at_⟩
    rw [proper.whole] at same
    rwa [relPath_injective same]
  · exact fun at_ => ⟨pathNames rel, proper.whole, at_⟩

/-- Something is listed only where something is. -/
theorem there_of_listed {t : FileTree} {dstPath rel : String} {attrs : SftpAttrs}
    (found : (sftpListTree (t.remote dstPath) dstPath).get? rel = some attrs) :
    ∃ top, t.places.locate dstPath = some top ∧ t.places.there top = true := by
  obtain ⟨loc, leads, -⟩ := FileTree.leads_of_get? found
  have at_ : ∃ top, t.resolve dstPath = some top := by
    cases leads with
    | file leads => exact ⟨_, leads⟩
    | below leads => exact ⟨_, leads⟩
  obtain ⟨top, leads⟩ := at_
  obtain ⟨node, here⟩ := FileTree.node_of_resolve leads
  refine ⟨top, FileTree.locate_of_resolve leads, ?_⟩
  change (t.node top).isSome = true
  rw [here]
  rfl

/-- The files that the source path takes in have relative paths of their own. -/
theorem pairwise_pathNames {files : Dict String SftpAttrs} (proper : ∀ e ∈ files.items, Proper e.1) :
    files.items.Pairwise fun a b => pathNames a.1 ≠ pathNames b.1 := by
  have keys : files.items.Pairwise fun a b => a.1 ≠ b.1 := List.pairwise_map.mp files.nodup
  refine keys.imp_of_mem fun {a b} first second apart same => ?_
  exact apart ((proper a first).eq_of_pathNames (proper b second) same)

section

variable {src dst dst' : FileTree} {clock : String → Int} {base dstPath : String} {preserve : Bool}
  {files : Dict String SftpAttrs} {rels : List String}

/-- A file of the source is not among those that are removed. -/
theorem apart_of_removed (proper : ∀ e ∈ files.items, Proper e.1) (removed : ∀ rel ∈ rels, Proper rel ∧ rel ∉ files.keys)
    {e : String × SftpAttrs} (member : e ∈ files.items) : ∀ rel ∈ rels, pathNames e.1 ≠ pathNames rel := by
  intro rel gone clash
  have same := (proper e member).eq_of_pathNames (removed rel gone).1 clash
  exact (removed rel gone).2 (same ▸ List.mem_map_of_mem member)

/-- Entries of one path are one entry. -/
theorem eq_of_pathNames (proper : ∀ e ∈ files.items, Proper e.1) {e x : String × SftpAttrs} (member : e ∈ files.items)
    (inside : x ∈ files.items) (clash : pathNames e.1 = pathNames x.1) : e = x := by
  have keys := (proper e member).eq_of_pathNames (proper x inside) clash
  have one := Dict.get?_of_mem member
  rw [keys, Dict.get?_of_mem inside] at one
  exact Prod.ext keys (Option.some.inj one).symm

/-- The run without copies: nothing that is compared changes. -/
theorem settled_of_nothing (proper : ∀ e ∈ files.items, Proper e.1)
    (removed : ∀ rel ∈ rels, Proper rel ∧ rel ∉ files.keys)
    (none_ : entriesToCopy files (sftpListTree (dst.remote dstPath) dstPath) = [])
    (run : Run (Change src clock) dst (removeCalls dstPath rels) dst') :
    entriesToCopy files (sftpListTree (dst'.remote dstPath) dstPath) = [] := by
  by_cases dir : ∃ top, dst.places.locate dstPath = some top ∧ dst.places.dir top = true
  · obtain ⟨top, located, dir⟩ := dir
    obtain ⟨located', dirs, same⟩ := removes (fun rel member => (removed rel member).1) located run
    rw [entriesToCopy_eq_nil] at none_ ⊢
    intro e member
    rw [get?_listing located' ((dirs top).mpr dir) (proper e member), same _ (apart_of_removed proper removed member),
      ← get?_listing located dir (proper e member)]
    exact none_ e member
  · rw [unmoved (fun rel member => (removed rel member).1) (fun top located => ?_) run]
    · exact none_
    · rw [Bool.eq_false_iff]
      exact fun there => dir ⟨top, located, there⟩

/-- No directory is at the place of a copied file exactly if none was there and none was made. -/
theorem Midway.free_iff {t : FileTree} {top : List FileName} {done : List (String × SftpAttrs)}
    (midway : Midway src dst t clock base dstPath preserve top done) :
    (∀ e ∈ done, t.places.dir (top ++ pathNames e.1) = false) ↔
      ∀ e ∈ done, dst.places.dir (top ++ pathNames e.1) = false ∧ ∀ other ∈ done, pathNames e.1 ≠ dirNames other.1 := by
  constructor
  · intro free e member
    have none_ : ¬ t.places.dir (top ++ pathNames e.1) = true := by simp [free e member]
    constructor
    · rw [Bool.eq_false_iff]
      exact fun dir => none_ ((midway.dir _).mpr (.inl dir))
    · exact fun other among clash => none_ ((midway.dir _).mpr (.inr ⟨other, among, by rw [clash]⟩))
  · intro free e member
    obtain ⟨open_, apart⟩ := free e member
    rw [Bool.eq_false_iff]
    intro dir
    obtain old | ⟨other, among, clash⟩ := (midway.dir _).mp dir
    · rw [open_] at old
      cases old
    · exact apart other among (List.append_cancel_left clash)

/-- A copy passes for its file exactly if the file that was read does with the time of the copy. -/
theorem Midway.needsCopy_eq {t : FileTree} {top : List FileName} {done : List (String × SftpAttrs)}
    (midway : Midway src dst t clock base dstPath preserve top done)
    (free : ∀ e ∈ done, t.places.dir (top ++ pathNames e.1) = false) {e : String × SftpAttrs} (member : e ∈ done) :
    needsCopy e.2 (t.fileAt (top ++ pathNames e.1)) = false ↔ ∀ read, src.read (srcFull base e.1) = some read →
      needsCopy e.2 (some (copyAttrs read preserve (clock e.1))) = false := by
  obtain ⟨read, attrs, reads, at_, size, mtime⟩ := (midway.copies free).1 e member
  rw [at_, needsCopy_congr size mtime]
  constructor
  · intro ok read' reads'
    obtain rfl : read = read' := Option.some.inj (reads.symm.trans reads')
    exact ok
  · exact fun each => each read reads

/-- A file that was not copied passes as it did before. -/
theorem Midway.kept {t : FileTree} {top : List FileName} {done : List (String × SftpAttrs)}
    (midway : Midway src dst t clock base dstPath preserve top done) (located : dst.places.locate dstPath = some top)
    (isDir : t.places.dir top = true) (free : ∀ e ∈ done, t.places.dir (top ++ pathNames e.1) = false)
    {e : String × SftpAttrs} (proper : Proper e.1) (apart : ∀ x ∈ done, pathNames e.1 ≠ pathNames x.1)
    (passes : needsCopy e.2 ((sftpListTree (dst.remote dstPath) dstPath).get? e.1) = false) :
    needsCopy e.2 (t.fileAt (top ++ pathNames e.1)) = false := by
  obtain ⟨attrs, found⟩ : ∃ attrs, (sftpListTree (dst.remote dstPath) dstPath).get? e.1 = some attrs := by
    by_contra none_
    rw [Option.eq_none_iff_forall_ne_some.mpr fun attrs found => none_ ⟨attrs, found⟩] at passes
    cases passes
  -- what is listed was there before, so that the directory was not made
  obtain ⟨top', based, there⟩ := there_of_listed found
  obtain rfl : top' = top := Option.some.inj (based.symm.trans located)
  have before : dst.places.dir top' = true := by
    obtain old | fresh := midway.made top' isDir
    · exact old
    · rw [there] at fresh
      cases fresh
  rwa [(midway.copies free).2 _ apart, ← get?_listing located before proper]

/-- The run with copies. -/
theorem settled_iff_of_copies {top : List FileName} {mid : FileTree} (proper : ∀ e ∈ files.items, Proper e.1)
    (removed : ∀ rel ∈ rels, Proper rel ∧ rel ∉ files.keys) (located : dst.places.locate dstPath = some top)
    (some_ : entriesToCopy files (sftpListTree (dst.remote dstPath) dstPath) ≠ [])
    (midway : Midway src dst mid clock base dstPath preserve top
      (entriesToCopy files (sftpListTree (dst.remote dstPath) dstPath)))
    (run : Run (Change src clock) mid (removeCalls dstPath rels) dst') :
    entriesToCopy files (sftpListTree (dst'.remote dstPath) dstPath) = [] ↔
      CopiesSettle src dst clock base dstPath preserve
        (entriesToCopy files (sftpListTree (dst.remote dstPath) dstPath)) := by
  obtain ⟨located', dirs, same⟩ := removes (fun rel member => (removed rel member).1) midway.located run
  obtain ⟨first, among⟩ := List.exists_mem_of_ne_nil _ some_
  have isDir : mid.places.dir top = true :=
    Places.dir_of_append ((midway.dir (top ++ dirNames first.1)).mpr (.inr ⟨first, among, rfl⟩))
  have after : ∀ e ∈ files.items, (sftpListTree (dst'.remote dstPath) dstPath).get? e.1 =
      mid.fileAt (top ++ pathNames e.1) := by
    intro e member
    rw [get?_listing located' ((dirs top).mpr isDir) (proper e member), same _ (apart_of_removed proper removed member)]
  rw [entriesToCopy_eq_nil]
  generalize all_ : entriesToCopy files (sftpListTree (dst.remote dstPath) dstPath) = all at *
  have chosen : ∀ e, e ∈ all ↔ e ∈ files.items ∧
      needsCopy e.2 ((sftpListTree (dst.remote dstPath) dstPath).get? e.1) = true := by
    intro e
    rw [← all_, entriesToCopy, List.mem_filter]
  constructor
  · intro settled top' based e member
    obtain rfl : top' = top := Option.some.inj (based.symm.trans located)
    have passes : ∀ x ∈ all, needsCopy x.2 (mid.fileAt (top' ++ pathNames x.1)) = false := by
      intro x among
      have listed := ((chosen x).mp among).1
      rw [← after x listed]
      exact settled x listed
    -- every file has an entry, so that no directory is at its place
    have free : ∀ x ∈ all, mid.places.dir (top' ++ pathNames x.1) = false := by
      intro x among
      rw [Bool.eq_false_iff]
      intro dir
      have ok := passes x among
      rw [FileTree.fileAt_of_dir dir] at ok
      cases ok
    obtain ⟨open_, apart⟩ := midway.free_iff.mp free e member
    exact ⟨open_, apart, (midway.needsCopy_eq free member).mp (passes e member)⟩
  · intro settles e member
    have settles := settles top located
    have free := midway.free_iff.mpr fun x among => ⟨(settles x among).1, (settles x among).2.1⟩
    rw [after e member]
    by_cases among : e ∈ all
    · exact (midway.needsCopy_eq free among).mpr (settles e among).2.2
    · have apart : ∀ x ∈ all, pathNames e.1 ≠ pathNames x.1 := by
        intro x inside clash
        exact among (eq_of_pathNames proper member ((chosen x).mp inside).1 clash ▸ inside)
      apply midway.kept located isDir free (proper e member) apart
      rw [Bool.eq_false_iff]
      exact fun needed => among ((chosen e).mpr ⟨member, needed⟩)

end

/-- **A second run copies nothing exactly if** every file that was copied went to its own
path, and its copy passes for it: with `preserve`, or when the file is as old as the copy. -/
theorem incremental_iff (env env' : SyncEnv) (src dst dst' : FileTree) (glob dstGlob dstGlob' : String → Option (List String))
    (clock : String → Int) (srcPath dstPath base : String) (delete preserve : Bool) (files : Dict String SftpAttrs)
    (listed : sourceFiles (src.server glob) srcPath = .listed files base)
    (succeeds : (syncCrossServer env (src.server glob) (dst.server dstGlob) srcPath dstPath delete preserve).2.isSome = true)
    (changed : Run (Change src clock) dst
      (syncCrossServer env (src.server glob) (dst.server dstGlob) srcPath dstPath delete preserve).1 dst')
    (again : env'.sessions = true) :
    CopiesNothing env' (src.server glob) (dst'.server dstGlob') srcPath dstPath delete preserve files ↔
      CopiesSettle src dst clock base dstPath preserve
        (entriesToCopy files (sftpListTree (dst.remote dstPath) dstPath)) := by
  obtain ⟨rels, removed, log⟩ := log_of_succeeds listed succeeds
  obtain ⟨-, -, from_⟩ := FileTree.sourceFiles_spec listed
  have proper : ∀ e ∈ files.items, Proper e.1 := by
    intro e member
    obtain ⟨loc, matched, -⟩ := from_ e.1 e.2 (Dict.get?_of_mem member)
    obtain ⟨path, leads⟩ := matched.leads
    exact leads.proper
  have removed : ∀ rel ∈ rels, Proper rel ∧ rel ∉ files.keys := by
    intro rel member
    obtain ⟨present, absent⟩ := removed rel member
    obtain ⟨attrs, found⟩ := Dict.mem_keys_iff.mp present
    obtain ⟨loc, leads, -⟩ := FileTree.leads_of_get? found
    exact ⟨leads.proper, absent⟩
  rw [copiesNothing_iff again listed]
  change entriesToCopy files (sftpListTree (dst'.remote dstPath) dstPath) = [] ↔ _
  rw [log] at changed
  obtain ⟨mid, copied, rest⟩ := changed.split
  have dstFiles : (dst.server dstGlob).path dstPath = dst.remote dstPath := rfl
  rw [dstFiles] at copied
  cases all : entriesToCopy files (sftpListTree (dst.remote dstPath) dstPath) with
  | nil =>
    rw [all] at copied
    cases copied
    exact iff_of_true (settled_of_nothing proper removed all rest) fun _ _ e member => absurd member List.not_mem_nil
  | cons first others =>
    have sub : ∀ e ∈ first :: others, e ∈ files.items := fun e member =>
      List.mem_of_mem_filter (show e ∈ entriesToCopy files _ from all ▸ member)
    have apart : (first :: others).Pairwise fun a b => pathNames a.1 ≠ pathNames b.1 := by
      rw [← all]
      exact (pairwise_pathNames proper).sublist List.filter_sublist
    rw [all] at copied
    obtain ⟨top, located⟩ := located_of_copies (proper first (sub first List.mem_cons_self)) copied
    have midway := (Midway.start located).run (fun e member => proper e (sub e member)) apart copied
    rw [← all] at midway ⊢
    exact settled_iff_of_copies proper removed located (by simp [all]) midway rest

/-! ## A file that is older than its copy -/

theorem f_ne_empty : "f" ≠ "" := by decide

theorem f_solid : '/' ∉ "f".toList := by decide

def nameF : FileName := ⟨"f", f_ne_empty, f_solid⟩

/-- A file of this time. -/
def fileOf (time : Int) : SftpAttrs := { plainFile with mtime := some time }

theorem isDir_fileOf (time : Int) : (fileOf time).isDir = false := by
  have file : plainFile.isDir = false := by decide
  exact file

/-- A file `f` of this time. -/
def copiedTree (time : Int) : FileTree where
  attrs := plainDir
  root := .cons nameF (fileOf time) .nil .nil
  cwd := []
  isDir := isDir_plainDir
  distinct := ⟨rfl, trivial, trivial⟩
  home := ⟨_, rfl, isDir_plainDir⟩

theorem node_emptyTree (l : List FileName) : emptyTree.node l = if l = [] then some (plainDir, .nil) else none := by
  cases l with
  | nil => rfl
  | cons name l => simp [FileTree.node, emptyTree, Node.descend, Listing.find]

/-- The copied tree has its root and the one file. -/
theorem node_copiedTree (time : Int) (l : List FileName) : (copiedTree time).node l =
    if l = [] then some (plainDir, (copiedTree time).root) else if l = [nameF] then some (fileOf time, .nil) else none := by
  cases l with
  | nil => rfl
  | cons name l =>
    rw [if_neg (List.cons_ne_nil name l), FileTree.node, Node.descend, if_pos (copiedTree time).isDir]
    by_cases same : name = nameF
    · have found : (copiedTree time).root.find name.text.toList = some (nameF, fileOf time, .nil) := by
        rw [same]
        rfl
      rw [found, same]
      cases l with
      | nil => rfl
      | cons second l => simp [Node.descend, isDir_fileOf]
    · have absent : (copiedTree time).root.find name.text.toList = none := by
        rw [copiedTree, Listing.find, if_neg fun texts => same (FileName.ext_text (String.toList_inj.mp texts.2.symm))]
        rfl
      rw [absent, if_neg (by simp [same])]

theorem gains_copiedTree (time : Int) : emptyTree.Gains (copiedTree time) [nameF] (fileOf time) := by
  refine ⟨rfl, fun l => ?_, fun l => ?_⟩
  · change ((copiedTree time).node l).any _ = true ↔ (emptyTree.node l).any _ = true ∨ _
    rw [node_copiedTree, node_emptyTree]
    by_cases top : l = []
    · simp [top]
    · by_cases here : l = [nameF]
      · simp [here, isDir_fileOf]
      · simp [top, here]
  · rw [FileTree.fileAt, FileTree.fileAt, node_copiedTree, node_emptyTree]
    by_cases top : l = []
    · simp [top]
    · by_cases here : l = [nameF]
      · simp [here, isDir_fileOf]
      · simp [top, here]

/-- The source lists its one file. -/
theorem listed_oneFile : sourceFiles (FileTree.oneFile.server fun _ => none) "/d" =
    .listed (Dict.empty.insert "f" plainFile) "/d" := by
  rw [sourceFiles, if_neg (by decide)]
  rfl

/-- The copy of the one file into an empty root directory. -/
theorem changed_copiedTree (preserve : Bool) (time : Int) :
    (syncCrossServer .smooth (FileTree.oneFile.server fun _ => none) (emptyTree.server fun _ => none) "/d" "/" false
        preserve).2.isSome = true ∧
      Run (Change FileTree.oneFile fun _ => time) emptyTree
        (syncCrossServer .smooth (FileTree.oneFile.server fun _ => none) (emptyTree.server fun _ => none) "/d" "/" false
          preserve).1 (copiedTree (if preserve then 0 else time)) := by
  have run : (syncCrossServer .smooth (FileTree.oneFile.server fun _ => none) (emptyTree.server fun _ => none) "/d" "/"
      false preserve).1 = [.mkdir "/", .scp "f" "/d/f" "/f" preserve] ∧
      (syncCrossServer .smooth (FileTree.oneFile.server fun _ => none) (emptyTree.server fun _ => none) "/d" "/"
        false preserve).2.isSome = true := by
    cases preserve <;> decide +kernel
  refine ⟨run.2, ?_⟩
  rw [run.1]
  have reads : FileTree.oneFile.read "/d/f" = some plainFile := by decide +kernel
  have located : emptyTree.places.locate "/f" = some [nameF] := by decide +kernel
  have free : emptyTree.places.dir [nameF] = false := by decide +kernel
  refine .step .notMade (.step (.copied reads located (.inl ⟨free, rfl⟩) (isDir_fileOf _) rfl ?_ (gains_copiedTree _))
    (.refl _))
  cases preserve <;> rfl

/-- With `preserve`, the file keeps its time. -/
theorem incremental_preserved : CopiesNothing .smooth (FileTree.oneFile.server fun _ => none)
    ((copiedTree 0).server fun _ => none) "/d" "/" false true (Dict.empty.insert "f" plainFile) := by
  obtain ⟨succeeds, changed⟩ := changed_copiedTree true 1000
  refine (incremental_iff .smooth .smooth FileTree.oneFile emptyTree (copiedTree 0) (fun _ => none) (fun _ => none)
    (fun _ => none) (fun _ => 1000) "/d" "/" "/d" false true _ listed_oneFile succeeds changed rfl).mpr ?_
  have all : entriesToCopy (Dict.empty.insert "f" plainFile) (sftpListTree (emptyTree.remote "/") "/") =
      [("f", plainFile)] := by decide +kernel
  rw [all]
  intro top located e member
  obtain rfl := List.mem_singleton.mp member
  have root : emptyTree.places.locate "/" = some [] := by decide +kernel
  obtain rfl : top = [] := Option.some.inj (located.symm.trans root)
  refine ⟨by decide +kernel, fun other among => ?_, fun read reads => ?_⟩
  · obtain rfl := List.mem_singleton.mp among
    decide +kernel
  · have file : FileTree.oneFile.read (srcFull "/d" "f") = some plainFile := by decide +kernel
    obtain rfl : read = plainFile := Option.some.inj (reads.symm.trans file)
    exact needsCopy_copyAttrs.mpr (.inl rfl)

/-- **Without `preserve` an old file is copied again.** -/
theorem old_file_copied_again : ¬ ∀ (env env' : SyncEnv) (src dst dst' : FileTree)
    (glob dstGlob dstGlob' : String → Option (List String)) (clock : String → Int) (srcPath dstPath base : String)
    (delete preserve : Bool) (files : Dict String SftpAttrs),
    sourceFiles (src.server glob) srcPath = .listed files base →
    (syncCrossServer env (src.server glob) (dst.server dstGlob) srcPath dstPath delete preserve).2.isSome = true →
    Run (Change src clock) dst
      (syncCrossServer env (src.server glob) (dst.server dstGlob) srcPath dstPath delete preserve).1 dst' →
    env'.sessions = true →
    CopiesNothing env' (src.server glob) (dst'.server dstGlob') srcPath dstPath delete preserve files := by
  intro claim
  obtain ⟨succeeds, changed⟩ := changed_copiedTree false 1000
  have nothing := claim .smooth .smooth FileTree.oneFile emptyTree (copiedTree 1000) (fun _ => none) (fun _ => none)
    (fun _ => none) (fun _ => 1000) "/d" "/" "/d" false false _ listed_oneFile succeeds changed rfl
  obtain ⟨report, done, copied, -⟩ := nothing
  have again : (syncCrossServer .smooth (FileTree.oneFile.server fun _ => none) ((copiedTree 1000).server fun _ => none)
      "/d" "/" false false).2.map SyncReport.copied = some ["f"] := by decide +kernel
  rw [done, Option.map_some, copied] at again
  cases again

end McpSsh
