import McpSsh.FileTree
import McpSsh.SyncContainment

/-!
# What a sync reads

`_sync_cross_server` compares by relative path and reads `src_full`, the relative path
joined to one base path. A listing takes its relative paths from the directory that is
listed, and for a file from the directory that holds it. The file that was compared is
the one that is read exactly when the base path leads to that directory.
-/

set_option autoImplicit false

namespace McpSsh

open Base

/-- `src_full`. -/
def srcFull (base rel : String) : String := if base = "" then rel else joinPath base rel

theorem srcFull_eq (base rel : String) : srcFull base rel = joinPath base rel := by
  unfold srcFull
  split
  · rename_i top
    rw [top, joinPath]
    simp
  · rfl

/-- The copy loop reads the `src_full` of what it copies. -/
theorem scp_reads_srcFull (env : SyncEnv) (dstFiles : Dict String SftpAttrs) (base dstPath : String) (preserve : Bool)
    (files : List (String × SftpAttrs)) (s : SyncState) {rel src dst : String} {p : Bool}
    (made : .scp rel src dst p ∈ (copyFiles env dstFiles base dstPath preserve files s).1.calls) :
    .scp rel src dst p ∈ s.calls ∨ src = srcFull base rel ∧ rel ∈ files.map Prod.fst := by
  induction files generalizing s with
  | nil => exact .inl made
  | cons e files ih =>
    rw [copyFiles] at made
    rw [List.map_cons, List.mem_cons]
    split at made
    · exact (ih _ made).imp id fun later => ⟨later.1, .inr later.2⟩
    · have here : ∀ t : SyncState, .scp rel src dst p ∈ t.calls ++ [.mkdir (dirname (joinPath dstPath e.1)),
          .scp e.1 (srcFull base e.1) (joinPath dstPath e.1) preserve] →
          .scp rel src dst p ∈ t.calls ∨ src = srcFull base rel ∧ rel = e.1 := by
        intro t member
        simp only [List.mem_append, List.mem_cons, List.not_mem_nil, or_false, reduceCtorEq, false_or,
          SyncCall.scp.injEq] at member
        rcases member with old | ⟨rfl, rfl, -, -⟩
        · exact .inl old
        · exact .inr ⟨rfl, rfl⟩
      dsimp only at made
      split at made
      · rcases ih _ made with before | later
        · exact (here s before).imp id fun this => ⟨this.1, .inl this.2⟩
        · exact .inr ⟨later.1, .inr later.2⟩
      · exact (here s made).imp id fun this => ⟨this.1, .inl this.2⟩

/-! ## What a listing holds -/

/-- The loop adds what the directories hold, with its attributes. -/
theorem Listing.mem_items_walkEntries {fails : String → Bool} {l : Listing} {dirPath : String} {above : List FileName}
    {result : Dict String SftpAttrs} {e : String × SftpAttrs}
    (member : e ∈ (walkEntries fails dirPath (relPath above) l result).items) :
    e ∈ result.items ∨ ∃ names, l.Reads fails dirPath names e.2 ∧ e.1 = relPath (above ++ names) := by
  induction l generalizing dirPath above result with
  | nil => exact .inl member
  | cons name attrs below rest inner outer =>
    rw [walkEntries, relPath_down] at member
    rcases outer member with before | ⟨names, later, same⟩
    · cases dots : name.isDots with
      | true =>
        rw [dots, if_pos rfl] at before
        exact .inl before
      | false =>
        simp only [dots, Bool.false_eq_true, if_false] at before
        cases dir : attrs.isDir with
        | false =>
          simp only [dir, Bool.false_eq_true, if_false] at before
          rcases Dict.mem_items_insert.mp before with rfl | ⟨-, old⟩
          · exact .inr ⟨[name], .here dots dir, rfl⟩
          · exact .inl old
        | true =>
          simp only [dir, if_true] at before
          split at before
          · exact .inl before
          · rename_i listed
            rcases inner before with old | ⟨names, inside, same⟩
            · exact .inl old
            · exact .inr ⟨name :: names, .down dots dir (by simpa using listed) inside, by simpa using same⟩
    · exact .inr ⟨names, .skip later, same⟩

namespace FileTree

variable (t : FileTree)

/-- The listing of `path` takes in the file at `loc`, under the relative path `rel`. -/
inductive Leads (path : String) : List FileName → String → Prop where
  | file {loc : List FileName} (leads : t.resolve path = some loc) (isFile : t.IsFile loc) :
      Leads path loc (basename path)
  | below {top names : List FileName} (leads : t.resolve path = some top) (dir : t.IsDir top)
      (isFile : t.IsFile (top ++ names)) : Leads path (top ++ names) (relPath names)

variable {t}

theorem reads_iff {top names : List FileName} {node : Node} (at_ : t.node top = some node) (dir : node.1.isDir = true)
    (dirPath : String) (a : SftpAttrs) : node.2.Reads (fun _ => false) dirPath names a ↔
      ∃ below, t.node (top ++ names) = some (a, below) ∧ a.isDir = false := by
  have distinct : node.2.Distinct := distinct_of_descend t.distinct at_
  rw [Listing.reads_iff_descend distinct dir, FileTree.node, Node.descend_append]
  change _ ↔ ∃ below, (t.node top).bind (fun mid => mid.descend names) = some (a, below) ∧ a.isDir = false
  rw [at_]
  rfl

/-- Every file of the tree that a path takes in is listed. -/
theorem mem_keys_of_leads {path rel : String} {loc : List FileName} (leads : t.Leads path loc rel) :
    rel ∈ (sftpListTree (t.remote path) path).keys := by
  rw [RemotePath.mem_keys_sftpListTree]
  cases leads with
  | file leads isFile =>
    obtain ⟨node, at_, file⟩ := isFile
    simp [RemotePath.Lists, remote, leads, at_, file]
  | @below top names leads dir isFile =>
    obtain ⟨node, at_, dir⟩ := dir
    obtain ⟨last, reached, file⟩ := isFile
    have reads := (reads_iff at_ dir path last.1).mpr ⟨last.2, reached, file⟩
    simp only [RemotePath.Lists, remote, leads, Option.bind_some, at_, dir, and_self, if_true, true_and]
    exact ⟨names, last.1, reads, rfl⟩

/-- What is listed is a file of the tree, with its attributes. -/
theorem leads_of_get? {path rel : String} {attrs : SftpAttrs}
    (found : (sftpListTree (t.remote path) path).get? rel = some attrs) :
    ∃ loc, t.Leads path loc rel ∧ (t.node loc).map Prod.fst = some attrs := by
  cases leads : t.resolve path with
  | none => simp [sftpListTree, RemotePath.isdir, RemotePath.stat, remote, leads] at found
  | some top =>
    obtain ⟨node, at_⟩ := node_of_resolve leads
    cases kind : node.1.isDir with
    | false =>
      simp only [sftpListTree, RemotePath.isdir, RemotePath.stat, remote, leads, at_, Option.bind_some, kind,
        Option.any_some, Bool.false_eq_true, if_false, Option.some.injEq, Option.map_some] at found
      rw [Dict.get?_insert] at found
      split at found
      · rename_i same
        subst same
        cases found
        exact ⟨top, .file leads ⟨node, at_, kind⟩, by rw [at_]; rfl⟩
      · cases found
    | true =>
      simp only [sftpListTree, RemotePath.isdir, remote, leads, at_, Option.bind_some, kind, Option.any_some,
        Bool.false_eq_true, if_false, if_true, Option.map_some, Option.getD_some] at found
      have member := Dict.get?_eq_some_iff.mp found
      rw [← relPath_nil] at member
      rcases Listing.mem_items_walkEntries member with old | ⟨names, reads, same⟩
      · cases old
      · obtain ⟨below, reached, file⟩ := (reads_iff at_ kind path attrs).mp reads
        rw [List.nil_append] at same
        refine ⟨top ++ names, ?_, by rw [reached]; rfl⟩
        rw [show rel = relPath names from same]
        exact .below leads ⟨node, at_, kind⟩ ⟨(attrs, below), reached, file⟩

/-! ## The base path -/

variable (t) in
/-- `base` leads to the directory that the relative paths of the files below `path`
start from, or of the file at `path`. -/
def Based (base path : String) : Prop := ∀ top, t.resolve path = some top →
  (t.IsFile top → t.resolve base = some top.dropLast) ∧
    (t.IsDir top → (∃ names, t.IsFile (top ++ names)) → t.resolve base = some top)

/-- A relative path leads on from the base by its names. -/
theorem resolve_srcFull_relPath {base : String} {names loc : List FileName}
    (plain : ∀ name ∈ names, name.isDots = false) (inside : names ≠ []) :
    t.resolve (srcFull base (relPath names)) = some loc ↔
      ∃ top, t.resolve base = some top ∧ loc = top ++ names ∧ (t.node loc).isSome = true := by
  rw [srcFull_eq, resolve_joinPath base (stays_relPath plain).1, segments_relPath inside, Option.bind_eq_some_iff]
  constructor
  · rintro ⟨top, leads, followed⟩
    obtain ⟨node, at_⟩ := node_of_resolve leads
    obtain ⟨rfl, some_⟩ := (follow_iff plain top (by rw [at_]; rfl) loc).mp followed
    exact ⟨top, leads, rfl, some_⟩
  · rintro ⟨top, leads, rfl, some_⟩
    obtain ⟨node, at_⟩ := node_of_resolve leads
    exact ⟨top, leads, (follow_iff plain top (by rw [at_]; rfl) _).mpr ⟨rfl, some_⟩⟩

/-- The file below `top` is read from a base path that leads to `top`. -/
theorem resolve_srcFull_iff {base : String} {top names : List FileName} (isFile : t.IsFile (top ++ names))
    (inside : names ≠ []) : t.resolve (srcFull base (relPath names)) = some (top ++ names) ↔ t.resolve base = some top := by
  obtain ⟨node, at_, -⟩ := isFile
  have plain := Node.plain_of_descend at_
  rw [resolve_srcFull_relPath (fun name member => plain name (List.mem_append_right top member)) inside]
  constructor
  · rintro ⟨mid, based, same, -⟩
    rw [based, List.append_cancel_right same]
  · intro based
    exact ⟨top, based, rfl, by rw [at_]; rfl⟩

theorem IsDir.ne_nil_of_isFile {top names : List FileName} (dir : t.IsDir top) (isFile : t.IsFile (top ++ names)) :
    names ≠ [] := by
  rintro rfl
  rw [List.append_nil] at isFile
  exact dir.not_isFile isFile

/-- **The files that a path takes in are read exactly when the base path is the
directory of their relative paths.** -/
theorem resolve_srcFull_iff_based (base path : String) :
    (∀ loc rel, t.Leads path loc rel → t.resolve (srcFull base rel) = some loc) ↔ t.Based base path := by
  constructor
  · intro reads top leads
    constructor
    · intro isFile
      have read := reads top _ (.file leads isFile)
      obtain ⟨front, name, rfl, text⟩ := basename_of_isFile leads isFile
      rw [← text, ← relPath_singleton, resolve_srcFull_iff isFile (by simp)] at read
      rw [List.dropLast_concat]
      exact read
    · rintro dir ⟨names, isFile⟩
      exact (resolve_srcFull_iff isFile (dir.ne_nil_of_isFile isFile)).mp (reads _ _ (.below leads dir isFile))
  · intro based loc rel leads
    cases leads with
    | file leads isFile =>
      have base_ := (based loc leads).1 isFile
      obtain ⟨front, name, rfl, text⟩ := basename_of_isFile leads isFile
      rw [List.dropLast_concat] at base_
      rw [← text, ← relPath_singleton, resolve_srcFull_iff isFile (by simp)]
      exact base_
    | @below top names leads dir isFile =>
      rw [resolve_srcFull_iff isFile (dir.ne_nil_of_isFile isFile)]
      exact (based top leads).2 dir ⟨names, isFile⟩

/-- The base path of a plain source path is the right one unless it is a file, or
only slashes are given where the server does not start at the root. -/
theorem based_stripSlashes_iff (path : String) : t.Based (stripSlashes path) path ↔
    (∀ loc, t.resolve path = some loc → ¬ t.IsFile loc) ∧
      (stripSlashes path = "" → path = "" ∨ t.cwd = [] ∨ ∀ loc, ¬ t.IsFile loc) := by
  have home : t.resolve "" = some t.cwd := resolve_slashes rfl
  constructor
  · intro based
    constructor
    · intro loc leads isFile
      have base_ := (based loc leads).1 isFile
      by_cases slashes : stripSlashes path = ""
      · rw [resolve_slashes slashes, Option.some.injEq] at leads
        rw [← leads] at isFile
        exact (isDir_start path).not_isFile isFile
      · rw [resolve_stripSlashes leads slashes, Option.some.injEq] at base_
        obtain ⟨front, name, rfl, -⟩ := basename_of_isFile leads isFile
        rw [List.dropLast_concat] at base_
        simpa using congrArg List.length base_
    · intro slashes
      by_cases empty : path = ""
      · exact .inl empty
      · right
        by_contra clash
        simp only [not_or, not_forall, not_not] at clash
        obtain ⟨away, loc, isFile⟩ := clash
        have top : t.start path = [] := start_of_slashes slashes empty
        have leads := resolve_slashes (t := t) slashes
        have base_ := (based _ leads).2 (isDir_start path) ⟨loc, by rw [top]; exact isFile⟩
        rw [slashes, home, top, Option.some.injEq] at base_
        exact away base_
  · rintro ⟨noFile, start⟩ top leads
    refine ⟨fun isFile => absurd isFile (noFile top leads), fun _ files => ?_⟩
    obtain ⟨names, isFile⟩ := files
    by_cases slashes : stripSlashes path = ""
    · rw [resolve_slashes slashes, Option.some.injEq] at leads
      rw [slashes, home, ← leads]
      by_cases empty : path = ""
      · rw [empty]
        rfl
      · have atTop : t.start path = [] := start_of_slashes slashes empty
        rcases start slashes with same | same | none_
        · exact absurd same empty
        · rw [same, atTop]
        · exact absurd isFile (none_ _)
    · exact resolve_stripSlashes leads slashes

/-! ## The two listings agree -/

variable (t) in
/-- The file at `loc` is matched by `src_path`, under the relative path `rel`. -/
def Matched (glob : String → Option (List String)) (srcPath : String) (loc : List FileName) (rel : String) : Prop :=
  if isGlob srcPath then ∃ path ∈ (glob srcPath).getD [], t.Leads path loc rel else t.Leads srcPath loc rel

/-- The files to copy stand for the matched files: each for one, which `src_full`
leads to and whose attributes it has; and no matched file is missing, or shares its
relative path with another. -/
structure Compares (t : FileTree) (glob : String → Option (List String)) (srcPath : String)
    (files : Dict String SftpAttrs) (base : String) : Prop where
  reads : ∀ rel attrs, files.get? rel = some attrs → ∃ loc, (∀ other, t.Matched glob srcPath other rel ↔ other = loc) ∧
    t.resolve (srcFull base rel) = some loc ∧ (t.node loc).map Prod.fst = some attrs
  lists : ∀ loc rel, t.Matched glob srcPath loc rel → rel ∈ files.keys
  apart : ∀ loc other rel, t.Matched glob srcPath loc rel → t.Matched glob srcPath other rel → loc = other

/-- The listing of `src_path` and the paths that are read agree. -/
def ReadsWhatItCompares (t : FileTree) (glob : String → Option (List String)) (srcPath : String) : Prop :=
  ∀ files base, sourceFiles (t.server glob) srcPath = .listed files base → t.Compares glob srcPath files base

/-- The listing of the source, and the base path. -/
theorem sourceFiles_spec {glob : String → Option (List String)} {srcPath base : String} {files : Dict String SftpAttrs}
    (listed : sourceFiles (t.server glob) srcPath = .listed files base) :
    (base = if isGlob srcPath then dirname (stripSlashes srcPath) else stripSlashes srcPath) ∧
      (∀ loc rel, t.Matched glob srcPath loc rel → rel ∈ files.keys) ∧
      ∀ rel attrs, files.get? rel = some attrs →
        ∃ loc, t.Matched glob srcPath loc rel ∧ (t.node loc).map Prod.fst = some attrs := by
  unfold sourceFiles at listed
  unfold Matched
  split at listed
  · rename_i pattern
    simp only [if_pos pattern]
    split at listed
    · cases listed
    · cases listed
    · rename_i found _ matches_
      cases listed
      have paths : (glob srcPath).getD [] = found := by
        rw [show glob srcPath = some found from matches_]
        rfl
      rw [paths]
      refine ⟨rfl, ?_, ?_⟩
      · rintro loc rel ⟨path, member, leads⟩
        apply (Dict.mem_keys_foldl_update (fun path => sftpListTree (t.remote path) path) found _ rel).mpr
        exact .inr ⟨path, member, mem_keys_of_leads leads⟩
      · intro rel attrs there
        have from_ := Dict.get?_foldl_update (fun path => sftpListTree (t.remote path) path) found _ there
        rcases from_ with old | ⟨path, member, listed⟩
        · cases old
        · obtain ⟨loc, leads, has⟩ := leads_of_get? listed
          exact ⟨loc, ⟨path, member, leads⟩, has⟩
  · rename_i plain
    simp only [if_neg plain]
    cases listed
    refine ⟨rfl, fun loc rel leads => mem_keys_of_leads leads, fun rel attrs there => ?_⟩
    exact leads_of_get? there

theorem listed_of_matched {glob : String → Option (List String)} {srcPath rel : String} {loc : List FileName}
    (matched : t.Matched glob srcPath loc rel) :
    ∃ files base, sourceFiles (t.server glob) srcPath = .listed files base := by
  unfold sourceFiles
  unfold Matched at matched
  split at matched
  · rename_i pattern
    rw [if_pos pattern]
    obtain ⟨path, member, -⟩ := matched
    cases matches_ : glob srcPath with
    | none => simp [matches_] at member
    | some found =>
      cases found with
      | nil => simp [matches_] at member
      | cons first found => simp [server, matches_]
  · rename_i plain
    rw [if_neg plain]
    exact ⟨_, _, rfl⟩

/-- **What is compared is what is read exactly when** the base path is the directory of
the relative paths: a plain source path is not a file (nor only slashes, unless the
server starts at the root), and the directory part of a pattern is the directory that
holds each matched file, and is each matched directory that has files. -/
theorem readsWhatItCompares_iff (t : FileTree) (glob : String → Option (List String)) (srcPath : String) :
    t.ReadsWhatItCompares glob srcPath ↔
      if isGlob srcPath then ∀ path ∈ (glob srcPath).getD [], t.Based (dirname (stripSlashes srcPath)) path
      else (∀ loc, t.resolve srcPath = some loc → ¬ t.IsFile loc) ∧
        (stripSlashes srcPath = "" → srcPath = "" ∨ t.cwd = [] ∨ ∀ loc, ¬ t.IsFile loc) := by
  have based : ∀ base : String, (∀ loc rel, t.Matched glob srcPath loc rel → t.resolve (srcFull base rel) = some loc) ↔
      if isGlob srcPath then ∀ path ∈ (glob srcPath).getD [], t.Based base path else t.Based base srcPath := by
    intro base
    unfold Matched
    split
    · simp only [← resolve_srcFull_iff_based]
      constructor
      · intro reads path member loc rel leads
        exact reads loc rel ⟨path, member, leads⟩
      · rintro reads loc rel ⟨path, member, leads⟩
        exact reads path member loc rel leads
    · exact resolve_srcFull_iff_based base srcPath
  have condition : (if isGlob srcPath then ∀ path ∈ (glob srcPath).getD [], t.Based (dirname (stripSlashes srcPath)) path
      else (∀ loc, t.resolve srcPath = some loc → ¬ t.IsFile loc) ∧
        (stripSlashes srcPath = "" → srcPath = "" ∨ t.cwd = [] ∨ ∀ loc, ¬ t.IsFile loc)) ↔
      ∀ loc rel, t.Matched glob srcPath loc rel → t.resolve (srcFull
        (if isGlob srcPath then dirname (stripSlashes srcPath) else stripSlashes srcPath) rel) = some loc := by
    rw [based, ← based_stripSlashes_iff]
    split <;> rfl
  rw [condition]
  constructor
  · intro agrees loc rel matched
    obtain ⟨files, base, listed⟩ := listed_of_matched matched
    obtain ⟨rfl, lists, -⟩ := sourceFiles_spec listed
    obtain ⟨attrs, there⟩ := Dict.mem_keys_iff.mp (lists loc rel matched)
    obtain ⟨only, stands, leads, -⟩ := (agrees files _ listed).reads rel attrs there
    rw [leads, (stands loc).mp matched]
  · intro reads files base listed
    obtain ⟨rfl, lists, has⟩ := sourceFiles_spec listed
    have apart : ∀ loc other rel, t.Matched glob srcPath loc rel → t.Matched glob srcPath other rel → loc = other := by
      intro loc other rel one two
      have same := reads loc rel one
      rw [reads other rel two, Option.some.injEq] at same
      exact same.symm
    refine ⟨fun rel attrs there => ?_, lists, apart⟩
    obtain ⟨loc, matched, kept⟩ := has rel attrs there
    refine ⟨loc, fun other => ⟨fun two => apart other loc rel two matched, fun same => ?_⟩, reads loc rel matched, kept⟩
    rw [same]
    exact matched

/-- A directory `d` with one file `f`. -/
def oneFile : FileTree where
  attrs := plainDir
  root := .cons ⟨"d", by decide, by decide⟩ plainDir (.cons ⟨"f", by decide, by decide⟩ plainFile .nil .nil) .nil
  cwd := []
  isDir := by decide
  distinct := by simp [Listing.Distinct, Listing.find]
  home := ⟨_, rfl, by decide⟩

/-- A single file is compared, and a path below it is read. -/
theorem single_file_misread : ¬ ∀ (t : FileTree) (glob : String → Option (List String)) (srcPath : String),
    t.ReadsWhatItCompares glob srcPath := by
  intro reads
  have listed : sourceFiles (oneFile.server fun _ => none) "/d/f" =
      .listed (Dict.empty.insert "f" plainFile) "/d/f" := by
    rw [sourceFiles, if_neg (by decide)]
    rfl
  have agrees := reads oneFile (fun _ => none) "/d/f" _ _ listed
  obtain ⟨loc, -, leads, -⟩ := agrees.reads "f" plainFile (by decide +kernel)
  have none_ : oneFile.resolve (srcFull "/d/f" "f") = none := by decide +kernel
  rw [none_] at leads
  cases leads

end FileTree

end McpSsh
