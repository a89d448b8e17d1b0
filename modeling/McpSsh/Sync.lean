import McpSsh.RemoteTree

/-!
# Synchronising two servers

`_sync_cross_server` of `scp_tools.py`: list both trees, copy what differs, and
with `delete` remove from the destination what the listing of the source does not
hold. The requests that change a server are logged in order.
-/

set_option autoImplicit false

namespace McpSsh

open Base

/-- `_MTIME_TOLERANCE`, in seconds. -/
def mtimeTolerance : Nat := 2

/-- `_needs_copy`. -/
def needsCopy (src : SftpAttrs) (dst : Option SftpAttrs) : Bool :=
  match dst with
  | none => true
  | some dst =>
    if src.size.getD 0 ≠ dst.size.getD 0 then true
    else mtimeTolerance < (src.mtime.getD 0 - dst.mtime.getD 0).natAbs

/-- A server, by the paths it is asked for. -/
structure SftpServer where
  path : String → RemotePath
  /-- `none` where it raises. -/
  glob : String → Option (List String)

/-- How the requests that change something end. -/
structure SyncEnv where
  /-- Both connections and their SFTP clients can be opened. -/
  sessions : Bool
  /-- `asyncssh.scp` of this relative path succeeds. -/
  scp : String → Bool
  /-- `remove` of this relative path succeeds. -/
  remove : String → Bool

inductive SyncCall where
  | mkdir (path : String)
  | scp (rel src dst : String) (preserve : Bool)
  | remove (rel path : String)
deriving DecidableEq

/-- The answer: what was copied, skipped and deleted, and whether to warn that no
file matched. -/
structure SyncReport where
  copied : List String
  skipped : Nat
  deleted : List String
  noMatch : Bool
deriving DecidableEq

/-- The variables of the two loops, with the log. -/
structure SyncState where
  calls : List SyncCall := []
  copied : List String := []
  skipped : Nat := 0
  deleted : List String := []

/-- The files to copy and the path that their relative paths are joined to. -/
inductive SourceFiles where
  | raised
  | noMatch
  | listed (files : Dict String SftpAttrs) (base : String)

/-- `any(c in src_path for c in ("*", "?", "["))`. -/
def isGlob (path : String) : Bool := path.toList.any fun c => c = '*' || c = '?' || c = '['

/-- The listing of the source, for a plain path or a pattern. -/
def sourceFiles (src : SftpServer) (srcPath : String) : SourceFiles :=
  if isGlob srcPath then
    match src.glob srcPath with
    | none => .raised
    | some [] => .noMatch
    | some found =>
      .listed (found.foldl (fun files path =>
        (sftpListTree (src.path path) path).items.foldl (fun d e => d.insert e.1 e.2) files) Dict.empty)
        (dirname (stripSlashes srcPath))
  else .listed (sftpListTree (src.path srcPath) srcPath) (stripSlashes srcPath)

section

variable (env : SyncEnv) (dstFiles : Dict String SftpAttrs) (base dstPath : String)

/-- The copy loop; `false` when `scp` raises. -/
def copyFiles (preserve : Bool) : List (String × SftpAttrs) → SyncState → SyncState × Bool
  | [], s => (s, true)
  | (rel, attrs) :: rest, s =>
    if !needsCopy attrs (dstFiles.get? rel) then copyFiles preserve rest { s with skipped := s.skipped + 1 }
    else
      let srcFull := if base = "" then rel else joinPath base rel
      let dstFull := joinPath dstPath rel
      let s := { s with calls := s.calls ++ [.mkdir (dirname dstFull), .scp rel srcFull dstFull preserve] }
      if env.scp rel then copyFiles preserve rest { s with copied := s.copied ++ [rel] } else (s, false)

/-- The delete loop; a failing `remove` is only logged. -/
def deleteFiles (srcFiles : Dict String SftpAttrs) : List String → SyncState → SyncState
  | [], s => s
  | rel :: rest, s =>
    if rel ∈ srcFiles.keys then deleteFiles srcFiles rest s
    else
      let s := { s with calls := s.calls ++ [.remove rel (joinPath dstPath rel)] }
      deleteFiles srcFiles rest (if env.remove rel then { s with deleted := s.deleted ++ [rel] } else s)

end

/-- `_sync_cross_server`: the log, and the answer unless an exception is raised. -/
def syncCrossServer (env : SyncEnv) (src dst : SftpServer) (srcPath dstPath : String) (delete preserve : Bool) :
    List SyncCall × Option SyncReport :=
  if !env.sessions then ([], none)
  else
    match sourceFiles src srcPath with
    | .raised => ([], none)
    | .noMatch => ([], some ⟨[], 0, [], true⟩)
    | .listed srcFiles base =>
      let dstFiles := sftpListTree (dst.path dstPath) dstPath
      let (s, copied) := copyFiles env dstFiles base dstPath preserve srcFiles.items {}
      if !copied then (s.calls, none)
      else
        let s := if delete then deleteFiles env dstPath srcFiles dstFiles.keys s else s
        (s.calls, some ⟨s.copied, s.skipped, s.deleted, srcFiles.keys.isEmpty⟩)

/-! ## Which files are removed -/

/-- With `delete`, only files are removed that the source does not have, and whose
absence the listing of the source shows. -/
def DeleteSafe (env : SyncEnv) (src dst : SftpServer) (srcPath dstPath : String) (preserve : Bool) : Prop :=
  ∀ rel path, .remove rel path ∈ (syncCrossServer env src dst srcPath dstPath true preserve).1 →
    ¬ (src.path srcPath).Has srcPath rel ∧ ¬ (src.path srcPath).Hides srcPath rel

/-- The clients cannot be opened, or the copy of a file that differs raises. -/
def CopyRaises (env : SyncEnv) (src dst : SftpServer) (srcPath dstPath : String) : Prop :=
  env.sessions = false ∨ ∃ rel attrs, (sftpListTree (src.path srcPath) srcPath).get? rel = some attrs ∧
    needsCopy attrs ((sftpListTree (dst.path dstPath) dstPath).get? rel) = true ∧ env.scp rel = false

section

variable (env : SyncEnv) (dstFiles : Dict String SftpAttrs) (base dstPath : String) (preserve : Bool)

theorem copyFiles_snd (files : List (String × SftpAttrs)) (s : SyncState) :
    (copyFiles env dstFiles base dstPath preserve files s).2 = true ↔
      ∀ e ∈ files, needsCopy e.2 (dstFiles.get? e.1) = true → env.scp e.1 = true := by
  induction files generalizing s with
  | nil => simp [copyFiles]
  | cons e files ih =>
    rw [copyFiles]
    cases needed : needsCopy e.2 (dstFiles.get? e.1) with
    | false => simp [needed, ih]
    | true => cases sent : env.scp e.1 <;> simp [needed, sent, ih]

/-- The copy loop removes nothing. -/
theorem remove_mem_copyFiles (files : List (String × SftpAttrs)) (s : SyncState) (rel path : String) :
    .remove rel path ∈ (copyFiles env dstFiles base dstPath preserve files s).1.calls ↔
      .remove rel path ∈ s.calls := by
  induction files generalizing s with
  | nil => simp [copyFiles]
  | cons e files ih =>
    rw [copyFiles]
    cases needed : needsCopy e.2 (dstFiles.get? e.1) with
    | false => simp [ih]
    | true => cases sent : env.scp e.1 <;> simp [ih]

/-- The delete loop removes what the source listing does not hold. -/
theorem calls_deleteFiles (srcFiles : Dict String SftpAttrs) (rels : List String) (s : SyncState) :
    (deleteFiles env dstPath srcFiles rels s).calls =
      s.calls ++ (rels.filter (· ∉ srcFiles.keys)).map fun rel => .remove rel (joinPath dstPath rel) := by
  induction rels generalizing s with
  | nil => simp [deleteFiles]
  | cons first rels ih =>
    rw [deleteFiles]
    by_cases present : first ∈ srcFiles.keys
    · simp [present, ih]
    · cases env.remove first <;> simp [present, ih]

end

theorem not_copyRaises_iff (env : SyncEnv) (src dst : SftpServer) (srcPath dstPath base : String) (preserve : Bool)
    (s : SyncState) : ¬ CopyRaises env src dst srcPath dstPath ↔
      env.sessions = true ∧ (copyFiles env (sftpListTree (dst.path dstPath) dstPath) base dstPath preserve
        (sftpListTree (src.path srcPath) srcPath).items s).2 = true := by
  rw [copyFiles_snd]
  simp only [CopyRaises, not_or, Bool.not_eq_false, not_exists, not_and]
  apply and_congr_right
  intro _
  constructor
  · intro clear e member needed
    exact clear e.1 e.2 (Dict.get?_of_mem member) needed
  · intro clear rel attrs found needed
    exact clear (rel, attrs) (Dict.get?_eq_some_iff.mp found) needed

/-- The removals of a call with a plain source path. -/
theorem remove_mem_syncCrossServer {env : SyncEnv} {src dst : SftpServer} {srcPath dstPath : String} {preserve : Bool}
    (plain : isGlob srcPath = false) {rel path : String} :
    .remove rel path ∈ (syncCrossServer env src dst srcPath dstPath true preserve).1 ↔
      ¬ CopyRaises env src dst srcPath dstPath ∧ rel ∈ (sftpListTree (dst.path dstPath) dstPath).keys ∧
        rel ∉ (sftpListTree (src.path srcPath) srcPath).keys ∧ path = joinPath dstPath rel := by
  have quiet := remove_mem_copyFiles env (sftpListTree (dst.path dstPath) dstPath) (stripSlashes srcPath) dstPath
    preserve (sftpListTree (src.path srcPath) srcPath).items {} rel path
  rw [not_copyRaises_iff env src dst srcPath dstPath (stripSlashes srcPath) preserve {}]
  simp only [syncCrossServer, sourceFiles, plain, Bool.false_eq_true, if_false, if_true]
  generalize copyFiles env (sftpListTree (dst.path dstPath) dstPath) (stripSlashes srcPath) dstPath preserve
    (sftpListTree (src.path srcPath) srcPath).items {} = loop at quiet ⊢
  obtain ⟨s, copied⟩ := loop
  have silent : .remove rel path ∉ s.calls := by simpa using quiet
  cases env.sessions with
  | false => simp
  | true =>
    cases copied with
    | false => simpa using silent
    | true =>
      simp only [Bool.not_true, Bool.false_eq_true, if_false, calls_deleteFiles, List.mem_append, silent, false_or,
        List.mem_map, List.mem_filter, decide_eq_true_eq, SyncCall.remove.injEq, true_and]
      constructor
      · rintro ⟨_, ⟨member, absent⟩, rfl, rfl⟩
        exact ⟨member, absent, rfl⟩
      · rintro ⟨member, absent, rfl⟩
        exact ⟨rel, ⟨member, absent⟩, rfl, rfl⟩

/-- **Deletion is safe exactly when** the copy of a differing file raises first, or
every file of the destination that the source has, or that lies behind a source
directory which cannot be listed, is one that the listing of the source reaches. -/
theorem deleteSafe_iff (env : SyncEnv) (src dst : SftpServer) (srcPath dstPath : String) (preserve : Bool)
    (plain : isGlob srcPath = false) : DeleteSafe env src dst srcPath dstPath preserve ↔
      CopyRaises env src dst srcPath dstPath ∨
        ∀ rel, (dst.path dstPath).Lists dstPath rel →
          (src.path srcPath).Has srcPath rel ∨ (src.path srcPath).Hides srcPath rel →
            (src.path srcPath).Lists srcPath rel := by
  simp only [DeleteSafe, remove_mem_syncCrossServer plain, RemotePath.mem_keys_sftpListTree]
  constructor
  · intro safe
    by_cases raises : CopyRaises env src dst srcPath dstPath
    · exact .inl raises
    · refine .inr fun rel inDst suspect => ?_
      by_contra unlisted
      obtain ⟨notHas, notHides⟩ := safe rel _ ⟨raises, inDst, unlisted, rfl⟩
      rcases suspect with has | hides
      · exact notHas has
      · exact notHides hides
  · rintro (raises | reached) rel path ⟨copied, inDst, unlisted, -⟩
    · exact absurd raises copied
    · exact ⟨fun has => unlisted (reached rel inDst (.inl has)), fun hides => unlisted (reached rel inDst (.inr hides))⟩

/-! ## Two servers -/

def plainFile : SftpAttrs := { permissions := some 0o100644, size := some 1, mtime := some 0 }

def plainDir : SftpAttrs := { permissions := some 0o040755 }

theorem isDir_plainDir : plainDir.isDir = true := by decide

/-- A directory with one file. -/
def flatTree : Listing := .cons ⟨"a", by decide, by decide⟩ plainFile .nil .nil

/-- A directory whose subdirectory has one file. -/
def nestedTree : Listing := .cons ⟨"sub", by decide, by decide⟩ plainDir flatTree .nil

/-- A server with a directory at every path. -/
def sampleServer (tree : Listing) (readdirFails : String → Bool) : SftpServer :=
  ⟨fun _ => { root := some (plainDir, tree), readdirFails }, fun _ => none⟩

/-- Everything succeeds. -/
def SyncEnv.smooth : SyncEnv := ⟨true, fun _ => true, fun _ => true⟩

/-- The file in the subdirectory is removed, and the source has no subdirectory. -/
theorem deleteSafe_flat :
    DeleteSafe .smooth (sampleServer flatTree fun _ => false) (sampleServer nestedTree fun _ => false)
      "/src" "/dst" false := by
  refine (deleteSafe_iff .smooth _ _ "/src" "/dst" false (by decide)).mpr (.inr fun rel inDst suspect => ?_)
  rw [← RemotePath.mem_keys_sftpListTree] at inDst ⊢
  have files : (sftpListTree ((sampleServer flatTree fun _ => false).path "/src") "/src").keys = ["a"] := by
    decide +kernel
  rw [files, List.mem_singleton]
  rcases suspect with ⟨names, a, at_, rfl⟩ | blocked | blocked | ⟨names, blocked, -⟩
  · cases at_ with
    | here => rfl
    | down _ dir => cases dir
    | skip later => cases later
  · cases blocked
  · cases blocked
  · cases blocked with
    | here _ dir => cases dir
    | down _ dir => cases dir
    | skip later => cases later

/-- The source cannot list its subdirectory: the destination's copy of the file in
it is removed. -/
theorem unlisted_file_removed : ¬ ∀ (env : SyncEnv) (src dst : SftpServer) (srcPath dstPath : String) (preserve : Bool),
    isGlob srcPath = false → DeleteSafe env src dst srcPath dstPath preserve := by
  intro safe
  have removed : .remove "sub/a" "/dst/sub/a" ∈ (syncCrossServer .smooth (sampleServer nestedTree (· = "/src/sub"))
      (sampleServer nestedTree fun _ => false) "/src" "/dst" true false).1 := by decide +kernel
  refine (safe .smooth _ _ "/src" "/dst" false (by decide) _ _ removed).1
    ⟨[⟨"sub", by decide, by decide⟩, ⟨"a", by decide, by decide⟩], plainFile, ?_, by decide +kernel⟩
  exact .down (by decide) (by decide) (.here (by decide))

end McpSsh
