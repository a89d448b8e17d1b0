import McpSsh.Sync
import McpSsh.Base.NormPath

/-!
# Where a sync writes

The source server answers as it likes: the names in its listings are any strings.
`_sftp_list_tree` leaves out `.` and `..` and joins every other name to the path so
far. What `_sync_cross_server` asks of the destination then stays at or below
`dst_path` exactly when no chain of names that leads to a file climbs or is absolute.
-/

set_option autoImplicit false

namespace McpSsh

open Base

/-! ## Listings by any server -/

/-- What `readdir` answers for a directory, with the answers for the directories in
it. A request that raises `SFTPError` answers with no entries. -/
inductive RawListing where
  | nil
  | cons (name : String) (attrs : SftpAttrs) (below : RawListing) (rest : RawListing)

/-- The loop of `_walk`, over any names. -/
def walkRaw (relPrefix : String) : RawListing → Dict String SftpAttrs → Dict String SftpAttrs
  | .nil, result => result
  | .cons name attrs below rest, result =>
    let rel := if relPrefix = "" then name else joinPath relPrefix name
    let result :=
      if name = "." ∨ name = ".." then result
      else if attrs.isDir then walkRaw rel below result
      else result.insert rel attrs
    walkRaw relPrefix rest result

/-- What a server answers about a path. -/
structure RawPath where
  isdir : Option Bool
  stat : Option SftpAttrs
  readdir : RawListing

/-- `_sftp_list_tree`, by the answers. -/
def rawListTree (r : RawPath) (basePath : String) : Dict String SftpAttrs :=
  if r.isdir = some true then walkRaw "" r.readdir Dict.empty
  else
    match r.stat with
    | some attrs => Dict.empty.insert (basename basePath) attrs
    | none => Dict.empty

/-- What the source answers when it is asked for `src_path`, or for the matches of
the pattern `src_path`. -/
structure RawSource where
  path : RawPath
  glob : Option (List (String × RawPath))

def rawSourceFiles (src : RawSource) (srcPath : String) : SourceFiles :=
  if isGlob srcPath then
    match src.glob with
    | none => .raised
    | some [] => .noMatch
    | some found =>
      .listed (found.foldl (fun files m =>
        (rawListTree m.2 m.1).items.foldl (fun d e => d.insert e.1 e.2) files) Dict.empty)
        (dirname (stripSlashes srcPath))
  else .listed (rawListTree src.path srcPath) (stripSlashes srcPath)

/-- `_sync_cross_server`, once the source has been listed. -/
def syncListed (env : SyncEnv) (source : SourceFiles) (dst : RemotePath) (dstPath : String)
    (delete preserve : Bool) : List SyncCall × Option SyncReport :=
  if !env.sessions then ([], none)
  else
    match source with
    | .raised => ([], none)
    | .noMatch => ([], some ⟨[], 0, [], true⟩)
    | .listed srcFiles base =>
      let dstFiles := sftpListTree dst dstPath
      let (s, copied) := copyFiles env dstFiles base dstPath preserve srcFiles.items {}
      if !copied then (s.calls, none)
      else
        let s := if delete then deleteFiles env dstPath srcFiles dstFiles.keys s else s
        (s.calls, some ⟨s.copied, s.skipped, s.deleted, srcFiles.keys.isEmpty⟩)

/-! ## Honest servers -/

/-- The answers for a directory of a remote tree. -/
def Listing.raw (fails : String → Bool) (dirPath : String) : Listing → RawListing
  | .nil => .nil
  | .cons name attrs below rest =>
    let full := joinPath dirPath name.text
    .cons name.text attrs (if fails full then .nil else below.raw fails full) (rest.raw fails dirPath)

def RemotePath.raw (r : RemotePath) (basePath : String) : RawPath :=
  ⟨r.isdir, r.stat,
    if r.readdirFails basePath then .nil else ((r.root.map Prod.snd).getD .nil).raw r.readdirFails basePath⟩

def SftpServer.raw (src : SftpServer) (srcPath : String) : RawSource :=
  ⟨(src.path srcPath).raw srcPath,
    (src.glob srcPath).map fun found => found.map fun path => (path, (src.path path).raw path)⟩

theorem walkEntries_eq_walkRaw (fails : String → Bool) (l : Listing) (dirPath relPrefix : String)
    (result : Dict String SftpAttrs) :
    walkEntries fails dirPath relPrefix l result = walkRaw relPrefix (l.raw fails dirPath) result := by
  induction l generalizing dirPath relPrefix result with
  | nil => rfl
  | cons name attrs below rest inner outer =>
    rw [walkEntries, Listing.raw, walkRaw, outer]
    congr 1
    have dots : (name.isDots = true) = (name.text = "." ∨ name.text = "..") := by simp [FileName.isDots]
    simp only [dots]
    split
    · rfl
    split
    · split
      · rfl
      · exact inner _ _ _
    · rfl

theorem sftpListTree_eq_rawListTree (r : RemotePath) (basePath : String) :
    sftpListTree r basePath = rawListTree (r.raw basePath) basePath := by
  unfold sftpListTree rawListTree RemotePath.raw
  split
  · split
    · rfl
    · exact walkEntries_eq_walkRaw _ _ _ _ _
  · rfl

/-- **A server that keeps to file names is one of these servers.** -/
theorem syncCrossServer_eq_syncListed (env : SyncEnv) (src dst : SftpServer) (srcPath dstPath : String)
    (delete preserve : Bool) : syncCrossServer env src dst srcPath dstPath delete preserve =
      syncListed env (rawSourceFiles (src.raw srcPath) srcPath) (dst.path dstPath) dstPath delete preserve := by
  have same : sourceFiles src srcPath = rawSourceFiles (src.raw srcPath) srcPath := by
    unfold sourceFiles rawSourceFiles SftpServer.raw
    split
    · cases src.glob srcPath with
      | none => rfl
      | some found =>
        cases found with
        | nil => rfl
        | cons first found =>
          simp only [Option.map_some, List.map_cons, List.foldl_cons, List.foldl_map, sftpListTree_eq_rawListTree]
    · rw [sftpListTree_eq_rawListTree]
  rw [← same]
  rfl

/-! ## Which names are listed -/

/-- Going down by these names comes to a file. -/
inductive RawListing.Reports : RawListing → List String → Prop where
  | here {name : String} {attrs : SftpAttrs} {below rest : RawListing} (plain : ¬ (name = "." ∨ name = ".."))
      (file : attrs.isDir = false) : Reports (.cons name attrs below rest) [name]
  | down {name : String} {attrs : SftpAttrs} {below rest : RawListing} {names : List String}
      (plain : ¬ (name = "." ∨ name = "..")) (dir : attrs.isDir = true) (inside : Reports below names) :
      Reports (.cons name attrs below rest) (name :: names)
  | skip {name : String} {attrs : SftpAttrs} {below rest : RawListing} {names : List String}
      (later : Reports rest names) : Reports (.cons name attrs below rest) names

/-- The names that lead to a file, from the directory at `basePath` down; for a file,
its own name. -/
def RawPath.Reports (r : RawPath) (basePath : String) (names : List String) : Prop :=
  if r.isdir = some true then r.readdir.Reports names
  else r.stat.isSome = true ∧ names = [basename basePath]

/-- The names that lead to a file from `src_path`, or from a match of it. -/
def RawSource.Reports (src : RawSource) (srcPath : String) (names : List String) : Prop :=
  if isGlob srcPath then ∃ m ∈ src.glob.getD [], m.2.Reports m.1 names
  else src.path.Reports srcPath names

/-- No name is absolute, and following them one after the other never climbs above
the start. -/
def NamesStay (names : List String) : Prop :=
  (∀ name ∈ names, name.toList.head? ≠ some '/') ∧ descends 0 (names.flatMap fun name => segments name.toList) = true

instance (names : List String) : Decidable (NamesStay names) := inferInstanceAs (Decidable (_ ∧ _))

theorem RawListing.reports_cons_iff {name : String} {attrs : SftpAttrs} {below rest : RawListing}
    {names : List String} : Reports (.cons name attrs below rest) names ↔
      (¬ (name = "." ∨ name = "..") ∧ attrs.isDir = false ∧ names = [name]) ∨
      (¬ (name = "." ∨ name = "..") ∧ attrs.isDir = true ∧ ∃ more, names = name :: more ∧ below.Reports more) ∨
      rest.Reports names := by
  constructor
  · intro reports
    cases reports with
    | here plain file => exact .inl ⟨plain, file, rfl⟩
    | down plain dir inside => exact .inr (.inl ⟨plain, dir, _, rfl, inside⟩)
    | skip later => exact .inr (.inr later)
  · rintro (⟨plain, file, rfl⟩ | ⟨plain, dir, more, rfl, inside⟩ | later)
    · exact .here plain file
    · exact .down plain dir inside
    · exact .skip later

/-- The loop adds the files the answers lead to, each under the join of its names. -/
theorem mem_keys_walkRaw (l : RawListing) (relPrefix : String) (result : Dict String SftpAttrs) (key : String) :
    key ∈ (walkRaw relPrefix l result).keys ↔
      key ∈ result.keys ∨ ∃ names, l.Reports names ∧ key = names.foldl joinPath relPrefix := by
  induction l generalizing relPrefix result with
  | nil =>
    have none_ : ∀ names, ¬ RawListing.Reports .nil names := fun _ reports => by cases reports
    simp [walkRaw, none_]
  | cons name attrs below rest inner outer =>
    have rel : (if relPrefix = "" then name else joinPath relPrefix name) = joinPath relPrefix name := by
      split
      · rename_i top
        rw [top, joinPath]
        simp
      · rfl
    rw [walkRaw, outer, rel]
    simp only [RawListing.reports_cons_iff]
    by_cases dots : name = "." ∨ name = ".."
    · simp [dots]
    · cases attrs.isDir with
      | false =>
        simp only [dots, Bool.false_eq_true, if_false, Dict.mem_keys_insert, true_and, false_and, false_or,
          not_false_eq_true]
        constructor
        · rintro ((rfl | old) | ⟨names, later, rfl⟩)
          · exact .inr ⟨[name], .inl rfl, rfl⟩
          · exact .inl old
          · exact .inr ⟨names, .inr later, rfl⟩
        · rintro (old | ⟨names, rfl | later, rfl⟩)
          · exact .inl (.inr old)
          · exact .inl (.inl rfl)
          · exact .inr ⟨names, later, rfl⟩
      | true =>
        simp only [dots, if_false, if_true, inner, true_and, reduceCtorEq, false_and, false_or, not_false_eq_true]
        constructor
        · rintro ((old | ⟨names, inside, rfl⟩) | ⟨names, later, rfl⟩)
          · exact .inl old
          · exact .inr ⟨name :: names, .inl ⟨names, rfl, inside⟩, rfl⟩
          · exact .inr ⟨names, .inr later, rfl⟩
        · rintro (old | ⟨names, ⟨more, rfl, inside⟩ | later, rfl⟩)
          · exact .inl (.inl old)
          · exact .inl (.inr ⟨more, inside, rfl⟩)
          · exact .inr ⟨names, later, rfl⟩

theorem RawPath.mem_keys_rawListTree (r : RawPath) (basePath key : String) :
    key ∈ (rawListTree r basePath).keys ↔ ∃ names, r.Reports basePath names ∧ key = names.foldl joinPath "" := by
  unfold rawListTree RawPath.Reports
  split
  · simp [mem_keys_walkRaw]
  · cases r.stat with
    | none => simp
    | some attrs =>
      simp only [Dict.mem_keys_insert, Dict.keys_empty, List.not_mem_nil, or_false, Option.isSome_some, true_and,
        exists_eq_left, List.foldl_cons, List.foldl_nil]
      rw [joinPath, if_neg fun head => slash_not_mem_basename basePath (List.mem_of_head? head), if_pos (by simp), String.empty_append]

/-- **The listing of the source holds exactly the files its answers lead to.** -/
theorem RawSource.mem_keys_rawSourceFiles {src : RawSource} {srcPath base : String} {files : Dict String SftpAttrs}
    (listed : rawSourceFiles src srcPath = .listed files base) (key : String) :
    key ∈ files.keys ↔ ∃ names, src.Reports srcPath names ∧ key = names.foldl joinPath "" := by
  unfold rawSourceFiles at listed
  unfold RawSource.Reports
  split at listed
  · rename_i pattern
    simp only [if_pos pattern]
    split at listed
    · cases listed
    · cases listed
    · rename_i found some_ matches_
      cases listed
      rw [Dict.mem_keys_foldl_update (fun m : String × RawPath => rawListTree m.2 m.1), matches_]
      simp only [Dict.keys_empty, List.not_mem_nil, false_or, RawPath.mem_keys_rawListTree, Option.getD_some]
      constructor
      · rintro ⟨m, member, names, reports, rfl⟩
        exact ⟨names, ⟨m, member, reports⟩, rfl⟩
      · rintro ⟨names, ⟨m, member, reports⟩, rfl⟩
        exact ⟨m, member, names, reports, rfl⟩
  · rename_i plain
    simp only [if_neg plain]
    cases listed
    exact RawPath.mem_keys_rawListTree _ _ _

/-! ## Names and joins -/

theorem head_foldl_joinPath {names : List String} {a : String} (absolute : a.toList.head? = some '/') :
    (names.foldl joinPath a).toList.head? = some '/' := by
  induction names generalizing a with
  | nil => exact absolute
  | cons name names ih =>
    apply ih
    by_cases slash : name.toList.head? = some '/'
    · rw [joinPath, if_pos slash, slash]
    · exact (head_joinPath a slash).mpr absolute

theorem stays_foldl_joinPath (names : List String) {a : String} (relative : a.toList.head? ≠ some '/') :
    Stays (names.foldl joinPath a) ↔ (∀ name ∈ names, name.toList.head? ≠ some '/') ∧
      descends 0 (segments a.toList ++ names.flatMap fun name => segments name.toList) = true := by
  induction names generalizing a with
  | nil => simp [Stays, relative]
  | cons name names ih =>
    rw [List.foldl_cons]
    by_cases slash : name.toList.head? = some '/'
    · have absolute : (joinPath a name).toList.head? = some '/' := by rw [joinPath, if_pos slash, slash]
      constructor
      · intro stays
        exact absurd (head_foldl_joinPath absolute) stays.1
      · intro clear
        exact absurd slash (clear.1 name (by simp))
    · rw [ih (fun head => relative ((head_joinPath a slash).mp head)), descends_joinPath a slash,
        List.flatMap_cons, List.forall_mem_cons]
      simp [slash]

/-- **A chain of names joins to a path that stays exactly when the names stay.** -/
theorem stays_iff_namesStay (names : List String) : Stays (names.foldl joinPath "") ↔ NamesStay names := by
  rw [stays_foldl_joinPath names (by simp), NamesStay]
  simp [segments, descends]

theorem relPath_eq_foldl (names : List FileName) : relPath names = (names.map FileName.text).foldl joinPath "" := by
  induction names using List.reverseRecOn with
  | nil => rfl
  | append_singleton front last ih =>
    rw [List.map_append, List.foldl_append, ← ih]
    by_cases top : front = []
    · subst top
      have relative : last.text.toList.head? ≠ some '/' := fun head => last.solid (List.mem_of_head? head)
      simp [relPath_singleton, joinPath, relative]
    · exact (joinPath_relPath top last).symm

/-- Components other than `..` do not climb. -/
theorem descends_of_names {comps : List (List Char)} (names : dotdot ∉ comps) (depth : Nat) :
    descends depth comps = true := by
  induction comps generalizing depth with
  | nil => rfl
  | cons comp comps ih =>
    simp only [List.mem_cons, not_or] at names
    rw [descends_cons, if_neg (Ne.symm names.1)]
    split
    · exact ih names.2 depth
    · exact ih names.2 (depth + 1)

theorem Listing.plain_of_reads {fails : String → Bool} {dirPath : String} {l : Listing} {names : List FileName}
    {a : SftpAttrs} (reads : l.Reads fails dirPath names a) : ∀ name ∈ names, name.isDots = false := by
  induction reads with
  | here plain file => simpa using plain
  | down plain dir listed inside ih => exact List.forall_mem_cons.mpr ⟨plain, ih⟩
  | skip later ih => exact ih

/-- File names other than `..` stay. -/
theorem stays_relPath {names : List FileName} (plain : ∀ name ∈ names, name.isDots = false) :
    Stays (relPath names) := by
  rw [relPath_eq_foldl, stays_iff_namesStay]
  have whole : ((names.map FileName.text).flatMap fun name => segments name.toList) =
      names.map fun name => name.text.toList := by
    rw [List.flatMap_map]
    calc names.flatMap (fun name => segments name.text.toList)
        = names.flatMap (fun name => [name.text.toList]) := by
          apply List.flatMap_congr
          intro name _
          exact segments_of_solid name.solid
      _ = names.map fun name => name.text.toList := List.map_eq_flatMap.symm
  constructor
  · intro name member head
    obtain ⟨file, -, rfl⟩ := List.mem_map.mp member
    exact file.solid (List.mem_of_head? head)
  · rw [whole]
    refine descends_of_names (fun member => ?_) 0
    obtain ⟨file, inside, same⟩ := List.mem_map.mp member
    have dots : file.text = ".." := String.toList_inj.mp same
    have := plain file inside
    simp [FileName.isDots, dots] at this

/-- The destination's own files stay, unless it is listed as a file named `..`. -/
theorem RemotePath.stays_of_mem_keys {dst : RemotePath} {dstPath rel : String}
    (named : ".." ∉ (sftpListTree dst dstPath).keys) (member : rel ∈ (sftpListTree dst dstPath).keys) :
    Stays rel := by
  have lists := (dst.mem_keys_sftpListTree dstPath rel).mp member
  unfold RemotePath.Lists at lists
  split at lists
  · cases lists
  split at lists
  · obtain ⟨-, names, a, reads, rfl⟩ := lists
    exact stays_relPath (Listing.plain_of_reads reads)
  · obtain ⟨-, rfl⟩ := lists
    have solid := slash_not_mem_basename dstPath
    refine ⟨fun head => solid (List.mem_of_head? head), ?_⟩
    rw [segments_of_solid solid]
    refine descends_of_names (fun up => named ?_) 0
    have dots : basename dstPath = ".." := String.toList_inj.mp (List.mem_singleton.mp up).symm
    rw [← dots]
    exact member

/-! ## The calls -/

/-- The path on the destination that a call is about. -/
def SyncCall.target : SyncCall → String
  | .mkdir path => path
  | .scp _ _ dst _ => dst
  | .remove _ path => path

/-- Every path asked of the destination lies at or below `dst_path`. -/
def CallsContained (dstPath : String) (calls : List SyncCall) : Prop :=
  ∀ call ∈ calls, Below dstPath call.target

section

variable (env : SyncEnv) (dstFiles : Dict String SftpAttrs) (base dstPath : String) (preserve : Bool)

/-- The copy loop asks for the files it is given and for their directories. -/
theorem mem_calls_copyFiles {files : List (String × SftpAttrs)} {s : SyncState} {call : SyncCall}
    (made : call ∈ (copyFiles env dstFiles base dstPath preserve files s).1.calls) :
    call ∈ s.calls ∨ ∃ e ∈ files, call.target = joinPath dstPath e.1 ∨ call.target = dirname (joinPath dstPath e.1) := by
  induction files generalizing s with
  | nil => exact .inl made
  | cons e files ih =>
    have later : ∀ t : SyncState, (call ∈ t.calls → call ∈ s.calls ∨
        call.target = joinPath dstPath e.1 ∨ call.target = dirname (joinPath dstPath e.1)) →
        call ∈ (copyFiles env dstFiles base dstPath preserve files t).1.calls →
        call ∈ s.calls ∨ ∃ e' ∈ e :: files,
          call.target = joinPath dstPath e'.1 ∨ call.target = dirname (joinPath dstPath e'.1) := by
      intro t before made
      rcases ih made with old | ⟨e', member, target⟩
      · exact (before old).imp id fun target => ⟨e, by simp, target⟩
      · exact .inr ⟨e', by simp [member], target⟩
    rw [copyFiles] at made
    split at made
    · exact later { s with skipped := s.skipped + 1 } .inl made
    · have asked : ∀ t : SyncState, call ∈ t.calls ++ [.mkdir (dirname (joinPath dstPath e.1)),
          .scp e.1 (if base = "" then e.1 else joinPath base e.1) (joinPath dstPath e.1) preserve] →
          call ∈ t.calls ∨ call.target = joinPath dstPath e.1 ∨ call.target = dirname (joinPath dstPath e.1) := by
        intro t member
        simp only [List.mem_append, List.mem_cons, List.not_mem_nil, or_false] at member
        rcases member with old | rfl | rfl
        · exact .inl old
        · exact .inr (.inr rfl)
        · exact .inr (.inl rfl)
      dsimp only at made
      split at made
      · exact later _ (asked s) made
      · exact (asked s made).imp id fun target => ⟨e, by simp, target⟩

/-- Nothing is forgotten from the log. -/
theorem calls_sub_copyFiles (files : List (String × SftpAttrs)) (s : SyncState) {call : SyncCall}
    (old : call ∈ s.calls) : call ∈ (copyFiles env dstFiles base dstPath preserve files s).1.calls := by
  induction files generalizing s with
  | nil => exact old
  | cons e files ih =>
    rw [copyFiles]
    split
    · exact ih _ old
    · dsimp only
      split
      · exact ih _ (by simp [old])
      · simp [old]

/-- What differs is copied, when the loop comes to its end. -/
theorem scp_mem_copyFiles {files : List (String × SftpAttrs)} (s : SyncState)
    (done : (copyFiles env dstFiles base dstPath preserve files s).2 = true) {e : String × SftpAttrs}
    (member : e ∈ files) (needed : needsCopy e.2 (dstFiles.get? e.1) = true) : ∃ full,
      .scp e.1 full (joinPath dstPath e.1) preserve ∈
        (copyFiles env dstFiles base dstPath preserve files s).1.calls := by
  induction files generalizing s with
  | nil => cases member
  | cons first files ih =>
    rw [copyFiles] at done ⊢
    cases needs : needsCopy first.2 (dstFiles.get? first.1) with
    | false =>
      simp only [needs, Bool.not_false, if_true] at done ⊢
      obtain rfl | later := List.mem_cons.mp member
      · rw [needs] at needed
        cases needed
      · exact ih _ done later
    | true =>
      simp only [needs, Bool.not_true, Bool.false_eq_true, if_false] at done ⊢
      cases sent : env.scp first.1 with
      | false => simp [sent] at done
      | true =>
        simp only [sent, if_true] at done ⊢
        obtain rfl | later := List.mem_cons.mp member
        · exact ⟨if base = "" then e.1 else joinPath base e.1, calls_sub_copyFiles _ _ _ _ _ _ _ (by simp)⟩
        · exact ih _ done later

end

/-- What any run over these answers asks of the destination lies at or below
`dst_path`, where the destination is not itself listed as a file named `..`. -/
def RawSource.Contained (src : RawSource) (srcPath : String) : Prop :=
  ∀ (env : SyncEnv) (dst : RemotePath) (dstPath : String) (delete preserve : Bool),
    ".." ∉ (sftpListTree dst dstPath).keys →
      CallsContained dstPath (syncListed env (rawSourceFiles src srcPath) dst dstPath delete preserve).1

/-- Files that stay are written below the destination. -/
theorem callsContained_of_stays {env : SyncEnv} {source : SourceFiles} {dst : RemotePath} {dstPath : String}
    {delete preserve : Bool} (named : ".." ∉ (sftpListTree dst dstPath).keys)
    (stay : ∀ files base, source = .listed files base → ∀ rel ∈ files.keys, Stays rel) :
    CallsContained dstPath (syncListed env source dst dstPath delete preserve).1 := by
  unfold syncListed
  split
  · intro call made
    cases made
  cases source with
  | raised =>
    intro call made
    cases made
  | noMatch =>
    intro call made
    cases made
  | listed files base =>
    have copies := @mem_calls_copyFiles env (sftpListTree dst dstPath) base dstPath preserve files.items {}
    dsimp only
    generalize copyFiles env (sftpListTree dst dstPath) base dstPath preserve files.items {} = loop at copies ⊢
    obtain ⟨s, copied⟩ := loop
    have below : CallsContained dstPath s.calls := by
      intro call made
      rcases copies made with old | ⟨e, member, target⟩
      · cases old
      · have inside := (stay files base rfl e.1 (List.mem_map_of_mem member)).below dstPath
        rcases target with target | target
        · rw [target]
          exact inside.1
        · rw [target]
          exact inside.2
    cases copied with
    | false => exact below
    | true =>
      cases delete with
      | false => exact below
      | true =>
        intro call made
        simp only [Bool.not_true, Bool.false_eq_true, if_false, if_true, calls_deleteFiles, List.mem_append,
          List.mem_map, List.mem_filter] at made
        rcases made with old | ⟨rel, ⟨member, -⟩, rfl⟩
        · exact below call old
        · exact ((RemotePath.stays_of_mem_keys named member).below dstPath).1

/-- A source that leads to a file is listed. -/
theorem RawSource.listed_of_reports {src : RawSource} {srcPath : String} {names : List String}
    (reports : src.Reports srcPath names) : ∃ files base, rawSourceFiles src srcPath = .listed files base := by
  unfold rawSourceFiles
  unfold Reports at reports
  split at reports
  · rename_i pattern
    rw [if_pos pattern]
    obtain ⟨m, member, -⟩ := reports
    cases matches_ : src.glob with
    | none => simp [matches_] at member
    | some found =>
      cases found with
      | nil => simp [matches_] at member
      | cons first found => exact ⟨_, _, rfl⟩
  · rename_i plain
    rw [if_neg plain]
    exact ⟨_, _, rfl⟩

/-- Without `delete` the calls are those of the copy loop. -/
theorem calls_syncListed {env : SyncEnv} (open_ : env.sessions = true) (files : Dict String SftpAttrs)
    (base : String) (dst : RemotePath) (dstPath : String) (preserve : Bool) :
    (syncListed env (.listed files base) dst dstPath false preserve).1 =
      (copyFiles env (sftpListTree dst dstPath) base dstPath preserve files.items {}).1.calls := by
  simp only [syncListed, open_, Bool.not_true, Bool.false_eq_true, if_false]
  split <;> rfl

/-- **A sync stays inside the destination exactly when** no chain of names that leads
to a file of the source climbs above its start or has an absolute name. -/
theorem contained_iff (src : RawSource) (srcPath : String) :
    src.Contained srcPath ↔ ∀ names, src.Reports srcPath names → NamesStay names := by
  constructor
  · intro contained names reports
    rw [← stays_iff_namesStay]
    apply stays_of_below
    -- an empty destination, at the current directory, is sent every file
    obtain ⟨files, base, listed⟩ := RawSource.listed_of_reports reports
    have member := (RawSource.mem_keys_rawSourceFiles listed (names.foldl joinPath "")).mpr ⟨names, reports, rfl⟩
    obtain ⟨e, inside, same⟩ := List.mem_map.mp member
    have done := (copyFiles_snd .smooth Dict.empty base "." false files.items {}).mpr fun _ _ _ => rfl
    obtain ⟨full, sent⟩ := scp_mem_copyFiles .smooth Dict.empty base "." false {} done inside rfl
    have below := contained .smooth { root := none } "." false false (by decide)
    rw [listed, calls_syncListed rfl] at below
    rw [← same]
    exact below (.scp e.1 full (joinPath "." e.1) false) sent
  · intro stay env dst dstPath delete preserve named
    refine callsContained_of_stays named fun files base listed rel member => ?_
    obtain ⟨names, reports, rfl⟩ := (RawSource.mem_keys_rawSourceFiles listed rel).mp member
    exact (stays_iff_namesStay names).mpr (stay names reports)

/-! ## A source that climbs -/

/-- A directory that answers with one file of this name. -/
def lyingSource (name : String) : RawSource :=
  ⟨⟨some true, some plainDir, .cons name plainFile .nil .nil⟩, none⟩

/-- A file named `../../etc/x` is written outside the destination. -/
theorem climbing_name_escapes : ¬ ∀ (src : RawSource) (env : SyncEnv) (dst : RemotePath)
    (srcPath dstPath : String) (delete preserve : Bool), ".." ∉ (sftpListTree dst dstPath).keys →
      CallsContained dstPath (syncListed env (rawSourceFiles src srcPath) dst dstPath delete preserve).1 := by
  intro contained
  have sent : .scp "../../etc/x" "/src/../../etc/x" "/dst/../../etc/x" false ∈
      (syncListed .smooth (rawSourceFiles (lyingSource "../../etc/x") "/src") { root := none } "/dst" false false).1 := by
    decide +kernel
  obtain ⟨-, rest, comps, -⟩ := contained _ _ _ _ _ _ _ (by decide +kernel) _ sent
  have reached : normComps "/dst/../../etc/x".toList = ["etc".toList, "x".toList] := by decide +kernel
  have top : normComps "/dst".toList = ["dst".toList] := by decide +kernel
  rw [SyncCall.target, reached, top] at comps
  exact absurd (List.cons.inj comps).1 (by decide)

end McpSsh
