import McpSsh.SyncAgain

/-!
# What a sync leaves

The destination after a run of `_sync_cross_server`: which files are copies, which are as
they were, which are gone, and when the destination holds the files of the source and no
others.
-/

set_option autoImplicit false

namespace McpSsh

open Base

/-- A request whose answer tells what became of it: a `remove` that succeeds takes the
file away, and one that raises leaves everything as it was. -/
def Answered (env : SyncEnv) (src : FileTree) (clock : String → Int) : System FileTree SyncCall := fun t call t' =>
  Change src clock t call t' ∧ ∀ rel path, call = .remove rel path →
    if env.remove rel then ∃ loc, t.places.locate path = some loc ∧ t.Loses t' loc else t' = t

/-- What a sync leaves at the destination, beside what its answer says. -/
structure SyncEffect (src dst dst' : FileTree) (clock : String → Int) (base : String) (preserve : Bool)
    (top : List FileName) (files : Dict String SftpAttrs) (report : SyncReport) : Prop where
  copied : ∀ rel ∈ report.copied, rel ∈ files.keys ∧
    IsCopy src clock base preserve rel (dst'.fileAt (top ++ pathNames rel))
  /-- The other files of the source pass for what is there. -/
  skipped : ∀ rel attrs, files.get? rel = some attrs → rel ∉ report.copied →
    needsCopy attrs (dst'.fileAt (top ++ pathNames rel)) = false
  deleted : ∀ rel ∈ report.deleted, rel ∉ files.keys ∧ (dst.fileAt (top ++ pathNames rel)).isSome = true ∧
    dst'.fileAt (top ++ pathNames rel) = none
  /-- Every other file on the whole server is as it was. -/
  untouched : ∀ loc, (∀ rel, rel ∈ report.copied ∨ rel ∈ report.deleted → loc ≠ top ++ pathNames rel) →
    dst'.fileAt loc = dst.fileAt loc
  dirs : ∀ loc, dst'.IsDir loc ↔ dst.IsDir loc ∨ ∃ rel ∈ report.copied, loc = top ++ dirNames rel

/-- The destination holds the files of the source and no others. -/
def Mirrors (dst' : FileTree) (top : List FileName) (files : Dict String SftpAttrs) : Prop :=
  ∀ names, (dst'.fileAt (top ++ names)).isSome = true ↔ ∃ rel ∈ files.keys, names = pathNames rel

/-! ## The answer -/

section

variable (env : SyncEnv)

theorem deleted_deleteFiles (dstPath : String) (srcFiles : Dict String SftpAttrs) (rels : List String) (s : SyncState) :
    (deleteFiles env dstPath srcFiles rels s).deleted =
      s.deleted ++ (rels.filter (· ∉ srcFiles.keys)).filter (env.remove ·) := by
  induction rels generalizing s with
  | nil => simp [deleteFiles]
  | cons first rels ih =>
    rw [deleteFiles]
    by_cases present : first ∈ srcFiles.keys
    · simp [present, ih]
    · cases removes : env.remove first <;> simp [present, removes, ih]

theorem deleted_copyFiles (dstFiles : Dict String SftpAttrs) (base dstPath : String) (preserve : Bool)
    (files : List (String × SftpAttrs)) (s : SyncState) :
    (copyFiles env dstFiles base dstPath preserve files s).1.deleted = s.deleted := by
  induction files generalizing s with
  | nil => rfl
  | cons e files ih =>
    rw [copyFiles]
    split
    · exact ih _
    · dsimp only
      split
      · exact ih _
      · rfl

/-- The files that the delete loop asks to remove. -/
def extraneous (delete : Bool) (files dstFiles : Dict String SftpAttrs) : List String :=
  if delete then dstFiles.keys.filter (· ∉ files.keys) else []

theorem mem_extraneous {delete : Bool} {files dstFiles : Dict String SftpAttrs} {rel : String} :
    rel ∈ extraneous delete files dstFiles ↔ delete = true ∧ rel ∈ dstFiles.keys ∧ rel ∉ files.keys := by
  cases delete <;> simp [extraneous]

variable {env} in
/-- The requests of a run that succeeds, and what it answers. -/
theorem spec_of_answer {src dst : SftpServer} {srcPath dstPath base : String} {delete preserve : Bool}
    {files : Dict String SftpAttrs} {report : SyncReport} (listed : sourceFiles src srcPath = .listed files base)
    (answer : (syncCrossServer env src dst srcPath dstPath delete preserve).2 = some report) :
    let dstFiles := sftpListTree (dst.path dstPath) dstPath
    (syncCrossServer env src dst srcPath dstPath delete preserve).1 =
        (entriesToCopy files dstFiles).flatMap (copyCalls base dstPath preserve) ++
          removeCalls dstPath (extraneous delete files dstFiles) ∧
      report.copied = (entriesToCopy files dstFiles).map Prod.fst ∧
        report.deleted = (extraneous delete files dstFiles).filter (env.remove ·) := by
  have spec := @copyFiles_done env (sftpListTree (dst.path dstPath) dstPath) base dstPath preserve files.items {}
  have kept := deleted_copyFiles env (sftpListTree (dst.path dstPath) dstPath) base dstPath preserve files.items {}
  have sessions : env.sessions = true := by
    by_contra closed
    rw [syncCrossServer, Bool.eq_false_iff.mpr closed, Bool.not_false, if_pos rfl] at answer
    cases answer
  dsimp only
  rw [syncCrossServer, sessions, Bool.not_true, if_neg Bool.false_ne_true, listed] at answer ⊢
  simp only [entriesToCopy] at *
  generalize copyFiles env (sftpListTree (dst.path dstPath) dstPath) base dstPath preserve files.items {} = loop at *
  obtain ⟨s, done⟩ := loop
  cases done with
  | false => cases answer
  | true =>
    obtain ⟨calls, copied, -⟩ := spec rfl
    dsimp only [List.nil_append] at calls copied kept
    cases delete with
    | false =>
      obtain rfl := Option.some.inj answer
      exact ⟨by simpa [removeCalls, extraneous] using calls, copied, by simpa [extraneous] using kept⟩
    | true =>
      obtain rfl := Option.some.inj answer
      have counts := (deleteFiles_counts env dstPath files (sftpListTree (dst.path dstPath) dstPath).keys s).1
      have gone := deleted_deleteFiles env dstPath files (sftpListTree (dst.path dstPath) dstPath).keys s
      refine ⟨?_, counts.trans copied, ?_⟩
      · exact (calls_deleteFiles env dstPath files _ s).trans (by rw [calls]; rfl)
      · exact gone.trans (by rw [kept, List.nil_append]; rfl)

end

/-! ## The source -/

/-- In one tree no file stands where another needs a directory. -/
theorem apart_of_plain {src : FileTree} {glob : String → Option (List String)} {srcPath base : String}
    {files : Dict String SftpAttrs} (plain : isGlob srcPath = false)
    (listed : sourceFiles (src.server glob) srcPath = .listed files base) :
    ∀ rel ∈ files.keys, ∀ other ∈ files.keys, pathNames rel ≠ dirNames other := by
  rw [sourceFiles, if_neg (by simp [plain])] at listed
  obtain ⟨rfl, -⟩ := SourceFiles.listed.inj listed
  have leads : ∀ rel ∈ (sftpListTree (src.remote srcPath) srcPath).keys, ∃ loc, src.Leads srcPath loc rel := by
    intro rel member
    obtain ⟨attrs, found⟩ := Dict.mem_keys_iff.mp member
    obtain ⟨loc, leads, -⟩ := FileTree.leads_of_get? found
    exact ⟨loc, leads⟩
  intro rel member other among clash
  obtain ⟨loc, here⟩ := leads rel member
  obtain ⟨loc', there⟩ := leads other among
  cases there with
  | file resolved isFile =>
    -- a single file has a name only
    obtain ⟨front, name, -, text⟩ := FileTree.basename_of_isFile resolved isFile
    rw [dirNames, ← text, ← relPath_singleton, pathNames_relPath (List.cons_ne_nil name [])] at clash
    exact here.proper.inside clash
  | @below top names resolved dir isFile =>
    have inside := dir.ne_nil_of_isFile isFile
    rw [dirNames, pathNames_relPath inside] at clash
    cases here with
    | file resolved' isFile' =>
      cases resolved.symm.trans resolved'
      exact dir.not_isFile isFile'
    | @below _ names' resolved' _ isFile' =>
      cases resolved.symm.trans resolved'
      rw [pathNames_relPath (dir.ne_nil_of_isFile isFile')] at clash
      subst clash
      obtain ⟨node, at_, -⟩ := isFile
      rw [← List.dropLast_append_getLast inside, ← List.append_assoc] at at_
      exact (FileTree.isDir_of_node_append at_).not_isFile isFile'

/-! ## The destination -/

section

variable {env : SyncEnv} {src t t' : FileTree} {clock : String → Int} {base dstPath : String} {preserve : Bool}
  {top : List FileName}

/-- The copies change no file outside the destination. -/
theorem outside_of_copies {all : List (String × SftpAttrs)} (proper : ∀ e ∈ all, Proper e.1)
    (located : t.places.locate dstPath = some top)
    (run : Run (Change src clock) t (all.flatMap (copyCalls base dstPath preserve)) t') {loc : List FileName}
    (outside : ∀ names, loc ≠ top ++ names) : t'.fileAt loc = t.fileAt loc := by
  have keep : ∀ (m : FileTree) (call : SyncCall) (m' : FileTree),
      m.places.locate dstPath = some top ∧ m.fileAt loc = t.fileAt loc →
        guard (Change src clock) (fun _ call => call ∈ all.flatMap (copyCalls base dstPath preserve)) m call m' →
          m'.places.locate dstPath = some top ∧ m'.fileAt loc = t.fileAt loc := by
    rintro m call m' ⟨based, same⟩ ⟨stepped, member⟩
    obtain ⟨e, among, call_⟩ := List.mem_flatMap.mp member
    rcases List.mem_pair.mp call_ with rfl | rfl
    · obtain ⟨cwd, keeps, -, -, files⟩ := mkdir_step (proper e among) based stepped
      exact ⟨Places.locate_mono keeps cwd based, (files loc).trans same⟩
    · obtain ⟨-, -, -, cwd, dirs, -⟩ := scp_step (proper e among) stepped
      refine ⟨Places.locate_mono (fun l dir => (dirs l).mpr dir) cwd based, ?_⟩
      cases stepped with
      | @copied _ _ _ _ _ _ _ _ _ target reads there lands file size mtime gains =>
        obtain ⟨top', based', -, rfl⟩ := (proper e among).locate there
        obtain rfl := Option.some.inj (based.symm.trans based')
        have apart : loc ≠ target := by
          rcases lands with ⟨-, rfl⟩ | ⟨-, -, name, rfl⟩
          · exact outside _
          · rw [List.append_assoc]
            exact outside _
        rw [gains.file, if_neg fun here => apart here.2, same]
  exact ((run.guarded fun call member => member).preserves keep ⟨located, rfl⟩).2

/-- What the copies leave, where no directory is or is made at the place of a file. -/
theorem spec_of_copies {all : List (String × SftpAttrs)} (proper : ∀ e ∈ all, Proper e.1)
    (distinct : all.Pairwise fun a b => pathNames a.1 ≠ pathNames b.1) (located : t.places.locate dstPath = some top)
    (clear : ∀ e ∈ all, t.places.dir (top ++ pathNames e.1) = false ∧ ∀ other ∈ all, pathNames e.1 ≠ dirNames other.1)
    (run : Run (Change src clock) t (all.flatMap (copyCalls base dstPath preserve)) t') :
    t'.places.locate dstPath = some top ∧
      (∀ l, t'.places.dir l = true ↔ t.places.dir l = true ∨ ∃ e ∈ all, l = top ++ dirNames e.1) ∧
        (∀ e ∈ all, IsCopy src clock base preserve e.1 (t'.fileAt (top ++ pathNames e.1))) ∧
          ∀ l, (∀ e ∈ all, l ≠ top ++ pathNames e.1) → t'.fileAt l = t.fileAt l := by
  have midway := (Midway.start located).run proper distinct run
  obtain ⟨copies, others⟩ := midway.copies (midway.free_iff.mpr clear)
  refine ⟨midway.located, midway.dir, copies, fun l apart => ?_⟩
  by_cases inside : ∃ names, l = top ++ names
  · obtain ⟨names, rfl⟩ := inside
    exact others names fun e member clash => apart e member (by rw [clash])
  · exact outside_of_copies proper located run fun names here => inside ⟨names, here⟩

/-- The removals that succeed take their files away, and nothing else. -/
theorem answered_removes {rels : List String} (proper : ∀ rel ∈ rels, Proper rel)
    (located : t.places.locate dstPath = some top)
    (run : Run (Answered env src clock) t (removeCalls dstPath rels) t') :
    (∀ l, t'.places.dir l = true ↔ t.places.dir l = true) ∧
      ∀ l, t'.fileAt l = if ∃ rel ∈ rels.filter (env.remove ·), l = top ++ pathNames rel then none else t.fileAt l := by
  induction rels generalizing t with
  | nil =>
    cases run
    simp
  | cons rel rels ih =>
    obtain ⟨first, proper⟩ := List.forall_mem_cons.mp proper
    cases run with
    | @step _ mid _ _ _ stepped rest =>
      have told := stepped.2 rel _ rfl
      cases removes : env.remove rel with
      | false =>
        obtain rfl : mid = t := by simpa [removes] using told
        rw [List.filter_cons_of_neg (by simp [removes])]
        exact ih proper located rest
      | true =>
        rw [removes, if_pos rfl] at told
        obtain ⟨loc, there, loses⟩ := told
        obtain ⟨top', based, -, rfl⟩ := first.locate there
        obtain rfl := Option.some.inj (based.symm.trans located)
        have still := Places.locate_mono (fun l dir => (loses.dir l).mpr dir) loses.cwd located
        obtain ⟨dirs, files⟩ := ih proper still rest
        refine ⟨fun l => (dirs l).trans (loses.dir l), fun l => ?_⟩
        rw [files, loses.file, List.filter_cons_of_pos removes]
        simp only [List.exists_mem_cons_iff]
        by_cases later : ∃ rel ∈ rels.filter (env.remove ·), l = top' ++ pathNames rel
        · rw [if_pos later, if_pos (.inr later)]
        · rw [if_neg later]
          by_cases here : l = top' ++ pathNames rel
          · rw [if_pos here, if_pos (.inl here)]
          · rw [if_neg here, if_neg (not_or.mpr ⟨here, later⟩)]

end

/-! ## The whole run -/

/-- The destination mirrors the source exactly if every file that only the destination had
is among the deleted ones. -/
theorem SyncEffect.mirrors_iff {src dst dst' : FileTree} {clock : String → Int} {base : String} {preserve : Bool}
    {top : List FileName} {files : Dict String SftpAttrs} {report : SyncReport}
    (effect : SyncEffect src dst dst' clock base preserve top files report) :
    Mirrors dst' top files ↔ ∀ names, (dst.fileAt (top ++ names)).isSome = true →
      (∃ rel ∈ files.keys, names = pathNames rel) ∨ ∃ rel ∈ report.deleted, names = pathNames rel := by
  have same : ∀ names, (¬ ∃ rel ∈ files.keys, names = pathNames rel) → (¬ ∃ rel ∈ report.deleted, names = pathNames rel) →
      dst'.fileAt (top ++ names) = dst.fileAt (top ++ names) := by
    intro names foreign kept
    apply effect.untouched
    rintro rel (copied | deleted) clash
    · exact foreign ⟨rel, (effect.copied rel copied).1, List.append_cancel_left clash⟩
    · exact kept ⟨rel, deleted, List.append_cancel_left clash⟩
  constructor
  · intro mirrors names here
    by_contra none_
    obtain ⟨foreign, kept⟩ := not_or.mp none_
    exact foreign ((mirrors names).mp (by rw [same names foreign kept, here]))
  · intro known names
    constructor
    · intro there
      by_contra foreign
      by_cases gone : ∃ rel ∈ report.deleted, names = pathNames rel
      · obtain ⟨rel, deleted, rfl⟩ := gone
        rw [(effect.deleted rel deleted).2.2] at there
        cases there
      · rw [same names foreign gone] at there
        exact (known names there).elim foreign gone
    · rintro ⟨rel, member, rfl⟩
      by_cases copied : rel ∈ report.copied
      · obtain ⟨-, read, attrs, -, at_, -⟩ := effect.copied rel copied
        rw [at_]
        rfl
      · obtain ⟨attrs, found⟩ := Dict.mem_keys_iff.mp member
        have passes := effect.skipped rel attrs found copied
        cases at_ : dst'.fileAt (top ++ pathNames rel) with
        | none =>
          rw [at_] at passes
          cases passes
        | some other => rfl

/-- Below a directory, what is there is listed. -/
theorem listed_of_there {t : FileTree} {dstPath : String} {top names : List FileName}
    (located : t.places.locate dstPath = some top) (target : t.places.there top = true → t.places.dir top = true)
    (here : (t.fileAt (top ++ names)).isSome = true) : relPath names ∈ (sftpListTree (t.remote dstPath) dstPath).keys := by
  have dir : t.places.dir top = true := by
    rcases List.eq_nil_or_concat names with rfl | ⟨front, last, rfl⟩
    · rw [List.append_nil] at here
      exact target (FileTree.there_places_iff.mpr (.inr here))
    · rw [List.concat_eq_append, ← List.append_assoc] at here
      exact Places.dir_of_append (t.places.closed _ last (FileTree.there_places_iff.mpr (.inr here)))
  obtain ⟨attrs, at_⟩ := Option.isSome_iff_exists.mp here
  have found := (FileTree.get?_sftpListTree_iff (FileTree.resolve_of_locate located dir) (FileTree.dir_places_iff.mp dir)).mpr
    ⟨names, rfl, at_⟩
  exact Dict.mem_keys_iff.mpr ⟨attrs, found⟩

/-- What is listed is there, if the destination is a directory or nothing. -/
theorem there_of_found {t : FileTree} {dstPath rel : String} {top : List FileName} {attrs : SftpAttrs} (proper : Proper rel)
    (located : t.places.locate dstPath = some top) (target : t.places.there top = true → t.places.dir top = true)
    (found : (sftpListTree (t.remote dstPath) dstPath).get? rel = some attrs) :
    t.fileAt (top ++ pathNames rel) = some attrs := by
  obtain ⟨top', based, there⟩ := there_of_listed found
  obtain rfl := Option.some.inj (based.symm.trans located)
  rw [← get?_listing located (target there) proper, found]

/-- A file below the destination is a proper one. -/
theorem proper_of_found {t : FileTree} {dstPath rel : String}
    (present : rel ∈ (sftpListTree (t.remote dstPath) dstPath).keys) : Proper rel := by
  obtain ⟨attrs, found⟩ := Dict.mem_keys_iff.mp present
  obtain ⟨loc, leads, -⟩ := FileTree.leads_of_get? found
  exact leads.proper

section

variable {env : SyncEnv} {src dst mid dst' : FileTree} {clock : String → Int} {base dstPath : String}
  {delete preserve : Bool} {top : List FileName} {files : Dict String SftpAttrs} {report : SyncReport}

/-- The effect of the copies and then of the removals. -/
theorem effect_of_loops (proper : ∀ e ∈ files.items, Proper e.1) (located : dst.places.locate dstPath = some top)
    (target : dst.places.there top = true → dst.places.dir top = true)
    (copied : report.copied = (entriesToCopy files (sftpListTree (dst.remote dstPath) dstPath)).map Prod.fst)
    (deleted : report.deleted =
      (extraneous delete files (sftpListTree (dst.remote dstPath) dstPath)).filter (env.remove ·))
    (free : ∀ rel ∈ report.copied, ¬ dst.IsDir (top ++ pathNames rel))
    (apart : ∀ rel ∈ files.keys, ∀ other ∈ files.keys, pathNames rel ≠ dirNames other)
    (copies : Run (Change src clock) dst ((entriesToCopy files (sftpListTree (dst.remote dstPath) dstPath)).flatMap
      (copyCalls base dstPath preserve)) mid)
    (removals : Run (Answered env src clock) mid
      (removeCalls dstPath (extraneous delete files (sftpListTree (dst.remote dstPath) dstPath))) dst') :
    SyncEffect src dst dst' clock base preserve top files report := by
  generalize dstFiles_ : sftpListTree (dst.remote dstPath) dstPath = dstFiles at *
  have chosen : ∀ e, e ∈ entriesToCopy files dstFiles ↔ e ∈ files.items ∧ needsCopy e.2 (dstFiles.get? e.1) = true :=
    fun e => List.mem_filter
  have removed : ∀ rel ∈ extraneous delete files dstFiles, Proper rel ∧ rel ∉ files.keys := by
    intro rel member
    obtain ⟨-, present, absent⟩ := mem_extraneous.mp member
    exact ⟨proper_of_found (dstFiles_ ▸ present), absent⟩
  have clear : ∀ e ∈ entriesToCopy files dstFiles, dst.places.dir (top ++ pathNames e.1) = false ∧
      ∀ other ∈ entriesToCopy files dstFiles, pathNames e.1 ≠ dirNames other.1 := by
    intro e member
    constructor
    · rw [Bool.eq_false_iff]
      exact fun dir => free e.1 (copied ▸ List.mem_map_of_mem member) (FileTree.dir_places_iff.mp dir)
    · exact fun other among => apart _ (List.mem_map_of_mem ((chosen e).mp member).1) _
        (List.mem_map_of_mem ((chosen other).mp among).1)
  obtain ⟨based, dirs, copy, others⟩ := spec_of_copies (fun e member => proper e ((chosen e).mp member).1)
    ((pairwise_pathNames proper).sublist List.filter_sublist) located clear copies
  obtain ⟨dirs', files'⟩ := answered_removes (fun rel member => (removed rel member).1) based removals
  rw [← deleted] at files'
  have gone : ∀ rel ∈ report.deleted, rel ∈ extraneous delete files dstFiles :=
    fun rel member => List.mem_of_mem_filter (deleted ▸ member)
  -- a file of the source is not among the deleted ones
  have stays : ∀ e ∈ files.items, dst'.fileAt (top ++ pathNames e.1) = mid.fileAt (top ++ pathNames e.1) := by
    intro e member
    rw [files', if_neg]
    rintro ⟨rel, deleted, clash⟩
    exact apart_of_removed proper removed member rel (gone rel deleted) (List.append_cancel_left clash)
  constructor
  · intro rel member
    obtain ⟨e, among, rfl⟩ := List.mem_map.mp (copied ▸ member)
    have listed := ((chosen e).mp among).1
    exact ⟨List.mem_map_of_mem listed, stays e listed ▸ copy e among⟩
  · intro rel attrs found skipped
    have member := Dict.get?_eq_some_iff.mp found
    have unchosen : (rel, attrs) ∉ entriesToCopy files dstFiles := fun among =>
      skipped (copied ▸ List.mem_map_of_mem among)
    have passes : needsCopy attrs (dstFiles.get? rel) = false := by
      rw [Bool.eq_false_iff]
      exact fun needed => unchosen ((chosen _).mpr ⟨member, needed⟩)
    have same : dst'.fileAt (top ++ pathNames rel) = dst.fileAt (top ++ pathNames rel) := by
      rw [stays _ member, others _ fun e among clash => ?_]
      have one := eq_of_pathNames proper member ((chosen e).mp among).1 (List.append_cancel_left clash)
      exact unchosen (one ▸ among)
    cases here : dstFiles.get? rel with
    | none =>
      rw [here] at passes
      cases passes
    | some attrs' => rwa [same, there_of_found (proper _ member) located target (dstFiles_ ▸ here), ← here]
  · intro rel member
    obtain ⟨-, present, absent⟩ := mem_extraneous.mp (gone rel member)
    obtain ⟨attrs, found⟩ := Dict.mem_keys_iff.mp present
    refine ⟨absent, ?_, ?_⟩
    · rw [there_of_found (removed rel (gone rel member)).1 located target (dstFiles_ ▸ found)]
      rfl
    · rw [files', if_pos ⟨rel, member, rfl⟩]
  · intro loc other
    rw [files', if_neg, others loc fun e among => ?_]
    · exact other e.1 (.inl (copied ▸ List.mem_map_of_mem among))
    · rintro ⟨rel, deleted, clash⟩
      exact other rel (.inr deleted) clash
  · intro loc
    rw [← FileTree.dir_places_iff, ← FileTree.dir_places_iff, dirs', dirs, copied]
    simp

/-- A deletion of everything that the source does not have. -/
theorem SyncEffect.mirrors_of_deleted (effect : SyncEffect src dst dst' clock base preserve top files report)
    (located : dst.places.locate dstPath = some top) (target : dst.places.there top = true → dst.places.dir top = true)
    (all : ∀ rel ∈ (sftpListTree (dst.remote dstPath) dstPath).keys, rel ∉ files.keys → rel ∈ report.deleted) :
    Mirrors dst' top files := by
  apply effect.mirrors_iff.mpr
  intro names here
  have present := listed_of_there located target here
  have inside : names ≠ [] := by
    rintro rfl
    rw [List.append_nil] at here
    have dir := target (FileTree.there_places_iff.mpr (.inr here))
    rw [FileTree.fileAt_of_dir dir] at here
    cases here
  by_cases known : relPath names ∈ files.keys
  · exact .inl ⟨_, known, (pathNames_relPath inside).symm⟩
  · exact .inr ⟨_, all _ present known, (pathNames_relPath inside).symm⟩

end

/-- **What a sync leaves**: copies of the files that it says were copied, files that pass
for the others, nothing where it says that a file was deleted, and everything else as it
was. With `delete`, if every removal succeeds, the destination mirrors the source. -/
theorem sync_mirrors (env : SyncEnv) (src dst dst' : FileTree) (glob dstGlob : String → Option (List String))
    (clock : String → Int) (srcPath dstPath base : String) (delete preserve : Bool) (files : Dict String SftpAttrs)
    (report : SyncReport) (top : List FileName) (listed : sourceFiles (src.server glob) srcPath = .listed files base)
    (answer : (syncCrossServer env (src.server glob) (dst.server dstGlob) srcPath dstPath delete preserve).2 = some report)
    (run : Run (Answered env src clock) dst
      (syncCrossServer env (src.server glob) (dst.server dstGlob) srcPath dstPath delete preserve).1 dst')
    (located : dst.places.locate dstPath = some top) (target : dst.places.there top = true → dst.IsDir top)
    (free : ∀ rel ∈ report.copied, ¬ dst.IsDir (top ++ pathNames rel))
    (apart : isGlob srcPath = true → ∀ rel ∈ files.keys, ∀ other ∈ files.keys, pathNames rel ≠ dirNames other) :
    SyncEffect src dst dst' clock base preserve top files report ∧
      (delete = true → (∀ rel ∈ (sftpListTree (dst.remote dstPath) dstPath).keys, rel ∉ files.keys → env.remove rel = true) →
        Mirrors dst' top files) := by
  have target : dst.places.there top = true → dst.places.dir top = true := fun there =>
    FileTree.dir_places_iff.mpr (target there)
  have apart : ∀ rel ∈ files.keys, ∀ other ∈ files.keys, pathNames rel ≠ dirNames other := by
    cases plain : isGlob srcPath with
    | true => exact apart plain
    | false => exact apart_of_plain plain listed
  have dstFiles : (dst.server dstGlob).path dstPath = dst.remote dstPath := rfl
  obtain ⟨log, copied, deleted⟩ := spec_of_answer listed answer
  rw [log, dstFiles] at run
  rw [dstFiles] at copied deleted
  obtain ⟨mid, copies, removals⟩ := run.split
  obtain ⟨-, -, from_⟩ := FileTree.sourceFiles_spec listed
  have proper : ∀ e ∈ files.items, Proper e.1 := by
    intro e member
    obtain ⟨loc, matched, -⟩ := from_ e.1 e.2 (Dict.get?_of_mem member)
    obtain ⟨path, leads⟩ := matched.leads
    exact leads.proper
  have effect := effect_of_loops proper located target copied deleted free apart
    (copies.mono fun _ _ _ stepped => stepped.1) removals
  refine ⟨effect, fun delete_ succeed => effect.mirrors_of_deleted located target fun rel present absent => ?_⟩
  rw [deleted, List.mem_filter]
  exact ⟨mem_extraneous.mpr ⟨delete_, present, absent⟩, succeed rel present absent⟩

/-! ## A file is copied, and one is removed -/

theorem loses_copiedTree (time : Int) : (copiedTree time).Loses emptyTree [nameF] := by
  have gains := gains_copiedTree time
  refine ⟨rfl, fun l => ?_, fun l => ?_⟩
  · rw [gains.dir, isDir_fileOf]
    simp
  · rw [gains.file]
    split
    · rename_i here
      rw [here]
      rfl
    · rename_i other
      rw [if_neg fun same => other same.2]

/-- With `delete`: the file `f` is copied into an empty directory, and it is removed again
once the source is empty. -/
theorem sync_mirrors_samples : Mirrors (copiedTree 0) [] (Dict.empty.insert "f" plainFile) ∧ Mirrors emptyTree [] Dict.empty := by
  have root : ∀ t : FileTree, t.places.locate "/" = some [] := by
    intro t
    have start : t.places.start "/" = [] := rfl
    rw [Places.locate, start]
    rfl
  constructor
  · have call : syncCrossServer .smooth (FileTree.oneFile.server fun _ => none) (emptyTree.server fun _ => none) "/d" "/" true
        true = ([.mkdir "/", .scp "f" "/d/f" "/f" true], some ⟨["f"], 0, [], false⟩) := by decide +kernel
    have reads : FileTree.oneFile.read "/d/f" = some plainFile := by decide +kernel
    have located : emptyTree.places.locate "/f" = some [nameF] := by decide +kernel
    have free : emptyTree.places.dir [nameF] = false := by decide +kernel
    have listing : (sftpListTree (emptyTree.remote "/") "/").keys = [] := by decide +kernel
    refine (sync_mirrors .smooth FileTree.oneFile emptyTree (copiedTree 0) (fun _ => none) (fun _ => none) (fun _ => 0) "/d" "/"
      "/d" true true _ ⟨["f"], 0, [], false⟩ [] listed_oneFile (by rw [call]) ?_ (root _) (fun _ => ⟨_, rfl, isDir_plainDir⟩) ?_
      (fun pattern => absurd pattern (by decide))).2 rfl ?_
    · rw [call]
      refine .step ⟨.notMade, by rintro _ _ ⟨⟩⟩ (.step ⟨.copied reads located (.inl ⟨free, rfl⟩) (isDir_fileOf _) rfl rfl
        (gains_copiedTree 0), by rintro _ _ ⟨⟩⟩ (.refl _))
    · intro rel member
      obtain rfl := List.mem_singleton.mp member
      have place : ([] : List FileName) ++ pathNames "f" = [nameF] := by decide +kernel
      rw [place, ← FileTree.dir_places_iff, free]
      exact Bool.false_ne_true
    · rw [listing]
      exact fun rel member => absurd member List.not_mem_nil
  · have call : syncCrossServer .smooth (emptyTree.server fun _ => none) ((copiedTree 0).server fun _ => none) "/" "/" true
        true = ([.remove "f" "/f"], some ⟨[], 0, ["f"], true⟩) := by decide +kernel
    have listed : sourceFiles (emptyTree.server fun _ => none) "/" = .listed Dict.empty "" := by
      rw [sourceFiles, if_neg (by decide)]
      rfl
    have located : (copiedTree 0).places.locate "/f" = some [nameF] := by decide +kernel
    have loses := loses_copiedTree 0
    refine (sync_mirrors .smooth emptyTree (copiedTree 0) emptyTree (fun _ => none) (fun _ => none) (fun _ => 0) "/" "/" "" true
      true _ ⟨[], 0, ["f"], true⟩ [] listed (by rw [call]) ?_ (root _) (fun _ => ⟨_, rfl, isDir_plainDir⟩)
      (fun rel member => absurd member List.not_mem_nil) (fun pattern => absurd pattern (by decide))).2 rfl
      (fun _ _ _ => rfl)
    rw [call]
    refine .step ⟨.removed located loses, ?_⟩ (.refl _)
    rintro _ _ ⟨⟩
    exact ⟨[nameF], located, loses⟩

end McpSsh
