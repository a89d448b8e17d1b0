import McpSsh.SyncSource

/-!
# The listing of a directory

`_sftp_list_tree` of a directory when no request fails: every file below the directory
has one entry, under its relative path and with its own attributes, and the base path
joined with that relative path is the path of the file.
-/

set_option autoImplicit false

namespace McpSsh

open Base

/-! ## Relative paths of files -/

/-- Different names make different relative paths. -/
theorem relPath_injective {names other : List FileName} (same : relPath names = relPath other) : names = other := by
  by_cases top : names = []
  · by_contra apart
    have inside : other ≠ [] := fun none_ => apart (top.trans none_.symm)
    rw [top, relPath_nil] at same
    exact (relPath_ends inside).1 same.symm
  · have inside : other ≠ [] := by
      rintro rfl
      exact (relPath_ends top).1 same
    have comps : names.map (fun name => name.text.toList) = other.map fun name => name.text.toList := by
      rw [← segments_relPath top, ← segments_relPath inside, same]
    exact List.map_injective_iff.mpr (fun m n texts => FileName.ext_text (String.toList_inj.mp texts)) comps

/-- The path that `_walk` has for what these names lead to. -/
def walkPath (base : String) (names : List FileName) : String :=
  names.foldl (fun path name => joinPath path name.text) base

theorem walkPath_concat (base : String) (names : List FileName) (name : FileName) :
    walkPath base (names ++ [name]) = joinPath (walkPath base names) name.text := by
  rw [walkPath, walkPath, List.foldl_append]
  rfl

theorem head_relPath (names : List FileName) : (relPath names).toList.head? ≠ some '/' := by
  induction names using List.reverseRecOn with
  | nil => simp
  | append_singleton front last ih =>
    by_cases top : front = []
    · rw [top, List.nil_append, relPath_singleton]
      exact fun slash => last.solid (List.mem_of_head? slash)
    · have some_ : (relPath front).toList ≠ [] := by
        simpa [String.toList_eq_nil_iff] using (relPath_ends top).1
      rw [relPath_concat top, String.toList_append, String.toList_append, List.append_assoc,
        List.head?_append_of_ne_nil _ some_]
      exact ih

/-- Joining the parts one by one is joining the relative path. -/
theorem joinPath_joinPath {base : String} {names : List FileName} (inside : names ≠ []) (name : FileName) :
    joinPath (joinPath base (relPath names)) name.text = joinPath base (relPath (names ++ [name])) := by
  have solid : name.text.toList.head? ≠ some '/' := fun slash => name.solid (List.mem_of_head? slash)
  obtain ⟨some_, ends⟩ := relPath_ends inside
  have chars : (relPath names).toList ≠ [] := by simpa [String.toList_eq_nil_iff] using some_
  obtain ⟨front, joined, extended⟩ : ∃ front : String, joinPath base (relPath names) = front ++ relPath names ∧
      joinPath base (relPath (names ++ [name])) = front ++ relPath (names ++ [name]) := by
    rw [joinPath, joinPath, if_neg (head_relPath names), if_neg (head_relPath _)]
    split
    · exact ⟨base, rfl, rfl⟩
    · exact ⟨base ++ "/", rfl, rfl⟩
  have last : (front ++ relPath names).toList.getLast? ≠ some '/' := by
    rw [String.toList_append, List.getLast?_append_of_ne_nil _ chars]
    exact ends
  have whole : front ++ relPath names ≠ "" := by
    intro empty
    have none_ : (front ++ relPath names).toList = [] := by rw [empty]; rfl
    rw [String.toList_append, List.append_eq_nil_iff] at none_
    exact chars none_.2
  have open_ : ¬ (decide (front ++ relPath names = "") || decide ((front ++ relPath names).toList.getLast? = some '/')) = true := by
    rw [Bool.or_eq_true, decide_eq_true_eq, decide_eq_true_eq]
    exact not_or.mpr ⟨whole, last⟩
  rw [joined, extended, joinPath, if_neg solid, if_neg open_, relPath_concat inside]
  simp only [String.append_assoc]

/-- **The base path joined with the relative path** is the path that `_walk` goes down. -/
theorem joinPath_relPath_eq_walkPath (base : String) {names : List FileName} (inside : names ≠ []) :
    joinPath base (relPath names) = walkPath base names := by
  induction names using List.reverseRecOn with
  | nil => exact absurd rfl inside
  | append_singleton front last ih =>
    rw [walkPath_concat]
    by_cases top : front = []
    · rw [top, List.nil_append, relPath_singleton]
      rfl
    · rw [← ih top, joinPath_joinPath top]

/-! ## The entries -/

namespace FileTree

variable {t : FileTree} {base : String} {top names : List FileName}

variable (t) in
/-- The attributes of the file at a location. -/
def fileAt (loc : List FileName) : Option SftpAttrs :=
  (t.node loc).bind fun node => if node.1.isDir then none else some node.1

theorem fileAt_eq_some_iff {loc : List FileName} {attrs : SftpAttrs} :
    t.fileAt loc = some attrs ↔ t.IsFile loc ∧ (t.node loc).map Prod.fst = some attrs := by
  rw [fileAt, IsFile]
  cases t.node loc with
  | none => simp
  | some node =>
    cases kind : node.1.isDir with
    | true => simp [kind]
    | false => simp [kind]

/-- A file has one entry in the listing of a directory above it. -/
theorem get?_sftpListTree_iff (leads : t.resolve base = some top) (dir : t.IsDir top) {rel : String} {attrs : SftpAttrs} :
    (sftpListTree (t.remote base) base).get? rel = some attrs ↔
      ∃ names, rel = relPath names ∧ t.fileAt (top ++ names) = some attrs := by
  have from_ : ∀ a, (sftpListTree (t.remote base) base).get? rel = some a →
      ∃ names, rel = relPath names ∧ t.fileAt (top ++ names) = some a := by
    intro a found
    obtain ⟨loc, listed, has⟩ := leads_of_get? found
    cases listed with
    | file other isFile =>
      cases leads.symm.trans other
      exact absurd isFile dir.not_isFile
    | @below top' names other _ isFile =>
      cases leads.symm.trans other
      exact ⟨names, rfl, fileAt_eq_some_iff.mpr ⟨isFile, has⟩⟩
  constructor
  · exact from_ attrs
  · rintro ⟨names, rfl, at_⟩
    obtain ⟨isFile, -⟩ := fileAt_eq_some_iff.mp at_
    obtain ⟨a, found⟩ := Dict.mem_keys_iff.mp (mem_keys_of_leads (.below leads dir isFile))
    obtain ⟨other, same, there⟩ := from_ a found
    rw [← relPath_injective same, at_] at there
    rw [found, there]

variable (t base top) in
/-- The listing of the directory at `base` holds the files below it, and nothing else. -/
structure ListsExactly : Prop where
  /-- A file has an entry under its relative path, with its own attributes. -/
  lists : ∀ names attrs, t.fileAt (top ++ names) = some attrs →
    (sftpListTree (t.remote base) base).get? (relPath names) = some attrs
  /-- An entry is that of one file. -/
  holds : ∀ rel attrs, (sftpListTree (t.remote base) base).get? rel = some attrs →
    ∃! names, rel = relPath names ∧ t.fileAt (top ++ names) = some attrs
  /-- The joined path is the one that was walked, and leads to the file. -/
  paths : ∀ names, t.IsFile (top ++ names) → joinPath base (relPath names) = walkPath base names ∧
    t.resolve (joinPath base (relPath names)) = some (top ++ names)
  /-- Different files have different relative paths. -/
  apart : ∀ names other, t.IsFile (top ++ names) → t.IsFile (top ++ other) → names ≠ other →
    relPath names ≠ relPath other

/-- **The listing of a directory is exact.** -/
theorem listsExactly (t : FileTree) (base : String) (top : List FileName) (leads : t.resolve base = some top)
    (dir : t.IsDir top) : t.ListsExactly base top where
  lists names attrs at_ := (get?_sftpListTree_iff leads dir).mpr ⟨names, rfl, at_⟩
  holds rel attrs found := by
    obtain ⟨names, rfl, at_⟩ := (get?_sftpListTree_iff leads dir).mp found
    exact ⟨names, ⟨rfl, at_⟩, fun other same => (relPath_injective same.1).symm⟩
  paths names isFile := by
    have inside := dir.ne_nil_of_isFile isFile
    refine ⟨joinPath_relPath_eq_walkPath base inside, ?_⟩
    rw [← srcFull_eq]
    exact (resolve_srcFull_iff isFile inside).mpr leads
  apart names other _ _ different same := different (relPath_injective same)

/-- A server that also lists `.` and `..` in a directory. -/
def dotted : FileTree where
  attrs := plainDir
  root := .cons ⟨"data", by decide, by decide⟩ plainDir
    (.cons ⟨".", by decide, by decide⟩ plainDir .nil (.cons ⟨"..", by decide, by decide⟩ plainDir .nil nestedTree)) .nil
  cwd := []
  isDir := isDir_plainDir
  distinct := by simp [nestedTree, flatTree, Listing.Distinct, Listing.find, FileName.isDots]
  home := ⟨_, rfl, isDir_plainDir⟩

theorem listsExactly_dotted : dotted.ListsExactly "/data" [⟨"data", by decide, by decide⟩] :=
  listsExactly dotted "/data" _ (by decide +kernel) ⟨_, rfl, by decide⟩

end FileTree

end McpSsh
