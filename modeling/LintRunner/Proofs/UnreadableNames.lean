import LintRunner.Proofs.Listing

/-!
# Names that are no text

A file whose path is no text is left out of the listing, and the files around it
are listed. A walk gets past such a name only at the end of a path: at the first
entry of a directory whose name is no text it breaks off, and nothing is listed.
-/

namespace LintRunner.Tree

open Bytes (slash)

/-- The full paths of the files in a tree as bytes, in the order of a walk. -/
def filePaths (parent : Bytes) : Tree → List Bytes
  | .nil => []
  | .file name kind rest =>
    (if kind = .submodule then [] else [parent ++ name]) ++ filePaths parent rest
  | .directory name content rest =>
    filePaths (parent ++ name ++ [slash]) content ++ filePaths parent rest

/-- Every directory that is not empty has a text for its name. -/
def Passable : Tree → Prop
  | .nil => True
  | .file _ _ rest => rest.Passable
  | .directory name content rest =>
    (content = .nil ∨ name.text?.isSome) ∧ content.Passable ∧ rest.Passable

instance decidablePassable : (tree : Tree) → Decidable tree.Passable
  | .nil => .isTrue trivial
  | .file _ _ rest => decidablePassable rest
  | .directory _ content rest =>
    have := decidablePassable content
    have := decidablePassable rest
    inferInstanceAs (Decidable (_ ∧ _ ∧ _))

/-! ## The files of a tree -/

theorem mem_filePaths {tree : Tree} {path : Bytes} : ∀ {parent : Bytes},
    path ∈ tree.filePaths parent ↔
      ∃ dirs name kind, tree.Holds dirs name kind ∧ kind ≠ .submodule ∧
        path = parent ++ fullPath dirs name := by
  induction tree with
  | nil =>
      intro parent
      constructor
      · intro h
        cases h
      · rintro ⟨_, _, _, h, -, -⟩
        cases h
  | file n k rest ih =>
      intro parent
      rw [filePaths, List.mem_append, ih]
      constructor
      · rintro (hpath | ⟨dirs, name, kind, h, hkind, hpath⟩)
        · split at hpath
          · cases hpath
          · rename_i hk
            exact ⟨[], n, k, .here, hk, List.mem_singleton.mp hpath⟩
        · exact ⟨dirs, name, kind, .afterFile h, hkind, hpath⟩
      · rintro ⟨dirs, name, kind, h, hkind, hpath⟩
        cases h with
        | here =>
            rw [if_neg hkind]
            exact Or.inl (List.mem_singleton.mpr hpath)
        | afterFile h => exact Or.inr ⟨dirs, name, kind, h, hkind, hpath⟩
  | directory dir content rest ihc ihr =>
      intro parent
      rw [filePaths, List.mem_append, ihc, ihr]
      constructor
      · rintro (⟨dirs, name, kind, h, hkind, hpath⟩ | ⟨dirs, name, kind, h, hkind, hpath⟩)
        · refine ⟨dir :: dirs, name, kind, .inside h, hkind, ?_⟩
          rw [hpath, fullPath_cons]
          simp
        · exact ⟨dirs, name, kind, .afterDirectory h, hkind, hpath⟩
      · rintro ⟨dirs, name, kind, h, hkind, hpath⟩
        cases h with
        | @inside _ _ _ _ _ inner h =>
            refine Or.inl ⟨inner, name, kind, h, hkind, ?_⟩
            rw [hpath, fullPath_cons]
            simp
        | afterDirectory h => exact Or.inr ⟨dirs, name, kind, h, hkind, hpath⟩

/-- A path is a text exactly if all names on it are. -/
theorem isSome_text?_fullPath (dirs : List Bytes) (name : Bytes) :
    (fullPath dirs name).text?.isSome ↔ ∀ piece ∈ name :: dirs, piece.text?.isSome := by
  induction dirs with
  | nil =>
      have hself : fullPath [] name = name := rfl
      simp [hself]
  | cons dir dirs ih =>
      rw [fullPath_cons, List.append_assoc, List.singleton_append,
        Bytes.isSome_text?_cut (by decide), ih]
      simp only [List.forall_mem_cons]
      exact and_left_comm

/-! ## How far a walk gets -/

theorem isSome_text?_directory {parent name : Bytes} (hparent : parent.text?.isSome) :
    (parent ++ name ++ [slash]).text?.isSome ↔ name.text?.isSome := by
  rw [List.append_assoc, Bytes.isSome_text?_append hparent, Bytes.isSome_text?_cut (by decide)]
  exact and_iff_left (by decide)

/-- A walk gets into a directory whose path is no text only if nothing is in it. -/
theorem walk_of_no_text {tree : Tree} {parent : Bytes} (hparent : ¬ parent.text?.isSome) :
    (tree.walk parent).2 = true ↔ tree = .nil := by
  have hnone : parent.text? = none := by simpa using hparent
  cases tree with
  | nil => simp [walk]
  | file name kind rest => simp [walk, hnone]
  | directory name content rest => simp [walk, hnone]

theorem walk_directory_complete {parent : Bytes} (hparent : parent.text?.isSome) (name : Bytes)
    (content rest : Tree) :
    ((Tree.directory name content rest).walk parent).2 = true ↔
      (content.walk (parent ++ name ++ [slash])).2 = true ∧ (rest.walk parent).2 = true := by
  obtain ⟨shown, hshown⟩ := Option.isSome_iff_exists.mp hparent
  rw [walk, hshown]
  generalize content.walk (parent ++ name ++ [slash]) = inner
  obtain ⟨visits, complete⟩ := inner
  cases complete <;> simp

/-- A walk comes to its end exactly if it meets no directory that it has to read
and cannot name. -/
theorem walk_complete_iff {tree : Tree} : ∀ {parent : Bytes}, parent.text?.isSome →
    ((tree.walk parent).2 = true ↔ tree.Passable) := by
  induction tree with
  | nil =>
      intro parent _
      exact iff_of_true rfl trivial
  | file name kind rest ih =>
      intro parent hparent
      obtain ⟨shown, hshown⟩ := Option.isSome_iff_exists.mp hparent
      rw [walk, hshown]
      exact ih hparent
  | directory name content rest ihc ihr =>
      intro parent hparent
      rw [walk_directory_complete hparent, ihr hparent, Passable]
      by_cases hname : name.text?.isSome
      · rw [ihc ((isSome_text?_directory hparent).mpr hname)]
        simp [hname]
      · rw [walk_of_no_text (mt (isSome_text?_directory hparent).mp hname)]
        constructor
        · rintro ⟨rfl, hrest⟩
          exact ⟨Or.inl rfl, trivial, hrest⟩
        · rintro ⟨hnil | hname', -, hrest⟩
          · exact ⟨hnil, hrest⟩
          · exact absurd hname' hname

/-! ## What a complete walk gives -/

theorem paths_directory_of_complete {parent name : Bytes} {content : Tree}
    (hparent : parent.text?.isSome)
    (hcomplete : (content.walk (parent ++ name ++ [slash])).2 = true) (rest : Tree) :
    (Tree.directory name content rest).paths parent =
      content.paths (parent ++ name ++ [slash]) ++ rest.paths parent := by
  obtain ⟨shown, hshown⟩ := Option.isSome_iff_exists.mp hparent
  simp only [paths, walk, hshown]
  generalize content.walk (parent ++ name ++ [slash]) = inner at hcomplete
  obtain ⟨visits, complete⟩ := inner
  obtain rfl : complete = true := hcomplete
  simp

/-- The path that is shown of a file is its path, if that is a text. -/
theorem shownPath_eq {parent : Bytes} {shown : String} (hparent : parent.text? = some shown)
    (name : Bytes) {kind : FileKind} (hkind : kind ≠ .submodule) :
    shownPath shown name kind = (parent ++ name).text? := by
  have hmap : shownPath shown name kind = name.text?.map (shown ++ ·) := by
    cases kind with
    | submodule => exact absurd rfl hkind
    | _ => rfl
  rw [hmap]
  cases hname : name.text? with
  | some text => exact (Bytes.text?_append hparent hname).symm
  | none =>
      have hno : ¬ (parent ++ name).text?.isSome := by
        rw [Bytes.isSome_text?_append (by rw [hparent]; rfl), hname]
        decide
      exact (Option.not_isSome_iff_eq_none.mp hno).symm

theorem paths_eq_filterMap {tree : Tree} : ∀ {parent : Bytes}, parent.text?.isSome →
    tree.Passable → tree.paths parent = (tree.filePaths parent).filterMap Bytes.text? := by
  induction tree with
  | nil =>
      intro parent _ _
      rfl
  | file name kind rest ih =>
      intro parent hparent hpass
      obtain ⟨shown, hshown⟩ := Option.isSome_iff_exists.mp hparent
      rw [paths_file hshown, filePaths, List.filterMap_append, ih hparent hpass]
      congr 1
      by_cases hkind : kind = .submodule
      · subst hkind
        rfl
      · rw [if_neg hkind, shownPath_eq hshown name hkind]
        cases h : (parent ++ name).text? <;> simp [h]
  | directory name content rest ihc ihr =>
      intro parent hparent ⟨hname, hcontent, hrest⟩
      rw [filePaths, List.filterMap_append]
      rcases hname with rfl | hname
      · rw [paths_directory_of_complete hparent rfl, ihr hparent hrest]
        rfl
      · have hinner := (isSome_text?_directory hparent).mpr hname
        rw [paths_directory_of_complete hparent ((walk_complete_iff hinner).mpr hcontent),
          ihc hinner hcontent, ihr hparent hrest]

end LintRunner.Tree

namespace LintRunner.Repository

open LintRunner.Tree

theorem listTree_of_passable {tree : Tree} (hpass : tree.Passable) :
    (listTree tree).2 = .ok ((tree.filePaths []).filterMap Bytes.text?) := by
  have hcomplete : (tree.walk []).2 = true := (walk_complete_iff (by decide)).mpr hpass
  rw [← paths_eq_filterMap (by decide) hpass, listTree, paths]
  generalize tree.walk [] = walked at hcomplete
  obtain ⟨visits, complete⟩ := walked
  obtain rfl : complete = true := hcomplete
  rfl

theorem listTree_of_not_passable {tree : Tree} (hpass : ¬ tree.Passable) :
    (listTree tree).2 = .error .brokenWalk := by
  have hcomplete : ¬ (tree.walk []).2 = true := mt (walk_complete_iff (by decide)).mp hpass
  rw [listTree]
  generalize tree.walk [] = walked at hcomplete
  obtain ⟨visits, complete⟩ := walked
  obtain rfl : complete = false := by simpa using hcomplete
  rfl

/-- The files of a head are listed exactly if every directory that is not empty has
a text for its name. What is listed then are the paths that are texts as a whole,
in the order of the walk: a file is left out if its own name or that of a directory
above it is no text, and all others are there. Otherwise the walk breaks off, and
the listing is an error. -/
theorem committedFiles_ok_iff_passable {r : Repository} {tree : Tree} (hhead : r.HeadTree tree) :
    ∃ listed : List String, listed = (tree.filePaths []).filterMap Bytes.text? ∧
      (∀ path, path ∈ listed ↔
        ∃ dirs name kind, tree.Holds dirs name kind ∧ kind ≠ .submodule ∧
          (∀ piece ∈ name :: dirs, piece.text?.isSome) ∧
          Bytes.ofText path = fullPath dirs name) ∧
      (r.committedFiles.2 = .ok listed ↔ tree.Passable) ∧
      (¬ tree.Passable → r.committedFiles.2 = .error .brokenWalk) := by
  rw [committedFiles_of_headTree hhead]
  refine ⟨_, rfl, ?_, ⟨?_, listTree_of_passable⟩, listTree_of_not_passable⟩
  · intro path
    rw [List.mem_filterMap]
    constructor
    · rintro ⟨bytes, hbytes, htext⟩
      obtain ⟨dirs, name, kind, h, hkind, rfl⟩ := mem_filePaths.mp hbytes
      refine ⟨dirs, name, kind, h, hkind, ?_, Bytes.ofText_of_text? htext⟩
      rw [← isSome_text?_fullPath]
      exact Option.isSome_of_mem htext
    · rintro ⟨dirs, name, kind, h, hkind, -, hpath⟩
      refine ⟨fullPath dirs name, mem_filePaths.mpr ⟨dirs, name, kind, h, hkind, rfl⟩, ?_⟩
      rw [← hpath, Bytes.text?_ofText]
  · intro hlisted
    by_contra hpass
    rw [listTree_of_not_passable hpass] at hlisted
    cases hlisted

/-- A file that is no text by its own name, and an empty directory that is none. -/
def strayTree : Tree :=
  .file (Bytes.ofText "a.c") .regular <|
    .directory (Bytes.ofText "b")
      (.file (Bytes.ofText "x.h") .symlink <| .file [0x78, 0xFF] .regular .nil) <|
    .directory [0x63, 0xFF] .nil <| .file (Bytes.ofText "d.c") .executable .nil

theorem committedFiles_of_strayTree :
    let r : Repository := ⟨false, .direct (.firstCommit strayTree), []⟩
    strayTree.InGitOrder ∧ r.HeadTree strayTree ∧
      r.committedFiles.2 = .ok ["a.c", "b/x.h", "d.c"] := by
  intro r
  have hhead : r.HeadTree strayTree := ⟨_, rfl, rfl⟩
  have hpass : strayTree.Passable := by decide
  obtain ⟨listed, hlisted, -, hok, -⟩ := committedFiles_ok_iff_passable hhead
  refine ⟨by decide, hhead, ?_⟩
  rw [hok.mpr hpass, hlisted]
  rfl

/-- A file in a directory whose name is no text, and one beside it. -/
def blockedTree : Tree :=
  .directory [0x64, 0xFF] (.file (Bytes.ofText "a.c") .regular .nil) <|
    .file (Bytes.ofText "e.c") .regular .nil

/-- The file beside the directory is not listed either. -/
theorem committedFiles_of_blockedTree :
    let r : Repository := ⟨false, .direct (.firstCommit blockedTree), []⟩
    blockedTree.InGitOrder ∧ r.HeadTree blockedTree ∧
      (blockedTree.filePaths []).filterMap Bytes.text? = ["e.c"] ∧
      r.committedFiles.2 = .error .brokenWalk := by
  intro r
  exact ⟨by decide, ⟨_, rfl, rfl⟩, rfl, rfl⟩

end LintRunner.Repository
