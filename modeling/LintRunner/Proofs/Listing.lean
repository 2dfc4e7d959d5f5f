import LintRunner.Proofs.Utf8
import LintRunner.Repository.Basic

/-!
# The committed files are listed completely and in order

A walk through a tree in git order gives the full path of every file whose name
is a text, once, and the paths increase byte by byte. The order of one directory
makes the whole list sorted because a directory counts with its slash: what
stands behind the slash can no longer decide between two entries.
-/

namespace LintRunner.Tree

open Bytes (slash)

/-! ## Trees as they are committed -/

/-- A file of the tree: the directories on the way to it, its own name, and its
kind. -/
inductive Holds : Tree → List Bytes → Bytes → FileKind → Prop
  | here {name : Bytes} {kind : FileKind} {rest : Tree} :
      Holds (.file name kind rest) [] name kind
  | afterFile {n name : Bytes} {k kind : FileKind} {rest : Tree} {dirs : List Bytes} :
      Holds rest dirs name kind → Holds (.file n k rest) dirs name kind
  | inside {dir name : Bytes} {kind : FileKind} {content rest : Tree} {dirs : List Bytes} :
      Holds content dirs name kind →
        Holds (.directory dir content rest) (dir :: dirs) name kind
  | afterDirectory {dir name : Bytes} {kind : FileKind} {content rest : Tree}
      {dirs : List Bytes} :
      Holds rest dirs name kind → Holds (.directory dir content rest) dirs name kind

/-- The path of a file from the root of the tree. -/
def fullPath (dirs : List Bytes) (name : Bytes) : Bytes :=
  Text.joinWith slash (dirs ++ [name])

/-- What the entries of one directory are ordered by. -/
def keys : Tree → List Bytes
  | .nil => []
  | .file name _ rest => name :: rest.keys
  | .directory name _ rest => (name ++ [slash]) :: rest.keys

/-- In every directory the names hold no slash and stand in strict order, where
a directory counts with a slash behind its name. -/
def InGitOrder : Tree → Prop
  | .nil => True
  | .file name _ rest => slash ∉ name ∧ (∀ key ∈ rest.keys, name < key) ∧ rest.InGitOrder
  | .directory name content rest =>
    slash ∉ name ∧ (∀ key ∈ rest.keys, name ++ [slash] < key) ∧
      content.InGitOrder ∧ rest.InGitOrder

/-- The names of all directories are texts. -/
def NamesText : Tree → Prop
  | .nil => True
  | .file _ _ rest => rest.NamesText
  | .directory name content rest =>
    name.text?.isSome ∧ content.NamesText ∧ rest.NamesText

instance decidableInGitOrder : (tree : Tree) → Decidable tree.InGitOrder
  | .nil => .isTrue trivial
  | .file _ _ rest =>
    have := decidableInGitOrder rest
    inferInstanceAs (Decidable (_ ∧ _ ∧ _))
  | .directory _ content rest =>
    have := decidableInGitOrder content
    have := decidableInGitOrder rest
    inferInstanceAs (Decidable (_ ∧ _ ∧ _ ∧ _))

instance decidableNamesText : (tree : Tree) → Decidable tree.NamesText
  | .nil => .isTrue trivial
  | .file _ _ rest => decidableNamesText rest
  | .directory _ content rest =>
    have := decidableNamesText content
    have := decidableNamesText rest
    inferInstanceAs (Decidable (_ ∧ _ ∧ _))

/-- A file that the listing shows: no submodule, and its name is a text. -/
def Shown (tree : Tree) (dirs : List Bytes) (name : Bytes) : Prop :=
  ∃ kind, tree.Holds dirs name kind ∧ kind ≠ .submodule ∧ name.text?.isSome

theorem fullPath_cons (dir : Bytes) (dirs : List Bytes) (name : Bytes) :
    fullPath (dir :: dirs) name = dir ++ [slash] ++ fullPath dirs name := by
  rw [fullPath, List.cons_append, Text.joinWith]
  · simp [fullPath]
  · simp

/-! ## What a walk comes by -/

theorem text?_directory {parent name : Bytes} {shown : String} (hparent : parent.text? = some shown)
    (hname : name.text?.isSome) : ((parent ++ name ++ [slash]).text?).isSome := by
  obtain ⟨dir, hdir⟩ := Option.isSome_iff_exists.mp hname
  have hslash : Bytes.text? [slash] = some "/" := by decide
  rw [Bytes.text?_append (Bytes.text?_append hparent hdir) hslash]
  rfl

/-- The paths among the visits of a walk. -/
def paths (tree : Tree) (parent : Bytes) : List String :=
  (tree.walk parent).1.filterMap (·.path?)

/-- The path of a file in a directory, if its name is a text. -/
def shownPath (parent : String) (name : Bytes) : FileKind → Option String
  | .submodule => none
  | _ => name.text?.map (parent ++ ·)

theorem filterMap_visit (parent : String) (name : Bytes) (kind : FileKind) :
    (visit parent name kind).filterMap (·.path?) = (shownPath parent name kind).toList := by
  cases kind <;> cases h : name.text? <;> simp [visit, shownPath, h, Visit.path?]

theorem walk_complete {tree : Tree} : ∀ {parent : Bytes} {shown : String},
    tree.NamesText → parent.text? = some shown → (tree.walk parent).2 = true := by
  induction tree with
  | nil => intros; rfl
  | file name kind rest ih =>
      intro parent shown htext hparent
      simp only [walk, hparent]
      exact ih htext hparent
  | directory name content rest ihc ihr =>
      intro parent shown ⟨hname, hcontent, hrest⟩ hparent
      obtain ⟨dir, hdir⟩ := Option.isSome_iff_exists.mp (text?_directory hparent hname)
      have hc := ihc hcontent hdir
      have hr := ihr hrest hparent
      simp only [walk, hparent]
      generalize content.walk (parent ++ name ++ [slash]) = inner at hc
      obtain ⟨visits, complete⟩ := inner
      obtain rfl : complete = true := hc
      exact hr

theorem paths_file {parent : Bytes} {shown : String} (hparent : parent.text? = some shown)
    (name : Bytes) (kind : FileKind) (rest : Tree) :
    (Tree.file name kind rest).paths parent =
      (shownPath shown name kind).toList ++ rest.paths parent := by
  simp only [paths, walk, hparent, List.filterMap_append, filterMap_visit]

theorem paths_directory {parent name : Bytes} {shown : String} {content : Tree}
    (hparent : parent.text? = some shown) (hname : name.text?.isSome)
    (hcontent : content.NamesText) (rest : Tree) :
    (Tree.directory name content rest).paths parent =
      content.paths (parent ++ name ++ [slash]) ++ rest.paths parent := by
  obtain ⟨dir, hdir⟩ := Option.isSome_iff_exists.mp (text?_directory hparent hname)
  have hc := walk_complete hcontent hdir
  simp only [paths, walk, hparent]
  generalize content.walk (parent ++ name ++ [slash]) = inner at hc
  obtain ⟨visits, complete⟩ := inner
  obtain rfl : complete = true := hc
  simp

theorem mem_shownPath {parent : Bytes} {shown path : String} {name : Bytes} {kind : FileKind}
    (hparent : parent.text? = some shown) :
    shownPath shown name kind = some path ↔
      kind ≠ .submodule ∧ name.text?.isSome ∧ Bytes.ofText path = parent ++ name := by
  have hsome : (name.text?.map (shown ++ ·)) = some path ↔
      name.text?.isSome ∧ Bytes.ofText path = parent ++ name := by
    constructor
    · intro h
      obtain ⟨text, htext, rfl⟩ := Option.map_eq_some_iff.mp h
      refine ⟨by rw [htext]; rfl, ?_⟩
      rw [Bytes.ofText_append, Bytes.ofText_of_text? hparent, Bytes.ofText_of_text? htext]
    · rintro ⟨hname, hpath⟩
      obtain ⟨text, htext⟩ := Option.isSome_iff_exists.mp hname
      rw [htext]
      apply congrArg some
      apply Bytes.ofText_injective
      rw [hpath, Bytes.ofText_append, Bytes.ofText_of_text? hparent, Bytes.ofText_of_text? htext]
  cases kind <;> simp [shownPath, hsome]

theorem shown_nil {dirs : List Bytes} {name : Bytes} : ¬ Tree.nil.Shown dirs name := by
  rintro ⟨_, h, -⟩
  cases h

theorem shown_file {n : Bytes} {k : FileKind} {rest : Tree} {dirs : List Bytes} {name : Bytes} :
    (Tree.file n k rest).Shown dirs name ↔
      (dirs = [] ∧ name = n ∧ k ≠ .submodule ∧ n.text?.isSome) ∨ rest.Shown dirs name := by
  constructor
  · rintro ⟨kind, h, hkind, htext⟩
    cases h with
    | here => exact Or.inl ⟨rfl, rfl, hkind, htext⟩
    | afterFile h => exact Or.inr ⟨kind, h, hkind, htext⟩
  · rintro (⟨rfl, rfl, hkind, htext⟩ | ⟨kind, h, hkind, htext⟩)
    · exact ⟨k, .here, hkind, htext⟩
    · exact ⟨kind, .afterFile h, hkind, htext⟩

theorem shown_directory {dir : Bytes} {content rest : Tree} {dirs : List Bytes} {name : Bytes} :
    (Tree.directory dir content rest).Shown dirs name ↔
      (∃ inner, dirs = dir :: inner ∧ content.Shown inner name) ∨ rest.Shown dirs name := by
  constructor
  · rintro ⟨kind, h, hkind, htext⟩
    cases h with
    | inside h => exact Or.inl ⟨_, rfl, kind, h, hkind, htext⟩
    | afterDirectory h => exact Or.inr ⟨kind, h, hkind, htext⟩
  · rintro (⟨inner, rfl, kind, h, hkind, htext⟩ | ⟨kind, h, hkind, htext⟩)
    · exact ⟨kind, .inside h, hkind, htext⟩
    · exact ⟨kind, .afterDirectory h, hkind, htext⟩

/-- A walk gives the paths of exactly the files that are shown. -/
theorem mem_paths {tree : Tree} {path : String} : ∀ {parent : Bytes} {shown : String},
    tree.NamesText → parent.text? = some shown →
      (path ∈ tree.paths parent ↔
        ∃ dirs name, tree.Shown dirs name ∧ Bytes.ofText path = parent ++ fullPath dirs name) := by
  induction tree with
  | nil =>
      intro parent shown _ _
      simp [paths, walk, shown_nil]
  | file n k rest ih =>
      intro parent shown htext hparent
      rw [paths_file hparent, List.mem_append, ih htext hparent, Option.mem_toList,
        mem_shownPath hparent]
      simp only [shown_file]
      constructor
      · rintro (⟨hkind, hname, hpath⟩ | ⟨dirs, name, h, hpath⟩)
        · exact ⟨[], n, Or.inl ⟨rfl, rfl, hkind, hname⟩, hpath⟩
        · exact ⟨dirs, name, Or.inr h, hpath⟩
      · rintro ⟨dirs, name, ⟨rfl, rfl, hkind, hname⟩ | h, hpath⟩
        · exact Or.inl ⟨hkind, hname, hpath⟩
        · exact Or.inr ⟨dirs, name, h, hpath⟩
  | directory dir content rest ihc ihr =>
      intro parent shown ⟨hdir, hcontent, hrest⟩ hparent
      obtain ⟨inner, hinner⟩ := Option.isSome_iff_exists.mp (text?_directory hparent hdir)
      rw [paths_directory hparent hdir hcontent, List.mem_append, ihc hcontent hinner,
        ihr hrest hparent]
      simp only [shown_directory]
      constructor
      · rintro (⟨dirs, name, h, hpath⟩ | ⟨dirs, name, h, hpath⟩)
        · refine ⟨dir :: dirs, name, Or.inl ⟨dirs, rfl, h⟩, ?_⟩
          rw [hpath, fullPath_cons]
          simp
        · exact ⟨dirs, name, Or.inr h, hpath⟩
      · rintro ⟨dirs, name, ⟨inner, rfl, h⟩ | h, hpath⟩
        · refine Or.inl ⟨inner, name, h, ?_⟩
          rw [hpath, fullPath_cons]
          simp
        · exact Or.inr ⟨dirs, name, h, hpath⟩

/-! ## The order of the paths -/

/-- A first difference decides, whatever follows. -/
theorem append_lt_append {a b : Bytes} (h : a < b) (hbegin : ¬ a <+: b) (x y : Bytes) :
    a ++ x < b ++ y := by
  induction a generalizing b with
  | nil => exact absurd List.nil_prefix hbegin
  | cons c a ih =>
      cases b with
      | nil => exact absurd h (List.not_lt_nil _)
      | cons d b =>
          rw [List.cons_append, List.cons_append, List.cons_lt_cons_iff]
          rcases List.cons_lt_cons_iff.mp h with hlt | ⟨rfl, hlt⟩
          · exact Or.inl hlt
          · refine Or.inr ⟨rfl, ih hlt ?_⟩
            intro hab
            exact hbegin (List.cons_prefix_cons.mpr ⟨rfl, hab⟩)

/-- Of all keys only its own begins with the key of a directory. -/
theorem key_eq_of_begins {tree : Tree} (horder : tree.InGitOrder) {name key : Bytes}
    (hkey : key ∈ tree.keys) (hbegin : name ++ [slash] <+: key) :
    name ++ [slash] = key := by
  induction tree with
  | nil => cases hkey
  | file n k rest ih =>
      obtain ⟨hn, -, hrest⟩ := horder
      rcases List.mem_cons.mp hkey with rfl | hkey
      · exact absurd (hbegin.subset (by simp)) hn
      · exact ih hrest hkey
  | directory n content rest _ ih =>
      obtain ⟨hn, -, -, hrest⟩ := horder
      rcases List.mem_cons.mp hkey with rfl | hkey
      · obtain ⟨tail, htail⟩ := hbegin
        rw [List.append_assoc] at htail
        obtain ⟨rfl, -⟩ := (List.append_cons_inj_of_notMem hn List.not_mem_nil).mp htail.symm
        rfl
      · exact ih hrest hkey

/-- The path of a file begins with the key of its entry. -/
theorem key_begins_of_shown {tree : Tree} {dirs : List Bytes} {name : Bytes}
    (h : tree.Shown dirs name) : ∃ key ∈ tree.keys, key <+: fullPath dirs name := by
  induction tree generalizing dirs with
  | nil => exact absurd h shown_nil
  | file n k rest ih =>
      rcases shown_file.mp h with ⟨rfl, rfl, -, -⟩ | h
      · exact ⟨name, List.mem_cons_self, List.prefix_rfl⟩
      · obtain ⟨key, hkey, hbegin⟩ := ih h
        exact ⟨key, List.mem_cons_of_mem _ hkey, hbegin⟩
  | directory dir content rest _ ih =>
      rcases shown_directory.mp h with ⟨inner, rfl, -⟩ | h
      · refine ⟨dir ++ [slash], List.mem_cons_self, ?_⟩
        rw [fullPath_cons]
        exact List.prefix_append _ _
      · obtain ⟨key, hkey, hbegin⟩ := ih h
        exact ⟨key, List.mem_cons_of_mem _ hkey, hbegin⟩

/-- The paths of a walk strictly increase byte by byte. -/
theorem paths_sorted {tree : Tree} : ∀ {parent : Bytes} {shown : String},
    tree.NamesText → tree.InGitOrder → parent.text? = some shown →
      (tree.paths parent).Pairwise fun a b => Bytes.ofText a < Bytes.ofText b := by
  induction tree with
  | nil =>
      intros
      exact List.Pairwise.nil
  | file n k rest ih =>
      intro parent shown htext ⟨hn, hfirst, hrest⟩ hparent
      have hrestText : rest.NamesText := htext
      rw [paths_file hparent, List.pairwise_append]
      refine ⟨?_, ih hrestText hrest hparent, ?_⟩
      · cases shownPath shown n k <;> simp
      · intro a ha b hb
        obtain ⟨-, -, ha⟩ := (mem_shownPath hparent).mp (Option.mem_toList.mp ha)
        obtain ⟨dirs, name, hshown, hb⟩ := (mem_paths hrestText hparent).mp hb
        obtain ⟨key, hkey, hbegin⟩ := key_begins_of_shown hshown
        rw [ha, hb]
        apply List.append_left_lt
        exact Std.lt_of_lt_of_le (hfirst key hkey) hbegin.le
  | directory dir content rest ihc ihr =>
      intro parent shown ⟨hdirText, hcontentText, hrestText⟩ ⟨hdir, hfirst, hcontent, hrest⟩
        hparent
      obtain ⟨inner, hinner⟩ := Option.isSome_iff_exists.mp (text?_directory hparent hdirText)
      rw [paths_directory hparent hdirText hcontentText, List.pairwise_append]
      refine ⟨ihc hcontentText hcontent hinner, ihr hrestText hrest hparent, ?_⟩
      intro a ha b hb
      obtain ⟨dirsA, nameA, -, ha⟩ := (mem_paths hcontentText hinner).mp ha
      obtain ⟨dirsB, nameB, hshown, hb⟩ := (mem_paths hrestText hparent).mp hb
      obtain ⟨key, hkey, tail, htail⟩ := key_begins_of_shown hshown
      have hlt := hfirst key hkey
      -- An entry behind the directory cannot begin with the directory's key.
      have hnot : ¬ dir ++ [slash] <+: key := by
        intro hbegin
        rw [key_eq_of_begins hrest hkey hbegin] at hlt
        exact List.lt_irrefl _ hlt
      rw [ha, hb, ← htail, List.append_assoc, List.append_assoc]
      apply List.append_left_lt
      simpa using append_lt_append hlt hnot (fullPath dirsA nameA) tail

end LintRunner.Tree

namespace LintRunner.Repository

open LintRunner.Tree

/-- The head of the repository leads to a commit of this tree. -/
def HeadTree (r : Repository) (tree : Tree) : Prop :=
  ∃ object, r.headObject = .ok (some object) ∧ object.tree = .ok tree

theorem committedFiles_of_headTree {r : Repository} {tree : Tree} (hhead : r.HeadTree tree) :
    r.committedFiles = listTree tree := by
  obtain ⟨object, hobject, htree⟩ := hhead
  simp only [committedFiles, hobject, htree]

theorem listTree_ok {tree : Tree} (htext : tree.NamesText) :
    (listTree tree).2 = .ok (tree.paths []) := by
  have hcomplete : (tree.walk []).2 = true := walk_complete htext rfl
  rw [listTree, paths]
  generalize tree.walk [] = walked at hcomplete
  obtain ⟨visits, complete⟩ := walked
  obtain rfl : complete = true := hcomplete
  rfl

/-- The files committed at a head are all files of its tree whose names are
texts, submodules left out, and each comes strictly before the next by the bytes
of its path. -/
theorem committedFiles_complete_and_sorted {r : Repository} {tree : Tree}
    (hhead : r.HeadTree tree) (htext : tree.NamesText) (horder : tree.InGitOrder) :
    ∃ files, r.committedFiles.2 = .ok files ∧
      (∀ path, path ∈ files ↔
        ∃ dirs name kind, tree.Holds dirs name kind ∧ kind ≠ .submodule ∧
          name.text?.isSome ∧ Bytes.ofText path = fullPath dirs name) ∧
      files.Pairwise fun a b => Bytes.ofText a < Bytes.ofText b := by
  refine ⟨tree.paths [], ?_, ?_, paths_sorted htext horder rfl⟩
  · rw [committedFiles_of_headTree hhead, listTree_ok htext]
  · intro path
    rw [mem_paths htext rfl]
    simp only [Shown, List.nil_append]
    constructor
    · rintro ⟨dirs, name, ⟨kind, h, hkind, hname⟩, hpath⟩
      exact ⟨dirs, name, kind, h, hkind, hname, hpath⟩
    · rintro ⟨dirs, name, kind, h, hkind, hname, hpath⟩
      exact ⟨dirs, name, ⟨kind, h, hkind, hname⟩, hpath⟩

/-- The directory `a` stands between `a.c` and `a0`, and three entries give no
path: a name that is no text, a submodule, and a directory. -/
def mixedTree : Tree :=
  .file (Bytes.ofText "a.c") .regular <|
    .directory (Bytes.ofText "a")
      (.directory (Bytes.ofText "b")
        (.file (Bytes.ofText "x.h") .executable <| .file [0x78, 0xFF] .regular .nil)
        (.file (Bytes.ofText "c") .submodule .nil)) <|
    .file (Bytes.ofText "a0") .symlink .nil

theorem committedFiles_of_mixedTree :
    let r : Repository := ⟨false, .direct (.tag (.firstCommit mixedTree)), []⟩
    r.HeadTree mixedTree ∧ mixedTree.NamesText ∧ mixedTree.InGitOrder ∧
      ∃ files, r.committedFiles.2 = .ok files ∧
        (∀ path, path ∈ files ↔
          ∃ dirs name kind, mixedTree.Holds dirs name kind ∧ kind ≠ .submodule ∧
            name.text?.isSome ∧ Bytes.ofText path = fullPath dirs name) ∧
        files.Pairwise fun a b => Bytes.ofText a < Bytes.ofText b := by
  intro r
  have hhead : r.HeadTree mixedTree := ⟨_, rfl, rfl⟩
  have htext : mixedTree.NamesText := by decide
  have horder : mixedTree.InGitOrder := by decide
  exact ⟨hhead, htext, horder, committedFiles_complete_and_sorted hhead htext horder⟩

end LintRunner.Repository
