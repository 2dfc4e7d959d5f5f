import LintRunner.CompilationDatabase
import LintRunner.Proofs.Lexical
import LintRunner.Proofs.Selection

/-!
# Which files a database covers

A unit covers the file that its path leads to by its letters, however the path is
spelled: both sides of the comparison come down to the place where the steps of a
path end. So a database is missing exactly the names whose places no unit leads to,
and neither another spelling nor the order of the units changes that.
-/

namespace LintRunner

open Bytes (slash dot)

namespace Path

/-! ## Components and places -/

theorem root_not_mem_filterMap (segments : List Bytes) :
    Component.root ∉ segments.filterMap Component.ofSegment? := by
  rw [filterMap_ofSegment?]
  intro h
  obtain ⟨piece, -, hpiece⟩ := List.mem_map.mp h
  unfold namedComponent at hpiece
  split at hpiece <;> cases hpiece

theorem root_mem_components_iff (p : Path) : .root ∈ p.components ↔ p.isAbsolute = true := by
  constructor
  · intro h
    by_contra hrelative
    rw [components] at h
    split at h
    · cases h
    · rw [if_neg hrelative] at h
      split at h
      · rcases List.mem_cons.mp h with h | h
        · cases h
        · exact root_not_mem_filterMap _ h
      · rename_i first rest _ _
        have hall := root_not_mem_filterMap (first :: rest)
        rw [List.filterMap_cons] at hall
        cases hfirst : Component.ofSegment? first with
        | none =>
            rw [hfirst] at h
            exact root_not_mem_filterMap _ h
        | some component =>
            rw [hfirst] at h hall
            exact hall h
  · intro h
    obtain ⟨rest, hsegments⟩ := splitOn_of_absolute h
    rw [components, hsegments]
    simp only [h, if_true]
    exact List.mem_cons_self

theorem join_of_empty {p : Path} (hp : p.raw = []) (q : Path) : p.join q = q := by
  rw [join, hp, List.isEmpty_nil, Bool.or_true, if_pos rfl]

theorem isAbsolute_join_eq (p q : Path) :
    (p.join q).isAbsolute = (q.isAbsolute || p.isAbsolute) := by
  cases hq : q.isAbsolute with
  | true => rw [join, hq, Bool.true_or, if_pos rfl, hq, Bool.true_or]
  | false =>
      obtain ⟨raw⟩ := p
      cases raw with
      | nil =>
          rw [join_of_empty rfl, hq]
          rfl
      | cons b raw =>
          rw [join, hq, Bool.false_or, Bool.false_or]
          split
          · rename_i hempty
            cases hempty
          · split <;> rfl

/-- A joined path leads where the second path leads from the end of the first. -/
theorem follow_join_eq (p q : Path) (here : Place) :
    (p.join q).follow here =
      if q.isAbsolute then q.follow here else q.follow (p.follow here) := by
  cases hq : q.isAbsolute with
  | true => rw [join, hq, Bool.true_or, if_pos rfl, if_pos rfl]
  | false =>
      rw [if_neg Bool.false_ne_true]
      by_cases hp : p.raw = []
      · have hstay : p.follow here = here := by
          rw [follow, segments, hp]
          rfl
        rw [join_of_empty hp, hstay]
      · exact follow_join hp hq here

/-! ## Spellings -/

/-- Between two slashes this is no step, or one into a name and back out of it. -/
inductive Idle : Bytes → Prop
  | nothing : Idle []
  | current : Idle [dot]
  | detour {name : Bytes} : name ≠ [] → name ≠ [dot] → name ≠ [dot, dot] → slash ∉ name →
      Idle (name ++ slash :: [dot, dot])

/-- Two paths of which one becomes the other by idle pieces that are put in or taken
out: behind a slash, at the end, or at the beginning of a relative path. -/
inductive Respelled : Path → Path → Prop
  | refl (p : Path) : Respelled p p
  | symm {p q : Path} : Respelled p q → Respelled q p
  | trans {p q r : Path} : Respelled p q → Respelled q r → Respelled p r
  | within {a b idle : Bytes} : Idle idle →
      Respelled ⟨a ++ slash :: b⟩ ⟨a ++ slash :: (idle ++ slash :: b)⟩
  | behind {p : Path} {idle : Bytes} : Idle idle → Respelled p (p.join ⟨idle⟩)
  | before {p : Path} {idle : Bytes} : p.isAbsolute = false → Idle idle →
      Respelled p ((Path.mk idle).join p)

theorem Idle.follow {idle : Bytes} (h : Idle idle) (here : Place) :
    (Path.mk idle).follow here = here := by
  cases h with
  | nothing => rfl
  | current => rfl
  | @detour name hempty hdot hparent hslash =>
      rw [Path.follow, segments, Text.splitOn_append, Text.splitOn_of_not_mem hslash,
        Text.splitOn_of_not_mem (by decide)]
      have hinto : here.enter name = here ++ [name] := by
        rw [Place.enter, if_neg (not_or.mpr ⟨hempty, hdot⟩), if_neg hparent]
      have hback : (here ++ [name]).enter [dot, dot] = here := by
        rw [Place.enter, if_neg (by decide), if_pos rfl, List.dropLast_concat]
      show (here.enter name).enter [dot, dot] = here
      rw [hinto, hback]

theorem Idle.relative {idle : Bytes} (h : Idle idle) : (Path.mk idle).isAbsolute = false := by
  cases h with
  | nothing => rfl
  | current => rfl
  | @detour name hempty _ _ hslash =>
      obtain ⟨b, name, rfl⟩ := List.exists_cons_of_ne_nil hempty
      have hb : b ≠ slash := (List.ne_and_not_mem_of_not_mem_cons hslash).1.symm
      simpa [isAbsolute] using hb

/-- Two spellings lead to the same place from everywhere. -/
theorem Respelled.spec {p q : Path} (h : p.Respelled q) :
    p.isAbsolute = q.isAbsolute ∧ ∀ here, p.follow here = q.follow here := by
  induction h with
  | refl p => exact ⟨rfl, fun _ => rfl⟩
  | symm _ ih => exact ⟨ih.1.symm, fun here => (ih.2 here).symm⟩
  | trans _ _ ih ih' => exact ⟨ih.1.trans ih'.1, fun here => (ih.2 here).trans (ih'.2 here)⟩
  | @within a b idle hidle =>
      refine ⟨?_, ?_⟩
      · cases a <;> rfl
      · intro here
        have hnowhere := hidle.follow ((Text.splitOn slash a).foldl Place.enter here)
        rw [follow, segments] at hnowhere
        rw [follow, follow, segments, segments, Text.splitOn_append, Text.splitOn_append,
          Text.splitOn_append, List.foldl_append, List.foldl_append, List.foldl_append, hnowhere]
  | @behind p idle hidle =>
      refine ⟨?_, ?_⟩
      · rw [isAbsolute_join_eq, hidle.relative, Bool.false_or]
      · intro here
        rw [follow_join_eq, hidle.relative, if_neg Bool.false_ne_true, hidle.follow]
  | @before p idle hp hidle =>
      refine ⟨?_, ?_⟩
      · rw [isAbsolute_join_eq, hp, hidle.relative, Bool.false_or]
      · intro here
        rw [follow_join_eq, hp, if_neg Bool.false_ne_true, hidle.follow]

theorem Respelled.resolve {p q : Path} (h : p.Respelled q) : p.resolve = q.resolve := by
  obtain ⟨habsolute, hfollow⟩ := h.spec
  have hnames : p.resolve.names = q.resolve.names := by
    rw [resolve_names, resolve_names, hfollow]
  show Resolved.mk p.isAbsolute p.resolve.names = Resolved.mk q.isAbsolute q.resolve.names
  rw [habsolute, hnames]

theorem Respelled.join {p q p' q' : Path} (hp : p.Respelled p') (hq : q.Respelled q') :
    (p.join q).resolve = (p'.join q').resolve := by
  have hnames : (p.join q).resolve.names = (p'.join q').resolve.names := by
    rw [resolve_names, resolve_names, follow_join_eq, follow_join_eq, hq.spec.1, hp.spec.2,
      hq.spec.2, hq.spec.2]
  have habsolute : (p.join q).isAbsolute = (p'.join q').isAbsolute := by
    rw [isAbsolute_join_eq, isAbsolute_join_eq, hp.spec.1, hq.spec.1]
  show Resolved.mk (p.join q).isAbsolute (p.join q).resolve.names =
    Resolved.mk (p'.join q').isAbsolute (p'.join q').resolve.names
  rw [habsolute, hnames]

end Path

/-! ## Units -/

namespace BuildUnit

/-- The place that a unit's file is at: where its path leads from the unit's directory.
A path that is relative all in all leads to no place in particular. -/
def place? (u : BuildUnit) : Option Place :=
  if u.file.isAbsolute then some (u.file.follow [])
  else if u.directory.isAbsolute then some (u.file.follow (u.directory.follow []))
  else none

structure Respelled (u u' : BuildUnit) : Prop where
  directory : u.directory.Respelled u'.directory
  file : u.file.Respelled u'.file

theorem Respelled.path_eq {u u' : BuildUnit} (h : u.Respelled u') : u'.path = u.path := by
  unfold path Path.normalize
  rw [h.directory.join h.file]

theorem map_path_of_respelled {units units' : List BuildUnit}
    (h : List.Forall₂ Respelled units units') : units'.map path = units.map path := by
  induction h with
  | nil => rfl
  | cons hunit _ ih => rw [List.map_cons, List.map_cons, hunit.path_eq, ih]

/-- The path of a unit spells out the place of its file. -/
theorem components_path_iff (u : BuildUnit) (place : Place) :
    u.path.components = .root :: place.map .name ↔ u.place? = some place := by
  have hplace : u.place? =
      if u.path.isAbsolute then some (u.path.follow []) else none := by
    have hfollow : u.path.follow [] = (u.directory.join u.file).follow [] := by
      rw [← Path.resolve_names, ← Path.resolve_names, path, Path.resolve_normalize]
    have habsolute : u.path.isAbsolute = (u.directory.join u.file).isAbsolute :=
      congrArg Path.Resolved.absolute (Path.resolve_normalize (u.directory.join u.file))
    rw [hfollow, habsolute, Path.isAbsolute_join_eq, Path.follow_join_eq, place?]
    cases u.file.isAbsolute <;> cases u.directory.isAbsolute <;> rfl
  rw [hplace]
  cases habsolute : u.path.isAbsolute with
  | false =>
      refine iff_of_false ?_ (by simp)
      intro h
      have hroot : .root ∈ u.path.components := by
        rw [h]
        exact List.mem_cons_self
      rw [(Path.root_mem_components_iff u.path).mp hroot] at habsolute
      cases habsolute
  | true =>
      have hforward := Path.forward_path (Path.proper_resolve (u.directory.join u.file))
      rw [Path.components_of_forward habsolute hforward, if_pos rfl, List.cons.injEq,
        Option.some.injEq, and_iff_right rfl]
      refine ⟨fun h => List.map_injective_iff.mpr ?_ h, fun h => by rw [h]⟩
      intro a b hab
      cases hab
      rfl

end BuildUnit

namespace CompilationDatabase

/-- A file name as the names of a commit are: one name behind the other, with single
slashes between them. -/
def Ordinary (name : String) : Prop :=
  Place.Proper (Path.ofText name).segments

theorem Ordinary.components {name : String} (h : Ordinary name) {root : Path}
    (hroot : root.isAbsolute = true) :
    (root.normalize.join (.ofText name)).components =
      .root :: (root.follow [] ++ (Path.ofText name).segments).map .name := by
  have hforward : [dot, dot] ∉ (Path.ofText name).segments := fun hmem => (h _ hmem).2.2.1 rfl
  have hrelative : (Path.ofText name).isAbsolute = false := by
    rw [Bool.eq_false_iff]
    intro habsolute
    obtain ⟨rest, hsegments⟩ := splitOn_of_absolute habsolute
    exact (h [] (hsegments ▸ List.mem_cons_self)).1 rfl
  have hfollow : (root.normalize.join (.ofText name)).follow [] =
      root.follow [] ++ (Path.ofText name).segments := by
    have hnormal : root.normalize.follow [] = root.follow [] := by
      rw [← Path.resolve_names, ← Path.resolve_names, Path.resolve_normalize]
    rw [Path.follow_join_eq, hrelative, if_neg Bool.false_ne_true, hnormal]
    exact Place.foldl_enter_of_proper h _
  rw [Path.components_of_forward
      (Path.isAbsolute_join (Path.isAbsolute_normalize hroot) _)
      (Path.forward_join (Path.forward_path root.proper_resolve) hforward),
    hfollow]

/-! ## What is missing -/

variable {root root' : Path}

/-- A database with all paths of another one is missing nothing that the other has. -/
theorem missing_sublist (db db' : CompilationDatabase) (names : List String)
    (hunits : ∀ u ∈ db.units, ∃ u' ∈ db'.units, u'.path = u.path)
    (hroot : root.resolve = root'.resolve) :
    (db'.missing root' names).Sublist (db.missing root names) := by
  have hnormal : root.normalize = root'.normalize := congrArg Path.Resolved.path hroot
  unfold missing
  rw [hnormal]
  apply List.monotone_filter_right
  intro name hname
  rw [Bool.not_eq_true', List.contains_eq_mem, decide_eq_false_iff_not] at hname ⊢
  intro hmem
  apply hname
  rw [paths, List.map_map] at hmem ⊢
  obtain ⟨u, hu, hcomponents⟩ := List.mem_map.mp hmem
  obtain ⟨u', hu', hpath⟩ := hunits u hu
  exact List.mem_map.mpr ⟨u', hu', by rw [← hcomponents]; exact congrArg Path.components hpath⟩

/-- A name is missing if no unit's file is at its place below the root; the order and
the number of the names stay. -/
theorem missing_eq (db : CompilationDatabase) (hroot : root.isAbsolute = true)
    {names : List String} (hnames : ∀ name ∈ names, Ordinary name) :
    db.missing root names = names.filter fun name =>
      ∀ u ∈ db.units, u.place? ≠ some (root.follow [] ++ (Path.ofText name).segments) := by
  unfold missing
  apply List.filter_congr
  intro name hname
  rw [Bool.eq_iff_iff, Bool.not_eq_true', List.contains_eq_mem, decide_eq_false_iff_not,
    decide_eq_true_eq, (hnames name hname).components hroot, paths, List.map_map]
  constructor
  · intro h u hu hplace
    exact h (List.mem_map.mpr ⟨u, hu, (u.components_path_iff _).mpr hplace⟩)
  · intro h hmem
    obtain ⟨u, hu, hcomponents⟩ := List.mem_map.mp hmem
    exact h u hu ((u.components_path_iff _).mp hcomponents)

/-- The names of files that are missing are exactly those whose place below the root is
the place of no unit's file, in their order and as often as they were asked for. Other
spellings of the units and of the root, and another order or number of the same units,
leave the answer as it is. With more units there are only fewer names in it. -/
theorem missing_compares_places (db : CompilationDatabase) (hroot : root.isAbsolute = true)
    {names : List String} (hnames : ∀ name ∈ names, Ordinary name) :
    (db.missing root names = names.filter fun name =>
      ∀ u ∈ db.units, u.place? ≠ some (root.follow [] ++ (Path.ofText name).segments)) ∧
    (∀ (db' : CompilationDatabase) (root' : Path),
      List.Forall₂ BuildUnit.Respelled db.units db'.units → root.Respelled root' →
        db'.missing root' names = db.missing root names) ∧
    (∀ db' : CompilationDatabase, (∀ u, u ∈ db'.units ↔ u ∈ db.units) →
      db'.missing root names = db.missing root names) ∧
    ∀ db' : CompilationDatabase, db.units ⊆ db'.units →
      (db'.missing root names).Sublist (db.missing root names) := by
  refine ⟨missing_eq db hroot hnames, ?_, ?_, ?_⟩
  · intro db' root' hunits hspelling
    have hpaths : db'.paths = db.paths := BuildUnit.map_path_of_respelled hunits
    unfold missing
    rw [hpaths, Path.normalize, ← hspelling.resolve]
    rfl
  · intro db' hsame
    have hfewer : (db'.missing root names).Sublist (db.missing root names) :=
      missing_sublist db db' names (fun u hu => ⟨u, (hsame u).mpr hu, rfl⟩) rfl
    have hmore : (db.missing root names).Sublist (db'.missing root names) :=
      missing_sublist db' db names (fun u hu => ⟨u, (hsame u).mp hu, rfl⟩) rfl
    exact hfewer.antisymm hmore
  · intro db' hsubset
    exact missing_sublist db db' names (fun u hu => ⟨u, hsubset hu, rfl⟩) rfl

/-! Two units, spelled with detours. One is seen from its directory, and the other is
not, whatever its directory. -/

def winding : CompilationDatabase where
  units := [⟨.ofText "/repo/./build/", .ofText "../src/x/..//a.cpp"⟩,
    ⟨.ofText "elsewhere", .ofText "/../repo/src/b.c"⟩, ⟨.ofText "repo", .ofText "src/a.hpp"⟩]

theorem missing_of_winding :
    winding.missing (.ofText "/repo/../repo/.") ["src/a.hpp", "src/a.cpp", "src/b.c", "src/a.hpp"] =
      ["src/a.hpp", "src/a.hpp"] := by
  have hnames : ∀ name ∈ ["src/a.hpp", "src/a.cpp", "src/b.c", "src/a.hpp"], Ordinary name := by
    unfold Ordinary Place.Proper
    decide
  rw [(missing_compares_places winding rfl hnames).1]
  decide

end CompilationDatabase

end LintRunner
