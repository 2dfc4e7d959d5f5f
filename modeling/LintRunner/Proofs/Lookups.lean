import LintRunner.Host.Launch
import LintRunner.Proofs.SearchLists
import LintRunner.Repository.Discovery
import Mathlib.Data.List.Find

/-!
# Lookups

A path is looked up one segment at a time, and a link on the way leads to another path.
What comes of it is decided by what stands at the places that are looked at: trees that
agree on those agree on the path. So do hosts that look for a repository, for a tool or
for a program to start. A search that ends early looks at a part of what is listed here.
-/

namespace LintRunner

open Bytes (slash dot)
open Checkout (gitName linkTarget?)

namespace FileTree

/-- The trees hold the same at each of the places. -/
def AgreeOn (files files' : FileTree) (places : List Place) : Prop :=
  ∀ place ∈ places, files'.node place = files.node place

theorem node_put_of_ne {files : FileTree} {place other : Place} (hne : other ≠ place)
    (node : Node) : (files.put place node).node other = files.node other :=
  if_neg (by simpa using hne)

/-! ## One segment -/

section

variable {files files' : FileTree} {follow follow' : Place → Path → Except SystemError Place}
  {behind : Place → Path → List Place} {here there : Place} {segment : Bytes}

/-- Where one segment leads. `follow` goes on behind a link. -/
def stepWith (files : FileTree) (follow : Place → Path → Except SystemError Place) (here : Place)
    (segment : Bytes) : Except SystemError Place :=
  match files.node here with
  | some .directory =>
    if segment.isEmpty || segment == [dot] then .ok here
    else if segment == [dot, dot] then .ok here.dropLast
    else if maxName < segment.length then .error .nameTooLong
    else
      match files.node (here ++ [segment]) with
      | none => .error .notFound
      | some (.link target) => follow here target
      | some _ => .ok (here ++ [segment])
  | _ => .error .notADirectory

theorem walkWith_cons (files : FileTree) (follow : Place → Path → Except SystemError Place)
    (here : Place) (segment : Bytes) (rest : List Bytes) :
    files.walkWith follow here (segment :: rest) =
      (files.stepWith follow here segment).bind fun there =>
        files.walkWith follow there rest := by
  rw [walkWith]
  unfold stepWith
  cases files.node here with
  | none => rfl
  | some node =>
      cases node with
      | file content executable | program executable program | link target => rfl
      | directory =>
          dsimp only
          split
          · rfl
          · split
            · rfl
            · split
              · rfl
              · cases files.node (here ++ [segment]) with
                | none => rfl
                | some node =>
                    cases node with
                    | link target =>
                        dsimp only
                        cases follow here target <;> rfl
                    | directory | file content executable | program executable program => rfl

theorem walkWith_append (front back : List Bytes) : ∀ here,
    files.walkWith follow here (front ++ back) =
      (files.walkWith follow here front).bind fun there => files.walkWith follow there back := by
  induction front with
  | nil =>
      intro here
      rfl
  | cons segment front ih =>
      intro here
      rw [List.cons_append, walkWith_cons, walkWith_cons]
      cases files.stepWith follow here segment with
      | error e => rfl
      | ok there => exact ih there

/-- The places that are looked at for one segment. `behind` lists those behind a link. -/
def placesOfStep (files : FileTree) (behind : Place → Path → List Place) (here : Place)
    (segment : Bytes) : List Place :=
  [here, here.enter segment] ++
    match files.node (here.enter segment) with
    | some (.link target) => behind here target
    | _ => []

theorem stepWith_congr
    (hfollow : ∀ target, files.AgreeOn files' (behind here target) →
      follow' here target = follow here target)
    (hagree : files.AgreeOn files' (files.placesOfStep behind here segment)) :
    files'.stepWith follow' here segment = files.stepWith follow here segment := by
  obtain ⟨hplaces, hbehind⟩ := List.forall_mem_append.mp hagree
  have hhere : files'.node here = files.node here := hplaces here List.mem_cons_self
  unfold stepWith
  rw [hhere]
  split
  · split
    · rfl
    · rename_i hmove
      split
      · rfl
      · rename_i hname
        have henter : here.enter segment = here ++ [segment] := by
          rw [Place.enter, if_neg (by simpa using hmove), if_neg (by simpa using hname)]
        rw [henter] at hplaces hbehind
        have hplace : files'.node (here ++ [segment]) = files.node (here ++ [segment]) :=
          hplaces _ (List.mem_cons_of_mem _ List.mem_cons_self)
        rw [hplace]
        split
        · rfl
        · cases hnode : files.node (here ++ [segment]) with
          | none => rfl
          | some node =>
              cases node with
              | link target =>
                  rw [hnode] at hbehind
                  exact hfollow target hbehind
              | directory | file content executable | program executable program => rfl
  · rfl

end

/-! ## One path -/

/-- The places that are looked at along the segments. -/
def placesAlong (files : FileTree) (follow : Place → Path → Except SystemError Place)
    (behind : Place → Path → List Place) (here : Place) : List Bytes → List Place
  | [] => []
  | segment :: rest =>
    files.placesOfStep behind here segment ++
      match files.stepWith follow here segment with
      | .ok there => placesAlong files follow behind there rest
      | .error _ => []

/-- The places that are looked at toward the end of a path. -/
def placesToward (files : FileTree) : Nat → Place → Path → List Place
  | 0, _, _ => []
  | links + 1, here, path =>
    files.placesAlong (files.walk links) (files.placesToward links)
      (if path.isAbsolute then [] else here) path.segments

/-- The places that are looked at for what stands at a path: those on the way, and the
one that the path leads to. -/
def looksAt (files : FileTree) (cwd : Place) (path : Path) : List Place :=
  files.placesToward (maxLinks + 1) cwd path ++ (files.resolve cwd path).toOption.toList

variable {files files' : FileTree} {cwd : Place} {path : Path}

theorem walkWith_congr {follow follow' : Place → Path → Except SystemError Place}
    {behind : Place → Path → List Place}
    (hfollow : ∀ here target, files.AgreeOn files' (behind here target) →
      follow' here target = follow here target) (segments : List Bytes) :
    ∀ here, files.AgreeOn files' (files.placesAlong follow behind here segments) →
      files'.walkWith follow' here segments = files.walkWith follow here segments := by
  induction segments with
  | nil =>
      intro here _
      rfl
  | cons segment rest ih =>
      intro here hagree
      obtain ⟨hstep, hrest⟩ := List.forall_mem_append.mp hagree
      rw [walkWith_cons, walkWith_cons, stepWith_congr (hfollow here) hstep]
      cases hthere : files.stepWith follow here segment with
      | error e => rfl
      | ok there =>
          rw [hthere] at hrest
          exact ih there hrest

theorem walk_congr (links : Nat) : ∀ here path,
    files.AgreeOn files' (files.placesToward links here path) →
      files'.walk links here path = files.walk links here path := by
  -- behind a link the way goes on with one link less
  induction links with
  | zero =>
      intro here path _
      rfl
  | succ links ih =>
      intro here path hagree
      unfold walk
      split
      · rfl
      · split
        · rfl
        · exact walkWith_congr ih path.segments _ hagree

section

variable (hagree : files.AgreeOn files' (files.looksAt cwd path))

include hagree

theorem resolve_congr : files'.resolve cwd path = files.resolve cwd path :=
  walk_congr _ cwd path (List.forall_mem_append.mp hagree).1

theorem node_congr {place : Place} (hplace : files.resolve cwd path = .ok place) :
    files'.node place = files.node place := by
  apply hagree
  rw [looksAt, hplace]
  exact List.mem_append_right _ (List.mem_singleton_self place)

theorem nodeAt_congr : files'.nodeAt cwd path = files.nodeAt cwd path := by
  unfold nodeAt
  rw [resolve_congr hagree]
  cases hplace : files.resolve cwd path with
  | error e => rfl
  | ok place =>
      dsimp only [bind, Except.bind]
      rw [node_congr hagree hplace]

theorem readText_congr : files'.readText cwd path = files.readText cwd path := by
  unfold readText read
  rw [nodeAt_congr hagree]

theorem isExecutable_congr : files'.isExecutable cwd path = files.isExecutable cwd path := by
  unfold isExecutable
  rw [nodeAt_congr hagree]

end

/-! ## Paths without a step back

A path is made absolute by its letters, before any directory is looked at. Behind a link
that may lead elsewhere: `..` takes back the name of the link, and not the way the link
goes. Without `..` the letters and the directories agree. -/

section

variable {follow : Place → Path → Except SystemError Place} {here there : Place}

theorem stepWith_of_not_component {segment : Bytes} (hstay : isComponent segment = false)
    (hthere : files.stepWith follow here segment = .ok there) : there = here := by
  unfold stepWith at hthere
  split at hthere
  · rw [if_pos (by simpa [isComponent, imp_iff_not_or] using hstay)] at hthere
    exact (Except.ok.inj hthere).symm
  · cases hthere

/-- What is no step can be left out of a way that comes to its end. -/
theorem walkWith_filter {segments : List Bytes} : ∀ {here},
    files.walkWith follow here segments = .ok there →
      files.walkWith follow here (segments.filter isComponent) = .ok there := by
  induction segments with
  | nil =>
      intro here hwalk
      exact hwalk
  | cons segment rest ih =>
      intro here hwalk
      rw [walkWith_cons] at hwalk
      cases hstep : files.stepWith follow here segment with
      | error e =>
          rw [hstep] at hwalk
          cases hwalk
      | ok next =>
          rw [hstep] at hwalk
          rw [List.filter_cons]
          cases hcomponent : isComponent segment with
          | true =>
              rw [if_pos rfl, walkWith_cons, hstep]
              exact ih hwalk
          | false =>
              obtain rfl := stepWith_of_not_component hcomponent hstep
              exact ih hwalk

end

theorem resolve_of_isExecutable (hexecutable : files.isExecutable cwd path = true) :
    ∃ there, files.resolve cwd path = .ok there := by
  cases hresolve : files.resolve cwd path with
  | ok there => exact ⟨there, rfl⟩
  | error e =>
      unfold isExecutable nodeAt at hexecutable
      rw [hresolve, Bool.and_eq_true] at hexecutable
      exact absurd hexecutable.2 Bool.false_ne_true

/-- The names of a proper place are walked from the root. -/
theorem resolve_place {place : Place} (hplace : place.Proper)
    (hroot : files.node [] = some .directory) (hlength : place.path.raw.length ≤ maxPath)
    (here : Place) :
    files.resolve here place.path = files.walkWith (files.walk maxLinks) [] place := by
  have hstay : files.stepWith (files.walk maxLinks) [] [] = .ok [] := by
    unfold stepWith
    rw [hroot]
    rfl
  have hsegments : place.path.segments = [] :: if place = [] then [[]] else place :=
    Path.segments_path (r := ⟨true, place⟩) hplace
  have habsolute : place.path.isAbsolute = true := Path.isAbsolute_cwd place
  unfold resolve walk
  rw [if_neg (by simp [Place.path, Path.Resolved.path]), if_neg (Nat.not_lt.mpr hlength),
    if_pos habsolute, hsegments, walkWith_cons, hstay]
  show files.walkWith (files.walk maxLinks) [] (if place = [] then [[]] else place) = _
  split
  · rename_i hempty
    rw [hempty, walkWith_cons, hstay]
    rfl
  · rfl

/-- The place stands where its path leads. -/
structure Stands (files : FileTree) (place : Place) : Prop where
  root : files.node [] = some .directory
  proper : place.Proper
  reached : files.resolve [] place.path = .ok place
  short : place.path.raw.length ≤ maxPath

theorem resolve_absolutize {p : Path} {there : Place} (hcwd : files.Stands cwd)
    (hforward : [dot, dot] ∉ p.segments)
    (hlength : (p.absolutize cwd.path).raw.length ≤ maxPath)
    (hp : files.resolve cwd p = .ok there) :
    files.resolve cwd (p.absolutize cwd.path) = .ok there := by
  cases habsolute : p.isAbsolute with
  | true => rwa [Path.absolutize, if_pos habsolute]
  | false =>
      have hseen : p.seenFrom cwd = cwd ++ p.segments.filter isComponent := by
        have hfrom : cwd.path.follow [] = cwd := Path.follow_path (r := ⟨true, cwd⟩) hcwd.proper []
        rw [Path.seenFrom, hfrom, Path.follow, Place.foldl_enter_of_forward hforward]
      have hproper : Place.Proper (p.seenFrom cwd) := by
        rw [Path.seenFrom]
        exact Path.proper_follow _ (Path.proper_follow _ Place.proper_nil)
      have habove : files.walkWith (files.walk maxLinks) [] cwd = .ok cwd := by
        rw [← resolve_place hcwd.proper hcwd.root hcwd.short []]
        exact hcwd.reached
      have hbelow : files.walkWith (files.walk maxLinks) cwd p.segments = .ok there := by
        unfold resolve walk at hp
        split at hp
        · cases hp
        · split at hp
          · cases hp
          · rwa [if_neg (by rw [habsolute]; decide)] at hp
      rw [Path.absolutize_of_relative habsolute] at hlength ⊢
      rw [resolve_place hproper hcwd.root hlength, hseen, walkWith_append, habove]
      exact walkWith_filter hbelow

end FileTree

namespace Host

variable {h : Host} {files : FileTree} {stepDebug : Option String}

/-- The same machine with other files, and another word about debugging. -/
def withFiles (h : Host) (files : FileTree) (stepDebug : Option String) : Host :=
  { h with files, stepDebug }

@[simp] theorem withFiles_files : (h.withFiles files stepDebug).files = files := rfl

@[simp] theorem withFiles_cwd : (h.withFiles files stepDebug).cwd = h.cwd := rfl

/-! ## The repository -/

/-- The places that are looked at for a repository, or a link to one, at a place. -/
def looksForCheckout (h : Host) (place : Place) : List Place :=
  place ::
    match h.files.node place with
    | some (.file content _) =>
      match linkTarget? content with
      | some target => h.files.looksAt [] ((Place.path place.dropLast).join target)
      | none => []
    | _ => []

/-- The places that are looked at in a place and in those around it. The names of the
place stand innermost first. -/
def looksOutward (h : Host) : List Bytes → List Place
  | [] => h.looksForCheckout [gitName] ++ h.looksForCheckout []
  | name :: outer =>
    h.looksForCheckout ((name :: outer).reverse ++ [gitName]) ++
      h.looksForCheckout (name :: outer).reverse ++ looksOutward h outer

/-- The places that are looked at for the repository around a path. -/
def looksForRepository (h : Host) (start : Path) : List Place :=
  h.files.looksAt h.cwd start ++
    match h.files.resolve h.cwd start with
    | .ok place => h.looksOutward place.reverse
    | .error _ => []

theorem checkoutAt_congr {place : Place}
    (hagree : h.files.AgreeOn files (h.looksForCheckout place)) :
    (h.withFiles files stepDebug).checkoutAt place = h.checkoutAt place := by
  obtain ⟨hplace, hlink⟩ := List.forall_mem_cons.mp hagree
  unfold checkoutAt
  rw [withFiles_files, hplace]
  split
  · rfl
  · rename_i content executable hfile
    rw [hfile] at hlink
    dsimp only at hlink
    split
    · unfold followLink
      cases htarget : linkTarget? content with
      | none => rfl
      | some target =>
          rw [htarget] at hlink
          dsimp only
          rw [withFiles_files, FileTree.resolve_congr hlink]
          rfl
    · rfl
  · rfl

theorem checkoutIn_congr {place : Place}
    (hagree : h.files.AgreeOn files
      (h.looksForCheckout (place ++ [gitName]) ++ h.looksForCheckout place)) :
    (h.withFiles files stepDebug).checkoutIn place = h.checkoutIn place := by
  obtain ⟨hinside, hitself⟩ := List.forall_mem_append.mp hagree
  unfold checkoutIn
  rw [checkoutAt_congr hinside, checkoutAt_congr hitself]

theorem discoverFrom_congr (names : List Bytes) :
    h.files.AgreeOn files (h.looksOutward names) →
      (h.withFiles files stepDebug).discoverFrom names = h.discoverFrom names := by
  induction names with
  | nil =>
      intro hagree
      exact checkoutIn_congr hagree
  | cons name outer ih =>
      intro hagree
      obtain ⟨hhere, houter⟩ := List.forall_mem_append.mp hagree
      unfold discoverFrom
      rw [checkoutIn_congr hhere, ih houter]

theorem discover_congr {start : Path}
    (hagree : h.files.AgreeOn files (h.looksForRepository start)) :
    (h.withFiles files stepDebug).discover start = h.discover start := by
  obtain ⟨hstart, houtward⟩ := List.forall_mem_append.mp hagree
  unfold discover
  rw [withFiles_files, withFiles_cwd, FileTree.resolve_congr hstart]
  split
  · rfl
  · cases hplace : h.files.resolve h.cwd start with
    | error e => rfl
    | ok place =>
        rw [hplace] at houtward
        dsimp only
        rw [discoverFrom_congr place.reverse houtward]

/-! ## Tools -/

/-- The places that are looked at for a tool, under all of its names. -/
def looksForTool (h : Host) (name version : String) : List Place :=
  (toolNames name version).flatMap fun tool =>
    (h.candidates (.ofText tool) (h.searchList version)).flatMap (h.files.looksAt h.cwd)

theorem findTool_withFiles {name version : String} (hname : BareName name)
    (hagree : h.files.AgreeOn files (h.looksForTool name version)) :
    (h.withFiles files stepDebug).findTool name version = h.findTool name version := by
  apply findTool_congr
  intro tool htool
  have hslash := (bareName_of_mem_toolNames hname htool).slash_not_mem
  rw [find?_eq hslash, find?_eq hslash]
  apply List.find?_congr
  intro path hpath
  apply FileTree.isExecutable_congr
  intro place hplace
  have htoolPlace := List.mem_flatMap.mpr ⟨path, hpath, hplace⟩
  exact hagree place (List.mem_flatMap.mpr ⟨tool, htool, htoolPlace⟩)

/-! ## Programs to start -/

/-- The places that are looked at for a program, from the directory it starts in. -/
def looksForProgram (h : Host) (cwd : Place) (name : Path) : List Place :=
  if name.raw.contains slash then h.files.looksAt cwd name
  else
    (Text.splitOn colon (h.searchPath.getD defaultSearchPath)).flatMap fun dir =>
      h.files.looksAt cwd ((Path.mk dir).join name)

/-- The places that are looked at to launch a command: those for its directory, and
those for its program. -/
def looksForLaunch (h : Host) (c : Command) : List Place :=
  h.files.looksAt h.cwd c.dir ++
    match h.directoryAt c.dir with
    | .ok cwd => h.looksForProgram cwd (.ofText c.program)
    | .error _ => []

theorem programAt_congr {cwd : Place} {path : Path}
    (hagree : h.files.AgreeOn files (h.files.looksAt cwd path)) :
    (h.withFiles files stepDebug).programAt cwd path = h.programAt cwd path := by
  unfold programAt
  rw [withFiles_files, FileTree.nodeAt_congr hagree]

theorem firstProgram_congr {cwd : Place} (paths : List Path) :
    h.files.AgreeOn files (paths.flatMap (h.files.looksAt cwd)) → ∀ kept,
      (h.withFiles files stepDebug).firstProgram cwd kept paths =
        h.firstProgram cwd kept paths := by
  induction paths with
  | nil =>
      intro _ kept
      rfl
  | cons path paths ih =>
      intro hagree kept
      rw [List.flatMap_cons] at hagree
      obtain ⟨hpath, hpaths⟩ := List.forall_mem_append.mp hagree
      unfold firstProgram
      rw [programAt_congr hpath]
      simp only [ih hpaths]

theorem findProgram_congr {cwd : Place} {name : Path}
    (hagree : h.files.AgreeOn files (h.looksForProgram cwd name)) :
    (h.withFiles files stepDebug).findProgram cwd name = h.findProgram cwd name := by
  unfold looksForProgram at hagree
  unfold findProgram
  split
  · rfl
  · split
    · rename_i hslash
      rw [if_pos hslash] at hagree
      exact programAt_congr hagree
    · rename_i hslash
      rw [if_neg hslash] at hagree
      split
      · rfl
      · apply firstProgram_congr
        rwa [List.flatMap_map]

theorem directoryAt_congr {dir : Path}
    (hagree : h.files.AgreeOn files (h.files.looksAt h.cwd dir)) :
    (h.withFiles files stepDebug).directoryAt dir = h.directoryAt dir := by
  unfold directoryAt
  rw [withFiles_files, withFiles_cwd, FileTree.resolve_congr hagree]
  cases hplace : h.files.resolve h.cwd dir with
  | error e => rfl
  | ok place =>
      dsimp only [bind, Except.bind]
      rw [FileTree.node_congr hagree hplace]

theorem launch_congr {c : Command} (hagree : h.files.AgreeOn files (h.looksForLaunch c)) :
    (h.withFiles files stepDebug).launch c = h.launch c := by
  obtain ⟨hdir, hprogram⟩ := List.forall_mem_append.mp hagree
  unfold launch
  split
  · rfl
  · rw [directoryAt_congr hdir]
    cases hplace : h.directoryAt c.dir with
    | error e => rfl
    | ok cwd =>
        rw [hplace] at hprogram
        dsimp only [bind, Except.bind]
        rw [findProgram_congr hprogram]

end Host

end LintRunner
