import LintRunner.Proofs.Arguments
import LintRunner.Proofs.ExitCode
import LintRunner.Proofs.SearchLists
import Mathlib.Data.List.Find

/-!
# Runs from other directories

A caller may stand anywhere. Two callers who find the same repository, and whose
relative paths lead to the same places by their letters, start the same command:
each path that a caller gives is made absolute before anything is done with it,
and what is read or started behind that is named from the root.
-/

namespace LintRunner

namespace Job

variable {α β : Type}

theorem result_bind (job : Job α) (f : α → Job β) :
    (job >>= f).result = job.result.bind fun a => (f a).result := by
  show (Job.bind job f).result = _
  unfold Job.bind
  cases job.result <;> rfl

theorem bind_congr {job : Job α} {f g : α → Job β} (hfg : ∀ a, f a = g a) :
    job >>= f = job >>= g :=
  congrArg (job >>= ·) (funext hfg)

/-- What holds of every value that the last part can give holds of the whole. -/
theorem forall_result_bind {p : β → Prop} {job : Job α} {f : α → Job β}
    (hf : ∀ a b, (f a).result = .ok b → p b) : ∀ b, (job >>= f).result = .ok b → p b := by
  intro b hb
  rw [result_bind] at hb
  obtain ⟨a, -, ha⟩ := ok_of_bind hb
  exact hf a b ha

end Job

/-! ## Two callers -/

/-- The paths stand for the same one: they are one absolute path, or both are
relative and lead to the same place, each from its own directory. -/
def SamePath (cwd cwd' : Place) (p p' : Path) : Prop :=
  (p = p' ∧ p.isAbsolute = true) ∨
    (p.isAbsolute = false ∧ p'.isAbsolute = false ∧ p.seenFrom cwd = p'.seenFrom cwd')

/-- The tools are one bare name, or paths that stand for the same one. -/
def SameTool (cwd cwd' : Place) (tool tool' : String) : Prop :=
  (tool = tool' ∧ '/' ∉ tool.toList) ∨
    ('/' ∈ tool.toList ∧ '/' ∈ tool'.toList ∧
      SamePath cwd cwd' (.ofText tool) (.ofText tool'))

/-- Options of two callers that differ in the spelling of paths at most. -/
structure Alike (cwd cwd' : Place) (o o' : Options) : Prop where
  buildPath : Option.Rel (SamePath cwd cwd') o.buildPath o'.buildPath
  exportFixes : Option.Rel (fun path path' => SamePath cwd cwd' (.ofText path) (.ofText path'))
    o.exportFixes o'.exportFixes
  orchestrator : SameTool cwd cwd' o.orchestrator o'.orchestrator
  linter : SameTool cwd cwd' o.linter o'.linter
  others : ∀ opt ∉ [.buildPath, .exportFixes, .orchestrator, .linter], Options.Agree o o' opt

/-- A list of directories that are all given from the root. An empty list is none: its
only entry is the directory of the caller. -/
def AbsoluteDirs (dirs : Bytes) : Prop :=
  ∀ dir ∈ Text.splitOn Host.colon dirs, (Path.mk dir).isAbsolute = true

theorem SamePath.absolutize {cwd cwd' : Place} {p p' : Path} (h : SamePath cwd cwd' p p') :
    p'.absolutize cwd'.path = p.absolutize cwd.path := by
  rcases h with ⟨rfl, habsolute⟩ | ⟨hp, hp', hsame⟩
  · unfold Path.absolutize
    rw [if_pos habsolute, if_pos habsolute]
  · rw [Path.absolutize_of_relative hp, Path.absolutize_of_relative hp', hsame]

/-- A tool that is named from the root is the same for every caller. -/
theorem SameTool.of_rooted {tool : String} (h : Rooted tool) (cwd cwd' : Place) :
    SameTool cwd cwd' tool tool := by
  have hslash : '/' ∈ tool.toList := List.mem_of_head? h
  exact Or.inr ⟨hslash, hslash, Or.inl ⟨rfl, Path.isAbsolute_ofText h⟩⟩

namespace Host

variable {h : Host} {cwd' : Place}

/-- The same machine, with the caller somewhere else. -/
def calledFrom (h : Host) (cwd : Place) : Host :=
  { h with cwd }

/-! ## Tools -/

section

variable {dirs : Option Bytes} (hdirs : ∀ list, dirs = some list → AbsoluteDirs list)

include hdirs

theorem isAbsolute_of_mem_directories : ∀ dir ∈ h.directories dirs, dir.isAbsolute = true := by
  intro dir hdir
  cases dirs with
  | none => cases hdir
  | some list =>
      obtain ⟨entry, hentry, rfl⟩ := List.mem_map.mp hdir
      have habsolute := hdirs list rfl entry hentry
      have hhome : h.expandHome ⟨entry⟩ = ⟨entry⟩ := by
        obtain ⟨rest, hrest⟩ := splitOn_of_absolute habsolute
        unfold expandHome Path.components
        rw [hrest]
        simp only [habsolute, if_true]
      rwa [hhome]

/-- In directories given from the root, every caller finds the same. -/
theorem find?_calledFrom {name : String} (hname : BareName name) :
    (h.calledFrom cwd').find? (.ofText name) dirs = h.find? (.ofText name) dirs := by
  rw [find?_eq hname.slash_not_mem, find?_eq hname.slash_not_mem]
  apply List.find?_congr
  intro path hpath
  obtain ⟨dir, hdir, rfl⟩ := List.mem_map.mp hpath
  have habsolute := isAbsolute_of_mem_directories hdirs dir hdir
  exact FileTree.isExecutable_of_absolute h.files (Path.isAbsolute_join habsolute _) _ _

end

section

variable {name version : String} (hname : BareName name)
  (hsearch : ∀ dirs, h.searchPath = some dirs → AbsoluteDirs dirs)
  (hversion : version ≠ "" → Version.major? version = none → AbsoluteDirs (Bytes.ofText version))

include hsearch hversion

theorem absoluteDirs_of_searchList :
    ∀ list, h.searchList version = some list → AbsoluteDirs list := by
  unfold searchList
  split
  · exact hsearch
  · rename_i hlisted
    obtain ⟨hempty, hmajor⟩ := not_or.mp (mt Bool.or_eq_true_iff.mpr hlisted)
    rintro list ⟨⟩
    exact hversion (by simpa using hempty) (by simpa using hmajor)

include hname

theorem findTool_calledFrom :
    (h.calledFrom cwd').findTool name version = h.findTool name version := by
  apply findTool_congr
  intro tool htool
  exact find?_calledFrom (absoluteDirs_of_searchList hsearch hversion)
    (bareName_of_mem_toolNames hname htool)

theorem isAbsolute_of_findTool {path : Path} (hpath : h.findTool name version = .ok path) :
    path.isAbsolute = true := by
  obtain ⟨dir, hdir, tool, -, rfl, -⟩ := findTool_spec hname hpath
  have hdirs := absoluteDirs_of_searchList hsearch hversion
  exact Path.isAbsolute_join (isAbsolute_of_mem_directories hdirs dir hdir) _

/-- A tool that both callers name alike is resolved alike: a path is taken as it
is, and what is found for a bare name is named from the root. -/
theorem resolveTool_calledFrom {tool tool' : String} (htool : SameTool h.cwd cwd' tool tool') :
    SameTool h.cwd cwd' (h.resolveTool tool name version).1
      ((h.calledFrom cwd').resolveTool tool' name version).1 := by
  unfold resolveTool
  rw [findTool_calledFrom hname hsearch hversion]
  have hgiven : ∀ tool : String, '/' ∈ tool.toList → (tool != name) = true := by
    intro tool hslash
    rw [bne_iff_ne]
    rintro rfl
    exact hname.slash_not_mem hslash
  rcases htool with ⟨rfl, hbare⟩ | ⟨hslash, hslash', hsame⟩
  · split
    · exact Or.inl ⟨rfl, hbare⟩
    · -- the name is looked for, and stays bare if nothing is found
      split
      · rename_i path hpath
        have habsolute := isAbsolute_of_findTool hname hsearch hversion hpath
        exact SameTool.of_rooted (Path.rooted_display habsolute) _ _
      · exact Or.inl ⟨rfl, hbare⟩
  · rw [if_pos (hgiven tool hslash), if_pos (hgiven tool' hslash')]
    exact Or.inr ⟨hslash, hslash', hsame⟩

end

theorem absolutizeProgram_calledFrom {tool tool' : String}
    (htool : SameTool h.cwd cwd' tool tool') :
    (h.calledFrom cwd').absolutizeProgram tool' = h.absolutizeProgram tool := by
  unfold absolutizeProgram
  rcases htool with ⟨rfl, hbare⟩ | ⟨hslash, hslash', hsame⟩
  · rw [if_neg (by simpa using hbare), if_neg (by simpa using hbare)]
  · rw [if_pos (by simpa using hslash'), if_pos (by simpa using hslash)]
    exact congrArg Path.display hsame.absolutize

/-- The program to start is a bare name, or named from the root. -/
theorem rooted_absolutizeProgram {tool : String}
    (hslash : '/' ∈ (h.absolutizeProgram tool).toList) : Rooted (h.absolutizeProgram tool) := by
  unfold absolutizeProgram at hslash ⊢
  split
  · exact Path.rooted_display (Path.isAbsolute_absolutize _ _)
  · rename_i hbare
    rw [if_neg hbare] at hslash
    exact absurd hslash (by simpa using hbare)

/-! ## The selection -/

theorem readIgnoreList_calledFrom {path : Path} (hpath : path.isAbsolute = true) :
    (h.calledFrom cwd').readIgnoreList path = h.readIgnoreList path := by
  unfold readIgnoreList
  have hread : (h.calledFrom cwd').files.readText (h.calledFrom cwd').cwd path =
      h.files.readText h.cwd path := FileTree.readText_of_absolute h.files hpath _ _
  rw [hread]

theorem isAbsolute_workTree {checkout : Checkout} {root : Path}
    (hroot : checkout.workTree? = some root) : root.normalize.isAbsolute = true := by
  unfold Checkout.workTree? at hroot
  split at hroot
  · cases hroot
  · cases hroot
    exact Path.isAbsolute_normalize (Path.isAbsolute_join (Path.isAbsolute_cwd _) _)

theorem isAbsolute_root {o : Options} :
    ∀ s : Selection, (h.select o).result = .ok s → s.root.isAbsolute = true := by
  unfold select
  refine Job.forall_result_bind fun _ => ?_
  refine Job.forall_result_bind fun checkout => ?_
  split
  · intro s hs
    cases hs
  · rename_i root hroot
    -- whatever is read and said from here on, the root stays
    repeat refine Job.forall_result_bind fun _ => ?_
    intro s hs
    cases hs
    exact isAbsolute_workTree hroot

/-- Callers who find the same repository select the same of it. -/
theorem select_calledFrom {o o' : Options} {checkout : Checkout}
    (hdiscover : h.discover (o.repoRoot.absolutize h.cwdPath) = .ok checkout)
    (hdiscover' : (h.calledFrom cwd').discover (o'.repoRoot.absolutize cwd'.path) = .ok checkout)
    (hignore : o'.ignoreFile = o.ignoreFile) :
    (h.calledFrom cwd').select o' = h.select o := by
  have hcwd : (h.calledFrom cwd').cwdPath = cwd'.path := rfl
  unfold select
  rw [hdiscover, hcwd, hdiscover', hignore]
  refine Job.bind_congr fun _ => ?_
  refine Job.bind_congr fun found => ?_
  cases hroot : found.workTree? with
  | none => rfl
  | some root =>
      have hread : (h.calledFrom cwd').readIgnoreList (root.normalize.join (.ofText o.ignoreFile)) =
          h.readIgnoreList (root.normalize.join (.ofText o.ignoreFile)) :=
        readIgnoreList_calledFrom (Path.isAbsolute_join (isAbsolute_workTree hroot) _)
      simp only [hread]

/-! ## The command -/

/-- What is prepared are the words of the command, and its directory. -/
theorem result_prepare (t : Log.Threshold) (o : Options) :
    (h.prepare t o).result =
      (h.select o).result.map fun s => (h.vector o s.root s.files, s.root) := by
  cases hresult : (h.select o).result with
  | error e =>
      unfold prepare
      rw [Job.result_bind, hresult]
      rfl
  | ok s =>
      have hselect : Job.Gives AsksVersion (h.select o) s (printed (h.select o).events) := by
        refine ⟨hresult, rfl, ?_⟩
        rw [starts_select]
        intro c hc
        cases hc
      exact (prepare_gives t hselect).result

/-- The words of a command that lints a selection, and names all that is named
by a path from the root; only the files are named from its directory. -/
structure FromRoot (o : Options) (s : Selection) (words : List String) : Prop where
  directory : s.root.isAbsolute = true
  layout : ∃ (orchestrator build linter : String) (fixes : Option String),
    words = [orchestrator, "-p", build, "-clang-tidy", linter] ++
        (o.jobs.elim [] fun n => ["-j", toString n.toNat]) ++
        (fixes.elim [] fun path => ["-export-fixes", path]) ++
        (if o.fix then ["-fix", "-format"] else []) ++ s.files ∧
      (fixes.isSome ↔ o.exportFixes.isSome) ∧
      Rooted build ∧ (∀ path ∈ fixes, Rooted path) ∧
      ∀ tool ∈ [orchestrator, linter], '/' ∈ tool.toList → Rooted tool

theorem isAbsolute_buildPath {root : Path} (hroot : root.isAbsolute = true) (o : Options) :
    (h.buildPath o root).isAbsolute = true := by
  unfold buildPath
  split
  · exact Path.isAbsolute_absolutize _ _
  · exact Path.isAbsolute_join hroot _

theorem fromRoot_vector {s : Selection} (hroot : s.root.isAbsolute = true) (o : Options) :
    FromRoot o s (h.vector o s.root s.files) := by
  refine ⟨hroot, (h.program o o.orchestrator defaultOrchestrator).1,
    (h.buildPath o s.root).display, (h.program o o.linter defaultLinter).1,
    o.exportFixes.map fun path => ((Path.ofText path).absolutize h.cwdPath).display,
    ?_, ?_, ?_, ?_, ?_⟩
  · unfold vector
    cases o.exportFixes <;> rfl
  · rw [Option.isSome_map]
  · exact Path.rooted_display (isAbsolute_buildPath hroot o)
  · intro path hpath
    obtain ⟨given, -, rfl⟩ := Option.map_eq_some_iff.mp hpath
    exact Path.rooted_display (Path.isAbsolute_absolutize _ _)
  · intro tool htool hslash
    rcases List.mem_pair.mp htool with rfl | rfl
    · exact rooted_absolutizeProgram hslash
    · exact rooted_absolutizeProgram hslash

section

variable {o o' : Options} (halike : Alike h.cwd cwd' o o')

include halike

theorem buildPath_calledFrom (root : Path) :
    (h.calledFrom cwd').buildPath o' root = h.buildPath o root := by
  have hrel := halike.buildPath
  unfold buildPath
  generalize o.buildPath = path, o'.buildPath = path' at hrel ⊢
  cases hrel with
  | none => rfl
  | some hsame => exact hsame.absolutize

theorem vector_calledFrom
    (hsearch : ∀ dirs, h.searchPath = some dirs → AbsoluteDirs dirs)
    (hversion : o.clangVersion ≠ "" → Version.major? o.clangVersion = none →
      AbsoluteDirs (Bytes.ofText o.clangVersion))
    (root : Path) (files : List String) :
    (h.calledFrom cwd').vector o' root files = h.vector o root files := by
  have hprogram : ∀ {tool tool' name : String}, BareName name → SameTool h.cwd cwd' tool tool' →
      ((h.calledFrom cwd').program o' tool' name).1 = (h.program o tool name).1 := by
    intro tool tool' name hname htool
    have hsame : o'.clangVersion = o.clangVersion := (halike.others .clangVersion (by decide)).symm
    unfold program
    rw [hsame]
    exact absolutizeProgram_calledFrom (resolveTool_calledFrom hname hsearch hversion htool)
  have hjobs : o'.jobs = o.jobs := (halike.others .jobs (by decide)).symm
  have hfix : o'.fix = o.fix := (halike.others .fix (by decide)).symm
  have hfixes : (o'.exportFixes.elim [] fun path =>
        ["-export-fixes", ((Path.ofText path).absolutize (h.calledFrom cwd').cwdPath).display]) =
      o.exportFixes.elim [] fun path =>
        ["-export-fixes", ((Path.ofText path).absolutize h.cwdPath).display] := by
    have hrel := halike.exportFixes
    generalize o.exportFixes = path, o'.exportFixes = path' at hrel ⊢
    cases hrel with
    | none => rfl
    | some hsame =>
        exact congrArg (fun path => ["-export-fixes", Path.display path]) hsame.absolutize
  unfold vector
  rw [hprogram (bareName_of_all rfl) halike.orchestrator,
    hprogram (bareName_of_all rfl) halike.linter, buildPath_calledFrom halike root, hfixes, hjobs,
    hfix]

end

/-! ## Starting it -/

theorem firstProgram_calledFrom (cwd : Place) (paths : List Path) : ∀ kept : SystemError,
    (h.calledFrom cwd').firstProgram cwd kept paths = h.firstProgram cwd kept paths := by
  induction paths with
  | nil =>
      intro kept
      rfl
  | cons path paths ih =>
      intro kept
      have hat : (h.calledFrom cwd').programAt cwd path = h.programAt cwd path := rfl
      simp only [firstProgram, hat, ih]

theorem findProgram_calledFrom (cwd : Place) (name : Path) :
    (h.calledFrom cwd').findProgram cwd name = h.findProgram cwd name := by
  unfold findProgram
  rw [firstProgram_calledFrom]
  rfl

/-- A command that starts in an absolute directory is the same for all callers. -/
theorem launch_calledFrom {c : Command} (hdir : c.spoiled = false → c.dir.isAbsolute = true) :
    (h.calledFrom cwd').launch c = h.launch c := by
  unfold launch
  cases hspoiled : c.spoiled with
  | true => rfl
  | false =>
      have hplace : (h.calledFrom cwd').directoryAt c.dir = h.directoryAt c.dir := by
        unfold directoryAt
        show (h.files.resolve cwd' c.dir >>= _) = _
        rw [FileTree.resolve_of_absolute h.files (hdir hspoiled) cwd' h.cwd]
        rfl
      simp only [hplace, findProgram_calledFrom]

/-- A command that can be launched is made of its words, at its directory. -/
theorem ofWords?_unspoiled {words : List String} {root : Path} {c : Command}
    (hc : Command.ofWords? words root = some c) (hspoiled : c.spoiled = false) :
    c.program :: c.args = words ∧ c.dir = root := by
  cases words with
  | nil => cases hc
  | cons program args =>
      have hclean : (program :: args).any (·.toList.contains '\x00') = false ∧
          Command.holdsNul root.raw = false := by
        cases hc
        exact Bool.or_eq_false_iff.mp hspoiled
      have hwords : ∀ word ∈ program :: args, '\x00' ∉ word.toList := by
        intro word hword
        simpa using List.any_eq_false.mp hclean.1 word hword
      have hroot : 0 ∉ root.raw := by simpa [Command.holdsNul] using hclean.2
      obtain rfl := Option.some.inj (hc.symm.trans (ofWords?_eq hwords hroot))
      exact ⟨rfl, rfl⟩

theorem orchestrate_calledFrom {o o' : Options} {c : Command} (sink : Relay.Sink)
    (hlaunch : (h.calledFrom cwd').launch c = h.launch c) (hmode : o'.checkOutput = o.checkOutput) :
    (h.calledFrom cwd').orchestrate sink o' c = h.orchestrate sink o c := by
  have hstart : (h.calledFrom cwd').start c = h.start c := by
    unfold start
    rw [hlaunch]
  unfold orchestrate checkOutput checkPipe passThrough
  rw [hmode, hstart]

theorem conclude_calledFrom {o o' : Options} {words : List String} {root : Path} (sink : Relay.Sink)
    (hroot : root.isAbsolute = true) (hmode : o'.checkOutput = o.checkOutput)
    (hdry : o'.dryRun = o.dryRun) :
    (h.calledFrom cwd').conclude sink o' words root = h.conclude sink o words root := by
  unfold conclude
  rw [hdry]
  split
  · rfl
  · split
    · rfl
    · rename_i c hc
      refine orchestrate_calledFrom sink (launch_calledFrom ?_) hmode
      intro hspoiled
      rw [(ofWords?_unspoiled hc hspoiled).2]
      exact hroot

/-- Two callers who find the same repository, and whose options differ at most in
relative paths that lead to the same places, come to the same end. Either nothing
can be selected, for both of them alike, or both start the same command: it has
the same words, starts in the same directory and behaves the same, and all that it
names by a path, other than the files, it names from the root. Before that they
start nothing but the linter for its version. -/
theorem run_from_elsewhere {o o' : Options} {checkout : Checkout}
    (hdiscover : h.discover (o.repoRoot.absolutize h.cwdPath) = .ok checkout)
    (hdiscover' : (h.calledFrom cwd').discover (o'.repoRoot.absolutize cwd'.path) = .ok checkout)
    (halike : Alike h.cwd cwd' o o')
    (hsearch : ∀ dirs, h.searchPath = some dirs → AbsoluteDirs dirs)
    (hversion : o.clangVersion ≠ "" → Version.major? o.clangVersion = none →
      AbsoluteDirs (Bytes.ofText o.clangVersion))
    (sink : Relay.Sink) :
    ∃ (trail trail' : List Event) (job : Job Int),
      h.run sink o = ⟨trail ++ job.events, job.result⟩ ∧
      (h.calledFrom cwd').run sink o' = ⟨trail' ++ job.events, job.result⟩ ∧
      (∀ c ∈ starts trail, AsksVersion c) ∧
      (∀ c ∈ starts trail', AsksVersion c) ∧
      (∀ e, (h.select o).result = .error e → job = Job.fail e) ∧
      ∀ s, (h.select o).result = .ok s →
        ∃ (words : List String) (c : Command),
          words = h.vector o s.root s.files ∧
          words = (h.calledFrom cwd').vector o' s.root s.files ∧
          FromRoot o s words ∧
          Command.ofWords? words s.root = some c ∧
          (c.spoiled = false → c.program :: c.args = words ∧ c.dir = s.root) ∧
          ¬ AsksVersion c ∧
          (h.calledFrom cwd').launch c = h.launch c ∧
          (o.dryRun = true → job = ⟨[.line (String.intercalate " " words)], .ok 0⟩) ∧
          (o.dryRun = false → h.StartsOnly c job) := by
  have hselect : (h.calledFrom cwd').select o' = h.select o :=
    select_calledFrom hdiscover hdiscover' (halike.others .ignoreFile (by decide)).symm
  have hmode : o'.checkOutput = o.checkOutput := (halike.others .checkOutput (by decide)).symm
  have hdry : o'.dryRun = o.dryRun := (halike.others .dryRun (by decide)).symm
  have hprepare := result_prepare (h := h) (h.threshold o) o
  have hprepare' := result_prepare (h := h.calledFrom cwd') ((h.calledFrom cwd').threshold o') o'
  rw [hselect] at hprepare'
  refine ⟨(h.prepare (h.threshold o) o).events,
    ((h.calledFrom cwd').prepare ((h.calledFrom cwd').threshold o') o').events, ?_⟩
  cases hresult : (h.select o).result with
  | error e =>
      -- neither caller comes to a command
      rw [hresult] at hprepare hprepare'
      refine ⟨Job.fail e, ?_, ?_, starts_prepare _ _ _, starts_prepare _ _ _, ?_, ?_⟩
      · rw [run_of_failed sink hprepare]
        exact congrArg (Job.mk · _) (List.append_nil _).symm
      · rw [run_of_failed sink hprepare']
        exact congrArg (Job.mk · _) (List.append_nil _).symm
      · rintro e ⟨⟩
        rfl
      · intro s hs
        cases hs
  | ok s =>
      have hroot := isAbsolute_root s hresult
      have hwords := vector_calledFrom halike hsearch hversion s.root s.files
      rw [hresult] at hprepare hprepare'
      -- the words are the same, and so is all that is done with them
      have hrun := run_of_prepared sink hprepare
      have hrun' := run_of_prepared sink hprepare'
      rw [hwords, conclude_calledFrom sink hroot hmode hdry] at hrun'
      obtain ⟨c, hc⟩ : ∃ c, Command.ofWords? (h.vector o s.root s.files) s.root = some c :=
        ⟨_, rfl⟩
      refine ⟨_, hrun, hrun', starts_prepare _ _ _, starts_prepare _ _ _, ?_, ?_⟩
      · intro e he
        cases he
      rintro s ⟨⟩
      refine ⟨_, c, rfl, hwords.symm, fromRoot_vector hroot o, hc, ofWords?_unspoiled hc,
        not_asksVersion hc, launch_calledFrom ?_, ?_, ?_⟩
      · intro hspoiled
        rw [(ofWords?_unspoiled hc hspoiled).2]
        exact hroot
      · intro hprints
        unfold conclude
        rw [if_pos hprints]
        rfl
      · intro hreal
        unfold conclude
        rw [if_neg (by simp [hreal]), hc]
        exact startsOnly_orchestrate h sink o c

/-! The repository in `/w` once more, with a directory in it to call from. -/

def srcPlace : Place := demoPlace ++ [Bytes.ofText "src"]

def nested : Host :=
  { noisy clean with files := (noisy clean).files.put srcPlace .directory }

def fromTop : Options where
  buildPath := some (.ofText "out")
  exportFixes := some "fixes.yaml"
  linter := "./tools/clang-tidy"

def fromSrc : Options where
  buildPath := some (.ofText "../out")
  exportFixes := some "./../fixes.yaml"
  linter := "../src/../tools/clang-tidy"

def nestedCommand : Command where
  program := "/bin/run-clang-tidy"
  args := ["-p", "/w/out", "-clang-tidy", "/w/tools/clang-tidy", "-export-fixes", "/w/fixes.yaml",
    "a.c", "gen_b.c"]
  dir := .ofText "/w"

theorem alike_fromTop_fromSrc : Alike nested.cwd srcPlace fromTop fromSrc := by
  refine ⟨?_, ?_, ?_, ?_, ?_⟩
  · exact Option.Rel.some (Or.inr ⟨rfl, rfl, by decide +kernel⟩)
  · exact Option.Rel.some (Or.inr ⟨rfl, rfl, by decide +kernel⟩)
  · exact Or.inl ⟨rfl, by decide +kernel⟩
  · exact Or.inr ⟨by decide +kernel, by decide +kernel, Or.inr ⟨rfl, rfl, by decide +kernel⟩⟩
  · intro opt hopt
    cases opt with
    | buildPath | exportFixes | orchestrator | linter => exact absurd (by decide) hopt
    | help => trivial
    | _ => rfl

theorem run_from_src :
    ∃ (trail trail' : List Event) (job : Job Int) (rest : List Event),
      nested.run {} fromTop = ⟨trail ++ job.events, job.result⟩ ∧
      (nested.calledFrom srcPlace).run {} fromSrc = ⟨trail' ++ job.events, job.result⟩ ∧
      (∀ c ∈ starts trail, AsksVersion c) ∧
      (∀ c ∈ starts trail', AsksVersion c) ∧
      job.events = announced nestedCommand :: .started nestedCommand :: rest ∧
      starts rest = [] := by
  have hdiscover : nested.discover (fromTop.repoRoot.absolutize nested.cwdPath) =
      .ok ⟨demoPlace ++ [Checkout.gitName], demoRepository⟩ := rfl
  have hdiscover' : (nested.calledFrom srcPlace).discover
      (fromSrc.repoRoot.absolutize srcPlace.path) =
        .ok ⟨demoPlace ++ [Checkout.gitName], demoRepository⟩ := rfl
  have hselect : (nested.select fromTop).result = .ok ⟨.ofText "/w", ["a.c", "gen_b.c"]⟩ := rfl
  have hsearch : ∀ dirs, nested.searchPath = some dirs → AbsoluteDirs dirs := by
    rintro dirs ⟨⟩ dir hdir
    obtain rfl := List.mem_singleton.mp hdir
    rfl
  have hversion : fromTop.clangVersion ≠ "" → Version.major? fromTop.clangVersion = none →
      AbsoluteDirs (Bytes.ofText fromTop.clangVersion) := by
    intro hne
    exact absurd rfl hne
  obtain ⟨trail, trail', job, hrun, hrun', hasks, hasks', -, hselected⟩ :=
    run_from_elsewhere hdiscover hdiscover' alike_fromTop_fromSrc hsearch hversion {}
  obtain ⟨words, c, hwords, -, -, hc, -, -, -, -, hstarts⟩ := hselected _ hselect
  have hwords' : words = nestedCommand.program :: nestedCommand.args := by
    rw [hwords]
    decide +kernel
  obtain rfl : c = nestedCommand := by
    rw [hwords'] at hc
    exact Option.some.inj (hc.symm.trans rfl)
  obtain ⟨rest, hevents, hrest⟩ := (hstarts rfl).1 clean rfl
  exact ⟨trail, trail', job, rest, hrun, hrun', hasks, hasks', hevents, hrest⟩

end Host

end LintRunner
