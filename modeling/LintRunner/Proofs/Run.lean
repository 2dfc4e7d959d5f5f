import LintRunner.Proofs.DryRun
import LintRunner.Proofs.Listing
import LintRunner.Proofs.Selection
import LintRunner.Session

/-!
# What a run starts

A run looks for its files, says what it found, and then starts one command, or
prints it in a dry run. Up to that point it starts nothing but the linter, to
ask for its version, and both runs have the same trail.
-/

namespace LintRunner

/-! ## What a trail tells -/

/-- The commands that were started, in order. -/
def starts (events : List Event) : List Command :=
  events.filterMap fun
    | .started c => some c
    | _ => none

/-- The lines that were printed, in order. -/
def printed (events : List Event) : List String :=
  events.filterMap fun
    | .line text => some text
    | _ => none

theorem starts_append (a b : List Event) : starts (a ++ b) = starts a ++ starts b :=
  List.filterMap_append

theorem printed_append (a b : List Event) : printed (a ++ b) = printed a ++ printed b :=
  List.filterMap_append

theorem starts_map {α : Type} {f : α → Event} (hf : ∀ a, starts [f a] = []) (as : List α) :
    starts (as.map f) = [] := by
  induction as with
  | nil => rfl
  | cons a as ih =>
      show starts ([f a] ++ as.map f) = []
      rw [starts_append, hf, ih]
      rfl

theorem starts_records (records : List Log.Record) : starts (records.map .record) = [] :=
  starts_map (fun _ => rfl) records

theorem printed_records (records : List Log.Record) : printed (records.map .record) = [] := by
  induction records with
  | nil => rfl
  | cons r records ih => exact ih

namespace Job

variable {α β : Type}

/-- The job ends with a value, prints these lines, and starts only such commands. -/
structure Gives (p : Command → Prop) (job : Job α) (a : α) (lines : List String) : Prop where
  result : job.result = .ok a
  printed : printed job.events = lines
  starts : ∀ c ∈ starts job.events, p c

/-- Behind a job that ends with a value, the next one goes on. -/
theorem bind_eq {job : Job α} {events : List Event} {a : α} (h : job = ⟨events, .ok a⟩)
    (f : α → Job β) : job >>= f = ⟨events ++ (f a).events, (f a).result⟩ := by
  rw [h]
  rfl

theorem starts_bind {job : Job α} {f : α → Job β} (h : LintRunner.starts job.events = [])
    (hf : ∀ a, LintRunner.starts (f a).events = []) :
    LintRunner.starts (job >>= f).events = [] := by
  show LintRunner.starts (Job.bind job f).events = []
  rw [Job.bind]
  split
  · rw [starts_append, h, hf]
    rfl
  · exact h

namespace Gives

variable {p : Command → Prop}

theorem pure (a : α) : Gives p (pure a) a [] := by
  refine ⟨rfl, rfl, ?_⟩
  intro c hc
  cases hc

theorem print (text : String) : Gives p (print text) () [text] := by
  refine ⟨rfl, rfl, ?_⟩
  intro c hc
  cases hc

theorem logAll (records : List Log.Record) : Gives p (logAll records) () [] := by
  refine ⟨rfl, printed_records records, ?_⟩
  intro c hc
  rw [Job.logAll, tell, starts_records] at hc
  cases hc

theorem ofExcept {ε : Type} {error : ε → RunError} {e : Except ε α} {a : α} (h : e = .ok a) :
    Gives p (ofExcept error e) a [] := by
  rw [h]
  exact pure a

theorem bind {job : Job α} {f : α → Job β} {a : α} {b : β} {lines lines' : List String}
    (h : Gives p job a lines) (h' : Gives p (f a) b lines') :
    Gives p (job >>= f) b (lines ++ lines') := by
  have hjob : job = ⟨job.events, .ok a⟩ := by rw [← h.result]
  rw [bind_eq hjob]
  refine ⟨h'.result, ?_, ?_⟩
  · rw [printed_append, h.printed, h'.printed]
  · intro c hc
    rw [starts_append] at hc
    rcases List.mem_append.mp hc with hc | hc
    · exact h.starts c hc
    · exact h'.starts c hc

end Gives

end Job

namespace Host

open Job (Gives)

variable {h : Host} {p : Command → Prop}

/-- The patterns of an ignore file; a file that is missing has none. -/
def ignorePatterns (h : Host) (path : Path) : Except IoError (List String) :=
  match h.files.readText h.cwd path with
  | .ok content => .ok (IgnoreList.patternsOf (Utf8.decodeLossy content))
  | .error (.system .notFound) => .ok []
  | .error e => .error e

theorem readIgnoreList_gives {path : Path} {patterns : List String}
    (hpatterns : h.ignorePatterns path = .ok patterns) :
    Gives p (h.readIgnoreList path) (IgnoreList.ofPatterns patterns) [] := by
  unfold ignorePatterns at hpatterns
  unfold readIgnoreList
  cases hread : h.files.readText h.cwd path with
  | ok content =>
      rw [hread] at hpatterns
      cases hpatterns
      refine (Gives.logAll _).bind ?_
      split
      · exact (Gives.logAll _).bind (Gives.pure _)
      · exact Gives.pure _
  | error e =>
      rw [hread] at hpatterns
      cases e with
      | system e =>
          cases e with
          | notFound =>
              cases hpatterns
              exact (Gives.logAll _).bind (Gives.pure _)
          | _ => cases hpatterns
      | _ => cases hpatterns

/-- The files are those of the committed ones that are sources and that no
pattern has. -/
theorem select_gives {o : Options} {checkout : Checkout} {workTree : Path}
    {committed patterns : List String}
    (hdiscover : h.discover (o.repoRoot.absolutize h.cwdPath) = .ok checkout)
    (hworkTree : checkout.workTree? = some workTree)
    (hcommitted : checkout.repository.committedFiles.2 = .ok committed)
    (hpatterns : h.ignorePatterns (workTree.normalize.join (.ofText o.ignoreFile)) = .ok patterns) :
    Gives p (h.select o)
      ⟨workTree.normalize, committed.filter (IgnoreList.Lintable patterns)⟩
      [groupStart, groupEnd] := by
  unfold select
  refine (Gives.print groupStart).bind ?_
  refine (Gives.ofExcept hdiscover).bind ?_
  simp only [hworkTree]
  refine (Gives.logAll _).bind ?_
  refine (Gives.logAll _).bind ?_
  refine (Gives.ofExcept hcommitted).bind ?_
  refine (readIgnoreList_gives hpatterns).bind ?_
  refine (Gives.logAll _).bind ?_
  refine (Gives.logAll _).bind ?_
  rw [IgnoreList.keepSources_eq]
  refine (Gives.logAll _).bind ?_
  exact (Gives.print groupEnd).bind (Gives.pure _)

/-- A command that asks a program for its version. -/
def AsksVersion (c : Command) : Prop :=
  c.args = ["--version"]

theorem sayVersion_gives (t : Log.Threshold) (tool : String) :
    Gives AsksVersion (h.sayVersion t tool) () [] := by
  unfold sayVersion
  split
  · exact Gives.pure ()
  · split
    · exact Gives.pure ()
    · rename_i c hc
      have hasks : AsksVersion c := by
        cases hc
        rfl
      split
      · have hstart : Gives AsksVersion (Job.tell [.started c, .waited]) () [] := by
          refine ⟨rfl, rfl, ?_⟩
          intro c' hc'
          rw [List.mem_singleton.mp hc']
          exact hasks
        exact hstart.bind (Gives.logAll _)
      · exact Gives.logAll _

/-- The words of the command that a run is for. -/
def vector (h : Host) (o : Options) (root : Path) (files : List String) : List String :=
  [(h.program o o.orchestrator defaultOrchestrator).1, "-p", (h.buildPath o root).display,
      "-clang-tidy", (h.program o o.linter defaultLinter).1] ++
    (o.jobs.elim [] fun n => ["-j", toString n.toNat]) ++
    (o.exportFixes.elim [] fun path =>
      ["-export-fixes", ((Path.ofText path).absolutize h.cwdPath).display]) ++
    (if o.fix then ["-fix", "-format"] else []) ++ files

theorem prepare_gives (t : Log.Threshold) {o : Options} {root : Path} {files lines : List String}
    (hselect : Gives AsksVersion (h.select o) ⟨root, files⟩ lines) :
    Gives AsksVersion (h.prepare t o) (h.vector o root files, root) lines := by
  unfold prepare
  rw [← List.append_nil lines]
  refine hselect.bind ?_
  refine (Gives.logAll _).bind ?_
  refine (Gives.logAll _).bind ?_
  refine (Gives.logAll _).bind ?_
  refine (sayVersion_gives t _).bind ?_
  have hvector : h.vector o root files = commandLine
      { o with exportFixes :=
          o.exportFixes.map fun path => ((Path.ofText path).absolutize h.cwdPath).display }
      (h.program o o.orchestrator defaultOrchestrator).1
      (h.program o o.linter defaultLinter).1 (h.buildPath o root) files := by
    unfold vector commandLine
    cases o.jobs <;> cases o.exportFixes <;> rfl
  rw [hvector]
  exact Gives.pure _

/-- A dry run prepares the same. -/
theorem prepare_dry (t : Log.Threshold) (o : Options) : h.prepare t o.dry = h.prepare t o :=
  rfl

/-! ## Starting the command -/

/-- A command is said to run before it is started. -/
def announced (c : Command) : Event :=
  .record ⟨.info, c.announcement⟩

section

variable {c : Command}

theorem start_ok {b : Behaviour} (hlaunch : h.launch c = .ok b) :
    h.start c = ⟨[announced c, .started c], .ok b⟩ := by
  unfold start
  rw [hlaunch]
  rfl

theorem start_error {e : IoError} (hlaunch : h.launch c = .error e) :
    h.start c = ⟨[announced c], .error (.launch c.program e)⟩ := by
  unfold start
  rw [hlaunch]
  rfl

theorem starts_log (level : Log.Level) (text : String) : starts (Job.log level text).events = [] :=
  starts_records [⟨level, text⟩]

theorem starts_wait (b : Behaviour) : starts (wait b).events = [] := by
  unfold wait
  refine Job.starts_bind rfl ?_
  intro _
  split <;> rfl

theorem starts_kill (b : Behaviour) : starts (kill b).events = [] := by
  unfold kill
  refine Job.starts_bind rfl ?_
  intro _
  split
  · exact starts_log _ _
  · rfl

/-- A job that starts the command first and nothing after it. -/
def StartsOnly (h : Host) (c : Command) (job : Job Int) : Prop :=
  (∀ b, h.launch c = .ok b →
    ∃ rest, job.events = announced c :: .started c :: rest ∧ starts rest = []) ∧
  ∀ e, h.launch c = .error e → job = ⟨[announced c], .error (.launch c.program e)⟩

theorem startsOnly_bind {f : Behaviour → Job Int} (hf : ∀ b, starts (f b).events = []) :
    h.StartsOnly c (h.start c >>= f) := by
  constructor
  · intro b hlaunch
    exact ⟨(f b).events, by rw [Job.bind_eq (start_ok hlaunch)]; rfl, hf b⟩
  · intro e hlaunch
    rw [start_error hlaunch]
    rfl

theorem startsOnly_passThrough : h.StartsOnly c (h.passThrough c) := by
  apply startsOnly_bind
  intro b
  apply Job.starts_bind
  · exact starts_map (fun _ => rfl) b.writes
  · intro _
    refine Job.starts_bind rfl ?_
    intro _
    split
    · rfl
    · split
      · rfl
      · refine Job.starts_bind (starts_log _ _) ?_
        intro _
        rfl

theorem startsOnly_checkOutput {σ : Type} [Relay.Writer σ] (sink : σ) :
    h.StartsOnly c (h.checkOutput sink c) := by
  apply startsOnly_bind
  intro b
  apply Job.starts_bind
  · exact starts_map (fun _ => rfl) _
  · intro _
    split
    · refine Job.starts_bind (starts_kill b) ?_
      intro _
      refine Job.starts_bind (starts_wait b) ?_
      intro _
      rfl
    · refine Job.starts_bind (starts_wait b) ?_
      intro _
      refine Job.starts_bind (starts_log _ _) ?_
      intro _
      rfl

end

/-! ## The run as a whole -/

theorem run_eq {o : Options} {events : List Event} {words : List String} {root : Path}
    {c : Command} (sink : Relay.Sink) (hreal : o.dryRun = false)
    (hprepare : h.prepare (h.threshold o) o = ⟨events, .ok (words, root)⟩)
    (hc : Command.ofWords? words root = some c) :
    ∃ job, h.StartsOnly c job ∧ h.run sink o = ⟨events ++ job.events, job.result⟩ := by
  refine ⟨if o.checkOutput then h.checkOutput sink c else h.passThrough c, ?_, ?_⟩
  · split
    · exact startsOnly_checkOutput sink
    · exact startsOnly_passThrough
  · unfold run
    rw [Job.bind_eq hprepare]
    simp [hreal, hc]

theorem run_dry_eq {o : Options} {events : List Event} {words : List String} {root : Path}
    (sink : Relay.Sink) (hprepare : h.prepare (h.threshold o) o = ⟨events, .ok (words, root)⟩) :
    h.run sink o.dry = ⟨events ++ [.line (String.intercalate " " words)], .ok 0⟩ := by
  have hprepare' : h.prepare (h.threshold o.dry) o.dry = ⟨events, .ok (words, root)⟩ :=
    (prepare_dry _ o).trans hprepare
  unfold run
  rw [Job.bind_eq hprepare']
  rfl

theorem word_eq {text : String} (h : '\x00' ∉ text.toList) : Command.word text = text := by
  rw [Command.word, if_neg (by simpa using h)]

/-- Without a NUL the command is its words, started at the root. -/
theorem ofWords?_eq {program : String} {args : List String} {root : Path}
    (hwords : ∀ word ∈ program :: args, '\x00' ∉ word.toList) (hroot : 0 ∉ root.raw) :
    Command.ofWords? (program :: args) root = some ⟨program, args, root, false⟩ := by
  have hargs : args.map Command.word = args := by
    rw [List.map_congr_left fun word hword => word_eq (hwords word (List.mem_cons_of_mem _ hword))]
    exact List.map_id args
  have hspoiled : (program :: args).any (·.toList.contains '\x00') = false := by
    rw [List.any_eq_false]
    intro word hword
    simpa using hwords word hword
  have hnul : Command.holdsNul root.raw = false := by simpa [Command.holdsNul] using hroot
  rw [Command.ofWords?, hargs, word_eq (hwords program List.mem_cons_self), hspoiled, hnul]
  rfl

theorem nodup_of_headTree {r : Repository} {committed : List String} {tree : Tree}
    (hcommitted : r.committedFiles.2 = .ok committed) (hhead : r.HeadTree tree)
    (htext : tree.NamesText) (horder : tree.InGitOrder) : committed.Nodup := by
  rw [Repository.committedFiles_of_headTree hhead, Repository.listTree_ok htext] at hcommitted
  obtain rfl := Except.ok.inj hcommitted
  refine (Tree.paths_sorted htext horder rfl).imp ?_
  intro a b hlt hab
  rw [hab] at hlt
  exact List.lt_irrefl _ hlt

/-- The command of a run never is a question for a version. -/
theorem not_asksVersion {o : Options} {root : Path} {files : List String} {c : Command}
    (hc : Command.ofWords? (h.vector o root files) root = some c) : ¬ AsksVersion c := by
  cases hc
  intro hasks
  have hfirst : some (Command.word "-p") = some "--version" := congrArg List.head? hasks
  exact absurd hfirst (by decide)

/-- A run without a dry run asks the system for one command: the orchestrator at
the root of the work tree, with the committed sources that no pattern has behind
its other words. It starts nothing else but the linter for its version. Nothing
but the commit and the patterns decides about the files. The same run with a dry
run asked for prints the words of that command, and does not start it. -/
theorem run_lints_committed_sources {h : Host} {name : String} {args : List String} {o : Options}
    {checkout : Checkout} {workTree : Path} {committed patterns : List String}
    (hargs : Options.ofArgs (doubleDashes (name :: args)).tail = .ok o) (hreal : o.dryRun = false)
    (hdiscover : h.discover (o.repoRoot.absolutize h.cwdPath) = .ok checkout)
    (hworkTree : checkout.workTree? = some workTree)
    (hcommitted : checkout.repository.committedFiles.2 = .ok committed)
    (hpatterns : h.ignorePatterns (workTree.normalize.join (.ofText o.ignoreFile)) = .ok patterns)
    (sink : Relay.Sink) :
    ∃ (root : Path) (files words : List String) (c : Command) (trail : List Event),
      root = workTree.normalize ∧
      files = committed.filter (IgnoreList.Lintable patterns) ∧
      (∀ tree, checkout.repository.HeadTree tree → tree.NamesText → tree.InGitOrder →
        files.Nodup) ∧
      (∀ h' : Host, h'.discover (o.repoRoot.absolutize h'.cwdPath) = .ok checkout →
        h'.ignorePatterns (root.join (.ofText o.ignoreFile)) = .ok patterns →
          (h'.select o).result = .ok ⟨root, files⟩) ∧
      words = h.vector o root files ∧
      Command.ofWords? words root = some c ∧
      ((∀ word ∈ words, '\x00' ∉ word.toList) → 0 ∉ root.raw →
        c.program :: c.args = words ∧ c.dir = root ∧ c.spoiled = false) ∧
      (∀ c' ∈ starts trail, AsksVersion c') ∧
      printed trail = [groupStart, groupEnd] ∧
      (∀ b, h.launch c = .ok b → ∃ rest,
        (h.run sink o).events = trail ++ announced c :: .started c :: rest ∧ starts rest = []) ∧
      (∀ e, h.launch c = .error e →
        h.run sink o = ⟨trail ++ [announced c], .error (.launch c.program e)⟩) ∧
      Options.ofArgs (doubleDashes (name :: "--dry-run" :: args)).tail = .ok o.dry ∧
      h.run sink o.dry = ⟨trail ++ [.line (String.intercalate " " words)], .ok 0⟩ ∧
      c ∉ starts (h.run sink o.dry).events := by
  have hgives := prepare_gives (h.threshold o)
    (select_gives hdiscover hworkTree hcommitted hpatterns)
  obtain ⟨root, hroot⟩ : ∃ root, root = workTree.normalize := ⟨_, rfl⟩
  obtain ⟨files, hfiles⟩ : ∃ files, files = committed.filter (IgnoreList.Lintable patterns) :=
    ⟨_, rfl⟩
  rw [← hroot, ← hfiles] at hgives
  have hprepare : h.prepare (h.threshold o) o =
      ⟨(h.prepare (h.threshold o) o).events, .ok (h.vector o root files, root)⟩ := by
    rw [← hgives.result]
  obtain ⟨c, hc⟩ : ∃ c, Command.ofWords? (h.vector o root files) root = some c := ⟨_, rfl⟩
  obtain ⟨job, ⟨hok, herror⟩, hrun⟩ := run_eq sink hreal hprepare hc
  have hdry := run_dry_eq sink hprepare
  refine ⟨root, files, h.vector o root files, c, (h.prepare (h.threshold o) o).events, hroot,
    hfiles, ?_, ?_, rfl, hc, ?_, hgives.starts, hgives.printed, ?_, ?_, ?_, hdry, ?_⟩
  · intro tree hhead htext horder
    rw [hfiles]
    exact (nodup_of_headTree hcommitted hhead htext horder).filter _
  · intro h' hdiscover' hpatterns'
    rw [hroot] at hpatterns' ⊢
    rw [hfiles]
    exact (select_gives (p := fun _ => True) hdiscover' hworkTree hcommitted hpatterns').result
  · intro hwords hnul
    obtain rfl := Option.some.inj (hc.symm.trans (ofWords?_eq hwords hnul))
    exact ⟨rfl, rfl, rfl⟩
  · intro b hlaunch
    obtain ⟨rest, hevents, hrest⟩ := hok b hlaunch
    exact ⟨rest, by rw [hrun, hevents], hrest⟩
  · intro e hlaunch
    rw [hrun, herror e hlaunch]
  · have hfirst : doubleDash "--dry-run" = "--dry-run" := rfl
    show Options.ofArgs (doubleDash "--dry-run" :: doubleDashes args) = _
    rw [hfirst]
    exact Options.ofArgs_dry hargs hreal
  · rw [hdry, starts_append]
    intro hmem
    rcases List.mem_append.mp hmem with hmem | hmem
    · exact not_asksVersion hc (hgives.starts c hmem)
    · cases hmem

/-! A repository in `/w` with a source, a source that is ignored, and a text. -/

def demoPlace : Place := [Bytes.ofText "w"]

def demoRepository : Repository where
  bare := false
  head := .direct <| .firstCommit <|
    .file (Bytes.ofText "a.c") .regular <|
      .file (Bytes.ofText "gen_b.c") .regular <| .file (Bytes.ofText "notes.md") .regular .nil
  references := []

def demo : Host where
  files := ⟨fun place =>
    if place = [] ∨ place = demoPlace ∨ place = demoPlace ++ [Checkout.gitName] then
      some .directory
    else if place = demoPlace ++ [Bytes.ofText ".clang-tidy.ignore"] then
      some (.file (Bytes.ofText "gen_*\n") false)
    else none⟩
  repositories place :=
    if place = demoPlace ++ [Checkout.gitName] then some demoRepository else none
  cwd := demoPlace
  searchPath := some []
  home := none
  stepDebug := none

theorem demo_run :
    ∃ trail c, (∀ c' ∈ starts trail, AsksVersion c') ∧
      Command.ofWords? ["run-clang-tidy", "-p", "/w/build", "-clang-tidy", "clang-tidy", "a.c"]
        (.ofText "/w") = some c ∧
      demo.run {} {} = ⟨trail ++ [announced c], .error (.launch c.program (.system .notFound))⟩ ∧
      demo.run {} (Options.dry {}) =
        ⟨trail ++ [.line "run-clang-tidy -p /w/build -clang-tidy clang-tidy a.c"], .ok 0⟩ := by
  have hargs : Options.ofArgs (doubleDashes ["lint"]).tail = .ok {} := rfl
  have hdiscover : demo.discover ((Path.ofText ".").absolutize demo.cwdPath) =
      .ok ⟨demoPlace ++ [Checkout.gitName], demoRepository⟩ := rfl
  have hcommitted : demoRepository.committedFiles.2 = .ok ["a.c", "gen_b.c", "notes.md"] := rfl
  have hpatterns : demo.ignorePatterns ((Path.ofText "/w").join (.ofText ".clang-tidy.ignore")) =
      .ok ["gen_*"] := rfl
  obtain ⟨root, files, words, c, trail, hroot, hfiles, -, -, hwords, hc, -, hstarts, -, -, herror,
    -, hdry, -⟩ := run_lints_committed_sources hargs rfl hdiscover rfl hcommitted hpatterns {}
  have hroot' : root = .ofText "/w" := hroot
  have hfiles' : files = ["a.c"] := by
    rw [hfiles]
    decide +kernel
  have hwords' : words =
      ["run-clang-tidy", "-p", "/w/build", "-clang-tidy", "clang-tidy", "a.c"] := by
    rw [hwords, hfiles', hroot']
    rfl
  rw [hwords', hroot'] at hc
  refine ⟨trail, c, hstarts, hc, herror _ ?_, ?_⟩
  · cases hc
    rfl
  · rw [hdry, hwords']
    rfl

end Host

end LintRunner
