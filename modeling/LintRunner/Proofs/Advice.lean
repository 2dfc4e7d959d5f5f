import LintRunner.Proofs.CallerDirectory
import LintRunner.Proofs.Lookups

/-!
# Advice

What the runner says for debugging, and what it says about the compilation database,
is advice to its reader. Two runs that find the same repository, ignore file and
tools differ in nothing else, however different the databases are that they find and
however much is asked to be said: the advice stands between what is said of the
selection and the command, and nothing comes of it. Hosts find the same if their files
differ nowhere on the way to what they look for, as they do where only the database
changes.
-/

namespace LintRunner

/-- The same options, to say more or less. -/
def Options.withVerbosity (o : Options) (v : Verbosity) : Options :=
  { o with verbosity := v }

/-- How the warnings about the compilation database at a path begin. -/
def databaseWarnings (db : Path) : List String :=
  ["Could not read " ++ db.display ++ " (", "Could not parse " ++ db.display ++ ": "]

/-- The record is said for debugging, or warns about the compilation database at
the path. -/
def Advises (db : Path) (r : Log.Record) : Prop :=
  r.level = .debug ∨
    r.level = .warn ∧ ∃ opening ∈ databaseWarnings db, opening.toList <+: r.text.toList

instance (db : Path) : DecidablePred (Advises db) :=
  fun r => inferInstanceAs (Decidable (r.level = .debug ∨
    r.level = .warn ∧ ∃ opening ∈ databaseWarnings db, opening.toList <+: r.text.toList))

/-- The trail without the records that advise. -/
def withoutAdvice (db : Path) (events : List Event) : List Event :=
  events.filter fun
    | .record r => !decide (Advises db r)
    | _ => true

namespace Host

instance : DecidablePred AsksVersion :=
  fun c => inferInstanceAs (Decidable (c.args = ["--version"]))

end Host

/-- The commands that were started, without the questions for a version. -/
def orchestrations (events : List Event) : List Command :=
  (starts events).filter fun c => !decide (Host.AsksVersion c)

/-! ## Asides -/

/-- What happens beside the work: a record that advises, or a part of a question for
a version. -/
def Event.Aside (db : Path) : Event → Prop
  | .record r => Advises db r
  | .started c => Host.AsksVersion c
  | .waited => True
  | _ => False

/-- The trails differ in asides only, and only in one place. -/
def ApartFromAsides (db : Path) (events events' : List Event) : Prop :=
  ∃ front asides asides' rest,
    events = front ++ asides ++ rest ∧ events' = front ++ asides' ++ rest ∧
      (∀ e ∈ asides, e.Aside db) ∧ ∀ e ∈ asides', e.Aside db

section

variable {db : Path} {asides events events' : List Event}

/-- What is seen of a trail piece by piece, and not of asides, is the same. -/
theorem ApartFromAsides.seen {β : Type} {view : List Event → List β}
    (happend : ∀ a b, view (a ++ b) = view a ++ view b)
    (hasides : ∀ asides, (∀ e ∈ asides, Event.Aside db e) → view asides = [])
    (h : ApartFromAsides db events events') : view events = view events' := by
  obtain ⟨front, asides, asides', rest, rfl, rfl, hall, hall'⟩ := h
  rw [happend, happend, happend, happend, hasides asides hall, hasides asides' hall']

theorem ApartFromAsides.refl (db : Path) (events : List Event) :
    ApartFromAsides db events events := by
  have hnone : ∀ e ∈ ([] : List Event), e.Aside db := by
    intro e he
    cases he
  refine ⟨events, [], [], [], ?_, ?_, hnone, hnone⟩
  · rw [List.append_nil, List.append_nil]
  · rw [List.append_nil, List.append_nil]

theorem orchestrations_append (a b : List Event) :
    orchestrations (a ++ b) = orchestrations a ++ orchestrations b := by
  rw [orchestrations, starts_append, List.filter_append]
  rfl

theorem withoutAdvice_append (a b : List Event) :
    withoutAdvice db (a ++ b) = withoutAdvice db a ++ withoutAdvice db b :=
  List.filter_append a b

theorem orchestrations_of_questions (h : ∀ c ∈ starts events, Host.AsksVersion c) :
    orchestrations events = [] := by
  rw [orchestrations, List.filter_eq_nil_iff]
  intro c hc
  rw [decide_eq_true (h c hc)]
  decide

theorem orchestrations_of_asides (h : ∀ e ∈ asides, Event.Aside db e) :
    orchestrations asides = [] := by
  apply orchestrations_of_questions
  intro c hc
  exact h _ (mem_starts.mp hc)

theorem printed_of_asides (h : ∀ e ∈ asides, Event.Aside db e) : printed asides = [] := by
  rw [printed, List.filterMap_eq_nil_iff]
  intro e he
  have haside := h e he
  cases e with
  | line text => exact haside.elim
  | _ => rfl

theorem errorOutputOf_of_asides (h : ∀ e ∈ asides, Event.Aside db e) :
    errorOutputOf asides = [] := by
  rw [errorOutputOf, List.flatMap_eq_nil_iff]
  intro e he
  have haside := h e he
  cases e with
  | wrote stream bytes => exact haside.elim
  | _ => rfl

theorem not_advises_of_mem {r : Log.Record} (h : .record r ∈ withoutAdvice db events) :
    ¬ Advises db r := by
  have hkept : (!decide (Advises db r)) = true := (List.mem_filter.mp h).2
  rwa [Bool.not_eq_true', decide_eq_false_iff_not] at hkept

theorem outputOf_of_asides (t : Log.Threshold) (h : ∀ e ∈ asides, Event.Aside db e) :
    outputOf t (withoutAdvice db asides) = [] := by
  rw [outputOf, List.flatMap_eq_nil_iff]
  intro e he
  have haside := h e (List.mem_filter.mp he).1
  cases e with
  | record r => exact absurd haside (not_advises_of_mem he)
  | started c => rfl
  | waited => rfl
  | _ => exact haside.elim

/-- Without the advice there is nothing left that one threshold allows and another does
not, unless nothing is to be said at all. -/
theorem outputOf_withoutAdvice {t t' : Log.Threshold} (ht : t ≠ .off) (ht' : t' ≠ .off)
    (events : List Event) :
    outputOf t (withoutAdvice db events) = outputOf t' (withoutAdvice db events) := by
  unfold outputOf
  apply List.flatMap_congr
  intro e he
  cases e with
  | record r =>
      have hlevel : (r.level != .debug) = true := by
        rw [bne_iff_ne]
        exact fun hdebug => not_advises_of_mem he (Or.inl hdebug)
      have hallowed : ∀ t : Log.Threshold, t ≠ .off → t.allows r.level = true := by
        intro t ht
        cases t with
        | off => exact absurd rfl ht
        | info => exact hlevel
        | debug => rfl
      show (if t.allows r.level then _ else _) = if t'.allows r.level then _ else _
      rw [hallowed t ht, hallowed t' ht']
  | line text => rfl
  | wrote stream bytes => cases stream <;> rfl
  | relayed arrival => cases arrival <;> rfl
  | started | killed | waited => rfl

end

namespace Job

/-- The last part matters only for the values that the first one ends with. -/
theorem bind_congr_of_result {α β : Type} {job : Job α} {f g : α → Job β}
    (hfg : ∀ a, job.result = .ok a → f a = g a) : job >>= f = job >>= g := by
  show Job.bind job f = Job.bind job g
  unfold Job.bind
  split
  · rename_i a ha
    rw [hfg a ha]
  · rfl

theorem of_result_ofExcept {α ε : Type} {error : ε → RunError} {e : Except ε α} {a : α}
    (h : (ofExcept error e).result = .ok a) : e = .ok a := by
  cases e with
  | ok b =>
      cases h
      rfl
  | error e => cases h

end Job

namespace Host

variable {h h' : Host} {o : Options}

/-! ## What is said on the way to the command -/

/-- Where a run looks for the compilation database. -/
def databasePath (h : Host) (o : Options) (root : Path) : Path :=
  (h.buildPath o root).join (.ofText databaseName)

theorem advises_databaseRecords (buildPath root : Path) (files : List String) :
    ∀ r ∈ h.databaseRecords buildPath root files,
      Advises (buildPath.join (.ofText databaseName)) r := by
  have hopens : ∀ opening text : String, opening.toList <+: (opening ++ text).toList := by
    intro opening text
    rw [String.toList_append]
    exact List.prefix_append _ _
  intro r hr
  unfold databaseRecords at hr
  generalize buildPath.join (.ofText databaseName) = path at hr ⊢
  dsimp only at hr
  split at hr
  · rename_i e _
    obtain rfl := List.mem_singleton.mp hr
    refine Or.inr ⟨rfl, _, List.mem_cons_self, ?_⟩
    exact (hopens _ e.message).trans (hopens _ "); run-clang-tidy will likely fail")
  · split at hr
    · obtain rfl := List.mem_singleton.mp hr
      exact Or.inr ⟨rfl, _, List.mem_cons_of_mem _ List.mem_cons_self, hopens _ _⟩
    · rcases List.mem_cons.mp hr with rfl | hr
      · exact Or.inl rfl
      · obtain ⟨name, -, rfl⟩ := List.mem_map.mp hr
        exact Or.inl rfl

theorem advises_program (db : Path) (configured default : String) :
    ∀ r ∈ (h.program o configured default).2, Advises db r := by
  intro r hr
  replace hr : r ∈ (h.resolveTool configured default o.clangVersion).2 := hr
  unfold resolveTool at hr
  split at hr
  · cases hr
  · split at hr
    · obtain rfl := List.mem_singleton.mp hr
      exact Or.inl rfl
    · obtain rfl := List.mem_singleton.mp hr
      exact Or.inl rfl

theorem aside_sayVersion (db : Path) (t : Log.Threshold) (tool : String) :
    ∀ e ∈ (h.sayVersion t tool).events, e.Aside db := by
  have hdebug : ∀ text, ∀ e ∈ (Job.log .debug text).events, e.Aside db := by
    intro text e he
    obtain rfl := List.mem_singleton.mp he
    exact Or.inl rfl
  have hnone : ∀ e ∈ (Pure.pure () : Job Unit).events, e.Aside db := by
    intro e he
    cases he
  unfold sayVersion
  split
  · exact hnone
  · split
    · exact hnone
    · rename_i c hc
      split
      · refine Job.forall_events_bind ?_ fun _ => hdebug _
        intro e he
        rcases List.mem_pair.mp he with rfl | rfl
        · cases hc
          rfl
        · trivial
      · exact hdebug _

/-- Behind the selection there are only asides until the command is ready. -/
theorem prepare_of_selected (t : Log.Threshold) {s : Selection}
    (hs : (h.select o).result = .ok s) :
    ∃ asides, (∀ e ∈ asides, Event.Aside (h.databasePath o s.root) e) ∧
      h.prepare t o =
        ⟨(h.select o).events ++ asides, .ok (h.vector o s.root s.files, s.root)⟩ := by
  have hresult := result_prepare (h := h) t o
  rw [hs] at hresult
  have hselect : h.select o = ⟨(h.select o).events, .ok s⟩ := by rw [← hs]
  obtain ⟨asides, hevents, hasides⟩ : ∃ asides,
      (h.prepare t o).events = (h.select o).events ++ asides ∧
        ∀ e ∈ asides, Event.Aside (h.databasePath o s.root) e := by
    unfold prepare
    rw [Job.bind_eq hselect]
    refine ⟨_, rfl, ?_⟩
    refine Job.forall_events_bind (Job.forall_events_logAll (advises_databaseRecords _ _ _)) ?_
    intro _
    refine Job.forall_events_bind (Job.forall_events_logAll (advises_program _ _ _)) ?_
    intro _
    refine Job.forall_events_bind (Job.forall_events_logAll (advises_program _ _ _)) ?_
    intro _
    refine Job.forall_events_bind (aside_sayVersion _ _ _) ?_
    intro _ e he
    cases he
  refine ⟨asides, hasides, ?_⟩
  rw [← hevents]
  exact congrArg (Job.mk _) hresult

theorem prepare_of_not_selected (t : Log.Threshold) {e : RunError}
    (hs : (h.select o).result = .error e) : h.prepare t o = ⟨(h.select o).events, .error e⟩ := by
  unfold prepare
  show Job.bind _ _ = _
  unfold Job.bind
  rw [hs]

/-! ## What a run comes to -/

/-- A dry run prints the command last. -/
theorem printed_run_of_dry {s : Selection} (hs : (h.select o).result = .ok s)
    (hdry : o.dryRun = true) (sink : Relay.Sink) :
    printed (h.run sink o).events =
      printed (h.select o).events ++ [String.intercalate " " (h.vector o s.root s.files)] := by
  obtain ⟨asides, hasides, hprepare⟩ := prepare_of_selected (h.threshold o) hs
  have hconclude : h.conclude sink o (h.vector o s.root s.files) s.root =
      ⟨[.line (String.intercalate " " (h.vector o s.root s.files))], .ok 0⟩ := by
    unfold conclude
    rw [if_pos hdry]
    rfl
  rw [run_eq_bind, Job.bind_eq hprepare]
  dsimp only
  rw [hconclude, printed_append, printed_append, printed_of_asides hasides, List.append_nil]
  rfl

/-- Any other run starts the command, and no other but to ask for a version. -/
theorem orchestrations_run_of_launched {s : Selection} {c : Command} {b : Behaviour}
    (hs : (h.select o).result = .ok s)
    (hc : Command.ofWords? (h.vector o s.root s.files) s.root = some c)
    (hreal : o.dryRun = false) (hlaunch : h.launch c = .ok b) (sink : Relay.Sink) :
    orchestrations (h.run sink o).events = [c] := by
  obtain ⟨rest, hevents, hrest⟩ := (startsOnly_orchestrate h sink o c).1 b hlaunch
  have hconclude : h.conclude sink o (h.vector o s.root s.files) s.root =
      h.orchestrate sink o c := by
    unfold conclude
    rw [if_neg (by simp [hreal]), hc]
  have hstarts : starts (h.orchestrate sink o c).events = [c] := by
    rw [hevents]
    show c :: starts rest = [c]
    rw [hrest]
  have hkept : (!decide (AsksVersion c)) = true := by
    rw [decide_eq_false (not_asksVersion hc)]
    rfl
  have hprepare := result_prepare (h := h) (h.threshold o) o
  rw [hs] at hprepare
  rw [run_of_prepared sink hprepare]
  dsimp only
  rw [hconclude, orchestrations_append,
    orchestrations_of_questions (starts_prepare h (h.threshold o) o), List.nil_append,
    orchestrations, hstarts, List.filter_singleton, hkept]
  rfl

theorem threshold_ne_off (h : Host) (o : Options) : h.threshold o ≠ .off := by
  unfold threshold Log.Threshold.choose
  split
  · decide
  · decide

/-! ## Two runs -/

/-- A run with the options finds the same on both hosts: the directory of the caller,
the repository, the ignore file and the tools are the same, and the orchestrator
behaves the same. -/
structure SameInputs (h h' : Host) (o : Options) : Prop where
  cwd : h'.cwd = h.cwd
  repository : h'.discover (o.repoRoot.absolutize h.cwdPath) =
    h.discover (o.repoRoot.absolutize h.cwdPath)
  ignoreFile : ∀ checkout workTree,
    h.discover (o.repoRoot.absolutize h.cwdPath) = .ok checkout →
    checkout.workTree? = some workTree →
      h'.files.readText h.cwd (workTree.normalize.join (.ofText o.ignoreFile)) =
        h.files.readText h.cwd (workTree.normalize.join (.ofText o.ignoreFile))
  tools : ∀ name ∈ [defaultOrchestrator, defaultLinter],
    h'.findTool name o.clangVersion = h.findTool name o.clangVersion
  orchestrator : ∀ s c, (h.select o).result = .ok s →
    Command.ofWords? (h.vector o s.root s.files) s.root = some c → h'.launch c = h.launch c

/-! The host may be the same one but for its files. It finds the same if they differ at
no place that is looked at. -/

/-- The places that are looked at for the ignore file. -/
def looksForIgnoreFile (h : Host) (o : Options) : List Place :=
  match h.discover (o.repoRoot.absolutize h.cwdPath) with
  | .ok checkout =>
    match checkout.workTree? with
    | some workTree => h.files.looksAt h.cwd (workTree.normalize.join (.ofText o.ignoreFile))
    | none => []
  | .error _ => []

/-- The places that are looked at for the orchestrator, once its command is ready. -/
def looksForOrchestrator (h : Host) (o : Options) : List Place :=
  match (h.select o).result with
  | .ok s =>
    match Command.ofWords? (h.vector o s.root s.files) s.root with
    | some c => h.looksForLaunch c
    | none => []
  | .error _ => []

/-- The places that a run with the options looks at for its inputs. -/
def looksForInputs (h : Host) (o : Options) : List Place :=
  h.looksForRepository (o.repoRoot.absolutize h.cwdPath) ++ h.looksForIgnoreFile o ++
    [defaultOrchestrator, defaultLinter].flatMap (h.looksForTool · o.clangVersion) ++
    h.looksForOrchestrator o

theorem sameInputs_withFiles {files : FileTree}
    (hagree : h.files.AgreeOn files (h.looksForInputs o)) (stepDebug : Option String) :
    SameInputs h (h.withFiles files stepDebug) o := by
  obtain ⟨hagree, horchestrator⟩ := List.forall_mem_append.mp hagree
  obtain ⟨hagree, htools⟩ := List.forall_mem_append.mp hagree
  obtain ⟨hrepository, hignore⟩ := List.forall_mem_append.mp hagree
  refine ⟨rfl, discover_congr hrepository, ?_, ?_, ?_⟩
  · intro checkout workTree hcheckout hworkTree
    unfold looksForIgnoreFile at hignore
    rw [hcheckout] at hignore
    dsimp only at hignore
    rw [hworkTree] at hignore
    exact FileTree.readText_congr hignore
  · intro name hname
    apply findTool_withFiles (bareName_of_mem_defaults hname)
    intro place hplace
    exact htools place (List.mem_flatMap.mpr ⟨name, hname, hplace⟩)
  · intro s c hs hc
    unfold looksForOrchestrator at horchestrator
    rw [hs] at horchestrator
    dsimp only at horchestrator
    rw [hc] at horchestrator
    exact launch_congr horchestrator

/-- Whatever is changed about the database, or about any other places, the inputs are the
same as long as no lookup passes through what is changed. -/
theorem sameInputs_of_changed {files : FileTree} {changed : Place → Prop}
    (hfiles : ∀ place, ¬ changed place → files.node place = h.files.node place)
    (hlooks : ∀ place ∈ h.looksForInputs o, ¬ changed place) (stepDebug : Option String) :
    SameInputs h (h.withFiles files stepDebug) o := by
  apply sameInputs_withFiles
  intro place hplace
  exact hfiles place (hlooks place hplace)

/-- How much is to be said is asked for nowhere but in the threshold. -/
theorem run_withVerbosity (sink : Relay.Sink) (o : Options) (v : Verbosity) :
    h.run sink (o.withVerbosity v) =
      h.prepare (h.threshold (o.withVerbosity v)) o >>= fun (words, root) =>
        h.conclude sink o words root :=
  rfl

section

variable (hsame : SameInputs h h' o)

include hsame

theorem SameInputs.cwdPath : h'.cwdPath = h.cwdPath :=
  congrArg Place.path hsame.cwd

theorem SameInputs.select : h'.select o = h.select o := by
  unfold Host.select
  rw [hsame.cwdPath, hsame.repository]
  refine Job.bind_congr fun _ => ?_
  refine Job.bind_congr_of_result fun checkout hcheckout => ?_
  have hdiscover := Job.of_result_ofExcept hcheckout
  cases hworkTree : checkout.workTree? with
  | none => rfl
  | some workTree =>
      have hread : h'.readIgnoreList (workTree.normalize.join (.ofText o.ignoreFile)) =
          h.readIgnoreList (workTree.normalize.join (.ofText o.ignoreFile)) := by
        unfold readIgnoreList
        rw [hsame.cwd, hsame.ignoreFile checkout workTree hdiscover hworkTree]
      simp only [hread]

theorem SameInputs.program {name : String} (hname : name ∈ [defaultOrchestrator, defaultLinter])
    (configured : String) : h'.program o configured name = h.program o configured name := by
  unfold Host.program resolveTool absolutizeProgram
  rw [hsame.cwdPath, hsame.tools name hname]

theorem SameInputs.buildPath (root : Path) : h'.buildPath o root = h.buildPath o root := by
  unfold Host.buildPath
  rw [hsame.cwdPath]

theorem SameInputs.vector (root : Path) (files : List String) :
    h'.vector o root files = h.vector o root files := by
  unfold Host.vector
  rw [hsame.program (by decide), hsame.program (by decide), hsame.buildPath, hsame.cwdPath]

/-- What is done with the words of the command is the same. -/
theorem SameInputs.conclude {s : Selection} (hs : (h.select o).result = .ok s)
    (sink : Relay.Sink) :
    h'.conclude sink o (h.vector o s.root s.files) s.root =
      h.conclude sink o (h.vector o s.root s.files) s.root := by
  unfold Host.conclude
  split
  · rfl
  · split
    · rfl
    · rename_i c hc
      have hstart : h'.start c = h.start c := by
        unfold start
        rw [hsame.orchestrator s c hs hc]
      unfold orchestrate checkOutput checkPipe passThrough
      rw [hstart]

/-- Two such runs end alike, and their trails differ in asides only. -/
theorem SameInputs.run (v : Verbosity) (sink : Relay.Sink) :
    (h'.run sink (o.withVerbosity v)).result = (h.run sink o).result ∧
      ∀ db, (∀ s, (h.select o).result = .ok s → db = h.databasePath o s.root) →
        ApartFromAsides db (h.run sink o).events (h'.run sink (o.withVerbosity v)).events := by
  rw [run_withVerbosity, run_eq_bind]
  cases hs : (h.select o).result with
  | error e =>
      have hs' : (h'.select o).result = .error e := by rw [hsame.select, hs]
      rw [prepare_of_not_selected _ hs, prepare_of_not_selected _ hs', hsame.select]
      exact ⟨rfl, fun db _ => ApartFromAsides.refl db _⟩
  | ok s =>
      have hs' : (h'.select o).result = .ok s := by rw [hsame.select, hs]
      obtain ⟨asides, hasides, hprepare⟩ := prepare_of_selected (h.threshold o) hs
      obtain ⟨asides', hasides', hprepare'⟩ :=
        prepare_of_selected (h'.threshold (o.withVerbosity v)) hs'
      rw [hsame.select, hsame.vector] at hprepare'
      rw [Job.bind_eq hprepare, Job.bind_eq hprepare']
      dsimp only
      rw [hsame.conclude hs sink]
      refine ⟨rfl, fun db hdb => ?_⟩
      have hdatabase : h'.databasePath o s.root = h.databasePath o s.root :=
        congrArg (·.join (.ofText databaseName)) (hsame.buildPath s.root)
      rw [hdatabase] at hasides'
      rw [hdb s rfl]
      exact ⟨_, asides, asides', _, rfl, rfl, hasides, hasides'⟩

end

/-- Two runs that find the same repository, ignore file and tools, for callers in the
same directory who ask for the same but for how much is said, start the same
orchestrator or print the same line in its place, and end with the same code or the
same error. What they write is the same too, once the records are left out that are
said for debugging or warn about the compilation database. The databases that they find
may be any two, and so may be what the machines say about debugging. Where anything is
selected there is such a line, or such a start if the command can be launched. -/
theorem run_apart_from_advice (hsame : SameInputs h h' o) (v : Verbosity) (sink : Relay.Sink) :
    (h'.run sink (o.withVerbosity v)).result = (h.run sink o).result ∧
    orchestrations (h'.run sink (o.withVerbosity v)).events =
      orchestrations (h.run sink o).events ∧
    printed (h'.run sink (o.withVerbosity v)).events = printed (h.run sink o).events ∧
    errorOutputOf (h'.run sink (o.withVerbosity v)).events =
      errorOutputOf (h.run sink o).events ∧
    (∀ db, (∀ s, (h.select o).result = .ok s → db = h.databasePath o s.root) →
      outputOf (h'.threshold (o.withVerbosity v))
          (withoutAdvice db (h'.run sink (o.withVerbosity v)).events) =
        outputOf (h.threshold o) (withoutAdvice db (h.run sink o).events)) ∧
    ∀ s c, (h.select o).result = .ok s →
      Command.ofWords? (h.vector o s.root s.files) s.root = some c →
        (o.dryRun = true → printed (h.run sink o).events =
          printed (h.select o).events ++
            [String.intercalate " " (h.vector o s.root s.files)]) ∧
        (o.dryRun = false → ∀ b, h.launch c = .ok b →
          orchestrations (h.run sink o).events = [c]) := by
  obtain ⟨hresult, hapart⟩ := hsame.run v sink
  obtain ⟨db, hdb⟩ : ∃ db, ∀ s, (h.select o).result = .ok s → db = h.databasePath o s.root := by
    cases hs : (h.select o).result with
    | error e =>
        refine ⟨.ofText "", ?_⟩
        rintro s ⟨⟩
    | ok s =>
        refine ⟨h.databasePath o s.root, ?_⟩
        rintro s ⟨⟩
        rfl
  refine ⟨hresult, ?_, ?_, ?_, ?_, ?_⟩
  · exact ((hapart db hdb).seen orchestrations_append fun _ => orchestrations_of_asides).symm
  · exact ((hapart db hdb).seen printed_append fun _ => printed_of_asides).symm
  · exact ((hapart db hdb).seen (fun _ _ => List.flatMap_append)
      fun _ => errorOutputOf_of_asides).symm
  · intro db hdb
    rw [outputOf_withoutAdvice (threshold_ne_off h' _) (threshold_ne_off h o)]
    have happend : ∀ a b, outputOf (h.threshold o) (withoutAdvice db (a ++ b)) =
        outputOf (h.threshold o) (withoutAdvice db a) ++
          outputOf (h.threshold o) (withoutAdvice db b) := by
      intro a b
      rw [withoutAdvice_append]
      exact List.flatMap_append
    exact ((hapart db hdb).seen happend fun _ => outputOf_of_asides _).symm
  · intro s c hs hc
    refine ⟨fun hdry => printed_run_of_dry hs hdry sink, ?_⟩
    intro hreal b hlaunch
    exact orchestrations_run_of_launched hs hc hreal hlaunch sink

/-! The repository in `/w` without a database, and with any. -/

def buildPlace : Place := demoPlace ++ [Bytes.ofText "build"]

def withDatabase (node : Node) : Host :=
  { noisy clean with
    files := ((noisy clean).files.put buildPlace .directory).put
      (buildPlace ++ [Bytes.ofText databaseName]) node
    stepDebug := none }

theorem sameInputs_withDatabase (node : Node) :
    SameInputs (noisy clean) (withDatabase node) {} := by
  have hlooks : ∀ place ∈ (noisy clean).looksForInputs {},
      ¬ (place = buildPlace ∨ place = buildPlace ++ [Bytes.ofText databaseName]) := by
    decide +kernel
  refine sameInputs_of_changed (fun place hplace => ?_) hlooks none
  obtain ⟨hbuild, hdatabase⟩ := not_or.mp hplace
  exact (FileTree.node_put_of_ne hdatabase _).trans (FileTree.node_put_of_ne hbuild _)

/-- A database that is cut off. -/
def cutOff : Node :=
  .file (Bytes.ofText "[") false

theorem run_with_cutOff :
    ((withDatabase cutOff).run {} {}).events ≠ ((noisy clean).run {} {}).events ∧
      ((withDatabase cutOff).run {} {}).result = ((noisy clean).run {} {}).result ∧
      orchestrations ((withDatabase cutOff).run {} {}).events = [noisyCommand] ∧
      outputOf ((withDatabase cutOff).threshold {})
          (withoutAdvice (.ofText "/w/build/compile_commands.json")
            ((withDatabase cutOff).run {} {}).events) =
        outputOf ((noisy clean).threshold {})
          (withoutAdvice (.ofText "/w/build/compile_commands.json")
            ((noisy clean).run {} {}).events) := by
  have hselect : ((noisy clean).select {}).result = .ok ⟨.ofText "/w", ["a.c", "gen_b.c"]⟩ := rfl
  have hwords : (noisy clean).vector {} (.ofText "/w") ["a.c", "gen_b.c"] =
      noisyCommand.program :: noisyCommand.args := by decide +kernel
  have hc : Command.ofWords? ((noisy clean).vector {} (.ofText "/w") ["a.c", "gen_b.c"])
      (.ofText "/w") = some noisyCommand := by
    rw [hwords]
    rfl
  obtain ⟨hresult, hstarts, -, -, houtput, hcommand⟩ :=
    run_apart_from_advice (sameInputs_withDatabase cutOff) .info {}
  refine ⟨by decide +kernel, hresult, ?_, houtput _ ?_⟩
  · exact hstarts.trans ((hcommand _ _ hselect hc).2 rfl clean rfl)
  · intro s hs
    obtain rfl := Except.ok.inj (hselect.symm.trans hs)
    rfl

end Host

end LintRunner
