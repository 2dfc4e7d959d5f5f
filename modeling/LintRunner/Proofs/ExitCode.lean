import LintRunner.Proofs.Relay
import LintRunner.Proofs.Run

/-!
# The exit code of a run

Once the orchestrator is started, the exit code follows from how it ends and,
if its output is checked, from whether a marker stands among the bytes that it
wrote to its two streams. What the runner says itself, and all that it read
before, have no part in the code.
-/

namespace LintRunner

/-- All that was written, to whichever stream, in order. -/
def Behaviour.merged (b : Behaviour) : Bytes :=
  b.writes.flatMap (·.2)

theorem Behaviour.flatten_writes (b : Behaviour) : (b.writes.map (·.2)).flatten = b.merged :=
  List.flatMap_def.symm

/-- Each write is one piece for a relay, whichever stream it went to. -/
theorem Behaviour.pieces_writes (b : Behaviour) :
    (b.writes.map fun (_, bytes) => Relay.Read.piece bytes) = (b.writes.map (·.2)).map .piece := by
  rw [List.map_map]
  rfl

/-! ## What a relay finds -/

namespace Relay

/-- A marker stands somewhere among the bytes. -/
def Marked (bytes : Bytes) : Prop :=
  Bytes.ofText "warning:" <:+: bytes ∨ Bytes.ofText "error:" <:+: bytes

instance : DecidablePred Marked :=
  fun bytes => decidable_of_iff _ (any_isDiagnostic_iff bytes)

variable {σ : Type} [Writer σ]

/-- A relay that ends well has looked at every line, whatever the writer. -/
theorem relay_found {lines : List Bytes} :
    ∀ {s : σ} {found found' : Bool} {arrivals : List Arrival},
      relay s found none lines = (arrivals, .ok found') →
        found' = (found || lines.any (isDiagnostic ∘ Utf8.decodeLossy)) := by
  induction lines with
  | nil =>
      intro s found found' arrivals h
      cases h
      rw [List.any_nil, Bool.or_false]
  | cons line lines ih =>
      intro s found found' arrivals h
      unfold relay at h
      split at h
      · cases h
      · split at h
        · cases h
        · -- the line is written and flushed, and the rest relayed
          rename_i s' _ s'' _
          have hrest : relay s'' (found || isDiagnostic (Utf8.decodeLossy line)) none lines =
              ((relay s'' (found || isDiagnostic (Utf8.decodeLossy line)) none lines).1,
                .ok found') := by
            rw [← (Prod.mk.inj h).2]
          rw [ih hrest, List.any_cons, Bool.or_assoc]
          rfl

theorem scan_found {s : σ} {cuts : List Bytes} {arrivals : List Arrival} {found : Bool}
    (h : scan s (cuts.map .piece) = (arrivals, .ok found)) :
    found = true ↔ Marked cuts.flatten := by
  have hlines : relay s false none (linesOf cuts.flatten) = (arrivals, .ok found) := by
    rw [← h, scan, lines_pieces]
  rw [relay_found hlines, Bool.false_or]
  exact any_isDiagnostic_iff cuts.flatten

end Relay

/-! ## What a run starts -/

theorem mem_starts {c : Command} {events : List Event} : c ∈ starts events ↔ .started c ∈ events := by
  unfold starts
  rw [List.mem_filterMap]
  constructor
  · rintro ⟨e, he, hstarted⟩
    cases e with
    | started c' =>
        cases hstarted
        exact he
    | _ => cases hstarted
  · intro hc
    exact ⟨_, hc, rfl⟩

theorem forall_mem_starts {p : Command → Prop} {events : List Event} :
    (∀ c ∈ starts events, p c) ↔ ∀ e ∈ events, ∀ c, e = .started c → p c := by
  constructor
  · rintro h _ he c rfl
    exact h c (mem_starts.mpr he)
  · intro h c hc
    exact h _ (mem_starts.mp hc) c rfl

/-- The event says something and does nothing. -/
def Event.IsRecord : Event → Prop
  | .record _ => True
  | _ => False

theorem starts_of_isRecord {events : List Event} (h : ∀ e ∈ events, e.IsRecord) :
    starts events = [] := by
  rw [starts, List.filterMap_eq_nil_iff]
  intro e he
  have hrecord := h e he
  cases e with
  | started c => exact hrecord.elim
  | _ => rfl

namespace Job

variable {α β : Type}

/-- What holds of every event of the parts holds of every event of the whole. -/
theorem forall_events_bind {p : Event → Prop} {job : Job α} {f : α → Job β}
    (h : ∀ e ∈ job.events, p e) (hf : ∀ a, ∀ e ∈ (f a).events, p e) :
    ∀ e ∈ (job >>= f).events, p e := by
  intro e he
  have hbind : e ∈ (Job.bind job f).events := he
  unfold Job.bind at hbind
  split at hbind
  · rcases List.mem_append.mp hbind with he | he
    · exact h e he
    · exact hf _ e he
  · exact h e hbind

theorem forall_events_logAll {p : Event → Prop} {records : List Log.Record}
    (h : ∀ r ∈ records, p (.record r)) : ∀ e ∈ (logAll records).events, p e := by
  intro e he
  obtain ⟨r, hr, rfl⟩ := List.mem_map.mp he
  exact h r hr

/-- A job of two parts starts only what its parts start. -/
theorem forall_starts_bind {p : Command → Prop} {job : Job α} {f : α → Job β}
    (h : ∀ c ∈ starts job.events, p c) (hf : ∀ a, ∀ c ∈ starts (f a).events, p c) :
    ∀ c ∈ starts (job >>= f).events, p c := by
  rw [forall_mem_starts] at h ⊢
  exact forall_events_bind h fun a => forall_mem_starts.mp (hf a)

theorem isRecord_ofExcept {ε : Type} (error : ε → RunError) (e : Except ε α) :
    ∀ event ∈ (ofExcept error e).events, event.IsRecord := by
  intro event hevent
  cases e <;> cases hevent

/-! ### Closing the group -/

/-- What closes the group of a run: a line, unless something went wrong. -/
def closing : Except RunError α → List Event
  | .ok _ => [.line Host.groupEnd]
  | .error _ => []

/-- The job says something at most, and closes the group last. -/
def Closes (job : Job α) : Prop :=
  ∃ inside, (∀ e ∈ inside, e.IsRecord) ∧ job.events = inside ++ closing job.result

theorem closes_fail (e : RunError) : Closes (fail e : Job α) :=
  ⟨[], fun _ he => absurd he List.not_mem_nil, rfl⟩

theorem closes_print (a : α) : Closes (print Host.groupEnd >>= fun _ => Pure.pure a) :=
  ⟨[], fun _ he => absurd he List.not_mem_nil, rfl⟩

theorem Closes.bind {job : Job α} {f : α → Job β} (h : ∀ e ∈ job.events, e.IsRecord)
    (hf : ∀ a, Closes (f a)) : Closes (job >>= f) := by
  show Closes (Job.bind job f)
  unfold Job.bind
  split
  · rename_i a _
    obtain ⟨inside, hinside, hevents⟩ := hf a
    refine ⟨job.events ++ inside, List.forall_mem_append.mpr ⟨h, hinside⟩, ?_⟩
    show job.events ++ (f a).events = _
    rw [hevents, List.append_assoc]
  · exact ⟨job.events, h, (List.append_nil _).symm⟩

theorem Closes.behind_print (text : String) {f : Unit → Job α} (h : Closes (f ())) :
    ∃ inside, (∀ e ∈ inside, e.IsRecord) ∧
      (print text >>= f).events = .line text :: (inside ++ closing (print text >>= f).result) := by
  obtain ⟨inside, hinside, hevents⟩ := h
  exact ⟨inside, hinside, congrArg (Event.line text :: ·) hevents⟩

end Job

namespace Host

variable {h : Host} {c : Command} {b : Behaviour}

theorem isRecord_readIgnoreList (h : Host) (path : Path) :
    ∀ e ∈ (h.readIgnoreList path).events, e.IsRecord := by
  unfold readIgnoreList
  split
  · refine Job.forall_events_bind (Job.forall_events_logAll fun _ _ => trivial) ?_
    intro _
    split
    · refine Job.forall_events_bind (Job.forall_events_logAll fun _ _ => trivial) ?_
      intro _ e he
      cases he
    · intro e he
      cases he
  · refine Job.forall_events_bind (Job.forall_events_logAll fun _ _ => trivial) ?_
    intro _ e he
    cases he
  · intro e he
    cases he

/-- A selection opens a group, says what it comes upon, and closes the group once it has the
files. -/
theorem events_select (h : Host) (o : Options) :
    ∃ inside, (∀ e ∈ inside, e.IsRecord) ∧
      (h.select o).events = .line groupStart :: (inside ++ Job.closing (h.select o).result) := by
  unfold select
  refine Job.Closes.behind_print groupStart ?_
  refine Job.Closes.bind (Job.isRecord_ofExcept _ _) ?_
  intro checkout
  split
  · exact Job.closes_fail _
  · refine Job.Closes.bind (Job.forall_events_logAll fun _ _ => trivial) ?_
    intro _
    refine Job.Closes.bind (Job.forall_events_logAll fun _ _ => trivial) ?_
    intro _
    refine Job.Closes.bind (Job.isRecord_ofExcept _ _) ?_
    intro committed
    refine Job.Closes.bind (isRecord_readIgnoreList h _) ?_
    intro ignored
    refine Job.Closes.bind (Job.forall_events_logAll fun _ _ => trivial) ?_
    intro _
    refine Job.Closes.bind (Job.forall_events_logAll fun _ _ => trivial) ?_
    intro _
    refine Job.Closes.bind (Job.forall_events_logAll fun _ _ => trivial) ?_
    intro _
    exact Job.closes_print _

theorem starts_select (h : Host) (o : Options) : starts (h.select o).events = [] := by
  obtain ⟨inside, hinside, hevents⟩ := events_select h o
  rw [hevents]
  show starts (inside ++ Job.closing (h.select o).result) = []
  rw [starts_append, starts_of_isRecord hinside]
  cases (h.select o).result <;> rfl

/-- Whether or not it can be prepared, a command is prepared by starting nothing
but the linter for its version. -/
theorem starts_prepare (h : Host) (t : Log.Threshold) (o : Options) :
    ∀ c ∈ starts (h.prepare t o).events, AsksVersion c := by
  have hnone : ∀ events : List Event, starts events = [] → ∀ c ∈ starts events, AsksVersion c := by
    intro events hevents c hc
    rw [hevents] at hc
    cases hc
  unfold prepare
  refine Job.forall_starts_bind (hnone _ (starts_select h o)) ?_
  intro selection
  refine Job.forall_starts_bind (hnone _ (starts_records _)) ?_
  intro _
  refine Job.forall_starts_bind (hnone _ (starts_records _)) ?_
  intro _
  refine Job.forall_starts_bind (hnone _ (starts_records _)) ?_
  intro _
  refine Job.forall_starts_bind (sayVersion_gives t _).starts ?_
  intro _
  exact hnone _ rfl

/-- Starts the command in the mode that the options ask for. -/
def orchestrate (h : Host) (sink : Relay.Sink) (o : Options) (c : Command) : Job Int :=
  if o.checkOutput then h.checkOutput sink c else h.passThrough c

/-- What a run does with the words of its command. -/
def conclude (h : Host) (sink : Relay.Sink) (o : Options) (words : List String) (root : Path) :
    Job Int :=
  if o.dryRun then do
    Job.print (String.intercalate " " words)
    return 0
  else
    match Command.ofWords? words root with
    | none => return 0
    | some c => h.orchestrate sink o c

theorem run_eq_bind (h : Host) (sink : Relay.Sink) (o : Options) :
    h.run sink o =
      h.prepare (h.threshold o) o >>= fun (words, root) => h.conclude sink o words root :=
  rfl

theorem run_of_failed (sink : Relay.Sink) {o : Options} {e : RunError}
    (hfailed : (h.prepare (h.threshold o) o).result = .error e) :
    h.run sink o = ⟨(h.prepare (h.threshold o) o).events, .error e⟩ := by
  rw [run_eq_bind]
  show Job.bind _ _ = _
  rw [Job.bind, hfailed]

theorem run_of_prepared (sink : Relay.Sink) {o : Options} {words : List String} {root : Path}
    (hprepared : (h.prepare (h.threshold o) o).result = .ok (words, root)) :
    h.run sink o =
      ⟨(h.prepare (h.threshold o) o).events ++ (h.conclude sink o words root).events,
        (h.conclude sink o words root).result⟩ := by
  have hprepare : h.prepare (h.threshold o) o =
      ⟨(h.prepare (h.threshold o) o).events, .ok (words, root)⟩ := by
    rw [← hprepared]
  rw [run_eq_bind, Job.bind_eq hprepare]

theorem startsOnly_orchestrate (h : Host) (sink : Relay.Sink) (o : Options) (c : Command) :
    h.StartsOnly c (h.orchestrate sink o c) := by
  unfold orchestrate
  split
  · exact startsOnly_checkOutput sink
  · exact startsOnly_passThrough

/-- A job that starts a command only has nothing else among its starts, and has it
there only if it can be launched. -/
theorem StartsOnly.launched {c c' : Command} {job : Job Int} (hjob : h.StartsOnly c job)
    (hc' : c' ∈ starts job.events) : c' = c ∧ ∃ b, h.launch c = .ok b := by
  cases hlaunch : h.launch c with
  | error e =>
      rw [hjob.2 e hlaunch] at hc'
      cases hc'
  | ok b =>
      obtain ⟨rest, hevents, hrest⟩ := hjob.1 b hlaunch
      have hstarts : starts job.events = c :: starts rest := by
        rw [hevents]
        rfl
      rw [hstarts, hrest, List.mem_singleton] at hc'
      exact ⟨hc', b, rfl⟩

/-- A command that a run starts, other than to ask for a version, is started last,
and the run ends as the command makes it end. -/
theorem result_of_started {sink : Relay.Sink} {o : Options}
    (hstarted : c ∈ starts (h.run sink o).events) (hquestion : ¬ AsksVersion c) :
    (h.run sink o).result = (h.orchestrate sink o c).result := by
  cases hresult : (h.prepare (h.threshold o) o).result with
  | error e =>
      -- nothing but questions for a version is started on the way
      rw [run_of_failed sink hresult] at hstarted
      exact absurd (starts_prepare h _ o c hstarted) hquestion
  | ok prepared =>
      obtain ⟨words, root⟩ := prepared
      rw [run_of_prepared sink hresult] at hstarted ⊢
      rw [starts_append] at hstarted
      have hlast : c ∈ starts (h.conclude sink o words root).events := by
        rcases List.mem_append.mp hstarted with hc | hc
        · exact absurd (starts_prepare h _ o c hc) hquestion
        · exact hc
      show (h.conclude sink o words root).result = _
      unfold conclude at hlast ⊢
      split at hlast
      · -- a dry run starts nothing
        cases hlast
      · rename_i hreal
        rw [if_neg hreal]
        split at hlast
        · cases hlast
        · rename_i c' hc'
          obtain ⟨rfl, -⟩ := (startsOnly_orchestrate h sink o c').launched hlast
          rfl

/-! ## How a command that is started ends -/

theorem passThrough_result (hlaunch : h.launch c = .ok b) (hwait : b.waitFailure = none) :
    (h.passThrough c).result = .ok (b.ending.code?.getD 1) := by
  unfold passThrough
  rw [Job.bind_eq (start_ok hlaunch), hwait]
  cases b.ending <;> rfl

/-- Relaying that ends well is followed by the wait, and the code. -/
theorem checkOutput_eq {σ : Type} [Relay.Writer σ] {sink : σ} {arrivals : List Relay.Arrival}
    {found : Bool} (hlaunch : h.launch c = .ok b) (hwait : b.waitFailure = none)
    (hscan : Relay.scan sink (b.writes.map fun (_, bytes) => .piece bytes) =
      (arrivals, .ok found)) :
    h.checkOutput sink c =
      ⟨[announced c, .started c] ++ (arrivals.map .relayed ++
          [.waited, .record ⟨.debug, s!"run-clang-tidy exited with {b.ending.text}"⟩]),
        .ok (Relay.exitCode b.ending.code? found)⟩ := by
  unfold checkOutput checkPipe
  rw [Job.bind_eq (start_ok hlaunch), hscan]
  unfold wait
  rw [hwait]
  rfl

/-! ## The code -/

/-- The run starts the command, which is no question for a version and behaves so;
its ending is learnt, and what is to be relayed can be relayed. -/
structure Orchestrates (h : Host) (sink : Relay.Sink) (o : Options) (c : Command)
    (b : Behaviour) : Prop where
  started : c ∈ starts (h.run sink o).events
  orchestrator : ¬ AsksVersion c
  behaves : h.launch c = .ok b
  ended : b.waitFailure = none
  relayed : o.checkOutput = true → ∃ arrivals found,
    Relay.scan sink (b.writes.map fun (_, bytes) => .piece bytes) = (arrivals, .ok found)

/-- The code that a behaviour calls for: its own, or else whether its output is
marked if that is checked, or else one. -/
def verdict (checked : Bool) (b : Behaviour) : Int :=
  match checked, b.ending with
  | false, .exited code => code.toNat
  | false, .signaled _ => 1
  | true, .exited code =>
    if code = 0 then (if Relay.Marked b.merged then 1 else 0) else code.toNat
  | true, .signaled _ => if Relay.Marked b.merged then 1 else 0

/-- What the scan of a marked output makes of an ending is the verdict. -/
theorem exitCode_eq_verdict {found : Bool} (hfound : found = true ↔ Relay.Marked b.merged) :
    Relay.exitCode b.ending.code? found = verdict true b := by
  have hmark : (if found = true then (1 : Int) else 0) =
      if Relay.Marked b.merged then 1 else 0 := by
    simp only [hfound]
  unfold verdict Relay.exitCode
  cases hending : b.ending with
  | signaled signal => exact hmark
  | exited code =>
      by_cases hcode : code = 0
      · subst hcode
        exact hmark
      · have hne : ((code.toNat : Int) != 0) = true := by
          rw [bne_iff_ne]
          intro hzero
          apply hcode
          apply UInt8.toNat_inj.mp
          exact Int.natCast_eq_zero.mp hzero
        show (if ((code.toNat : Int) != 0) = true then _ else _) = _
        rw [if_pos hne]
        exact (if_neg hcode).symm

theorem Orchestrates.result {sink : Relay.Sink} {o : Options} (hrun : h.Orchestrates sink o c b) :
    (h.run sink o).result = .ok (verdict o.checkOutput b) := by
  rw [result_of_started hrun.started hrun.orchestrator]
  unfold orchestrate
  cases hmode : o.checkOutput with
  | false =>
      rw [if_neg (by decide), passThrough_result hrun.behaves hrun.ended]
      unfold verdict
      cases b.ending <;> rfl
  | true =>
      obtain ⟨arrivals, found, hscan⟩ := hrun.relayed hmode
      rw [if_pos rfl, checkOutput_eq hrun.behaves hrun.ended hscan]
      rw [b.pieces_writes] at hscan
      have hfound : found = true ↔ Relay.Marked b.merged := by
        rw [← b.flatten_writes]
        exact Relay.scan_found hscan
      exact congrArg Except.ok (exitCode_eq_verdict hfound)

/-- A run that starts the orchestrator ends with a code. Without a check of the
output this is the orchestrator's own, or 1 behind a signal. With the check it is
the orchestrator's own unless that is 0, and otherwise 1 exactly if a marker
stands among the bytes that the orchestrator wrote. Runs whose orchestrators
behave alike end alike, whatever else the two of them read and say. -/
theorem exit_code_of_run {sink : Relay.Sink} {o : Options} (hrun : h.Orchestrates sink o c b) :
    (o.checkOutput = false →
      (∀ code, b.ending = .exited code → (h.run sink o).result = .ok code.toNat) ∧
      (∀ signal, b.ending = .signaled signal → (h.run sink o).result = .ok 1)) ∧
    (o.checkOutput = true →
      (∀ code, b.ending = .exited code → code ≠ 0 → (h.run sink o).result = .ok code.toNat) ∧
      (b.ending = .exited 0 ∨ (∃ signal, b.ending = .signaled signal) →
        (h.run sink o).result = .ok (if Relay.Marked b.merged then 1 else 0))) ∧
    ∀ (h' : Host) (sink' : Relay.Sink) (o' : Options) (c' : Command),
      h'.Orchestrates sink' o' c' b → o'.checkOutput = o.checkOutput →
        (h'.run sink' o').result = (h.run sink o).result := by
  have hresult := hrun.result
  refine ⟨?_, ?_, ?_⟩
  · intro hmode
    rw [hresult, hmode]
    unfold verdict
    refine ⟨?_, ?_⟩
    · intro code hending
      rw [hending]
    · intro signal hending
      rw [hending]
  · intro hmode
    rw [hresult, hmode]
    unfold verdict
    refine ⟨?_, ?_⟩
    · intro code hending hcode
      rw [hending]
      exact congrArg Except.ok (if_neg hcode)
    · rintro (hending | ⟨signal, hending⟩)
      · rw [hending]
        rfl
      · rw [hending]
  · intro h' sink' o' c' hrun' hmode
    rw [hresult, hrun'.result, hmode]

/-! A repository whose ignore file holds a marker, and a linter that shows one for
its version. The orchestrator behaves as it is told to. -/

def binPlace : Place := [Bytes.ofText "bin"]

def noisyLinter : Behaviour where
  writes := [(.output, Bytes.ofText "error: 17\n")]
  ending := .exited 0

def noisy (b : Behaviour) : Host :=
  { demo with
    files := (((demo.files.put binPlace .directory).put
        (binPlace ++ [Bytes.ofText defaultOrchestrator]) (.program true fun _ _ => b)).put
        (binPlace ++ [Bytes.ofText defaultLinter]) (.program true fun _ _ => noisyLinter)).put
        (demoPlace ++ [Bytes.ofText ".clang-tidy.ignore"])
        (.file (Bytes.ofText "error:*\n") false)
    searchPath := some (Bytes.ofText "/bin")
    stepDebug := some "true" }

def noisyCommand : Command where
  program := "/bin/run-clang-tidy"
  args := ["-p", "/w/build", "-clang-tidy", "/bin/clang-tidy", "a.c", "gen_b.c"]
  dir := .ofText "/w"

/-- Nothing to report, in two writes. -/
def clean : Behaviour where
  writes := [(.output, Bytes.ofText "a.c\n"), (.error, Bytes.ofText "1 warning\n")]
  ending := .exited 0

/-- A marker that is cut in two, and a signal at the end. -/
def broken : Behaviour where
  writes := [(.output, Bytes.ofText "a.c: warn"), (.error, Bytes.ofText "ing: unused")]
  ending := .signaled 9

theorem exit_code_of_noisy :
    (.record ⟨.info, "  error:*"⟩ ∈ ((noisy clean).run {} { checkOutput := true }).events ∧
      ((noisy clean).run {} { checkOutput := true }).result = .ok 0) ∧
    ((noisy broken).run {} { checkOutput := true }).result = .ok 1 ∧
    ((noisy broken).run {} {}).result = .ok 1 := by
  have hnoisy : ¬ AsksVersion noisyCommand := by
    unfold AsksVersion
    decide
  have hclean : (noisy clean).Orchestrates {} { checkOutput := true } noisyCommand clean :=
    ⟨by decide +kernel, hnoisy, rfl, rfl, fun _ => ⟨_, _, rfl⟩⟩
  have hbroken : (noisy broken).Orchestrates {} { checkOutput := true } noisyCommand broken :=
    ⟨by decide +kernel, hnoisy, rfl, rfl, fun _ => ⟨_, _, rfl⟩⟩
  have hplain : (noisy broken).Orchestrates {} {} noisyCommand broken :=
    ⟨by decide +kernel, hnoisy, rfl, rfl, fun hmode => by cases hmode⟩
  refine ⟨⟨by decide +kernel, ?_⟩, ?_, ?_⟩
  · have hresult := ((exit_code_of_run hclean).2.1 rfl).2 (Or.inl rfl)
    rwa [if_neg (by decide +kernel)] at hresult
  · have hresult := ((exit_code_of_run hbroken).2.1 rfl).2 (Or.inr ⟨9, rfl⟩)
    rwa [if_pos (by decide +kernel)] at hresult
  · exact ((exit_code_of_run hplain).1 rfl).2 9 rfl

end Host

end LintRunner
