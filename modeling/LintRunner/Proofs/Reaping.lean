import LintRunner.Proofs.Interleaving

/-!
# No command is left behind

A command whose output is checked is waited for once, however the relay and the
command end, and whatever the pipe and the writer do. It is killed first if the
relay failed, because nobody reads what it writes any more, and the failure of the
relay is then the result: neither the exit code, nor diagnostics that were seen
before, nor a failure to kill take its place.
-/

namespace LintRunner

/-! ## What is done with commands -/

def Event.isDealing : Event → Bool
  | .started _ | .killed | .waited => true
  | _ => false

/-- The starts, kills and waits of a trail, in order. -/
def dealings (events : List Event) : List Event :=
  events.filter (·.isDealing)

theorem dealings_append (a b : List Event) : dealings (a ++ b) = dealings a ++ dealings b :=
  List.filter_append a b

theorem dealings_map {α : Type} {f : α → Event} (hf : ∀ a, (f a).isDealing = false)
    (as : List α) : dealings (as.map f) = [] := by
  rw [dealings, List.filter_eq_nil_iff]
  intro e he
  obtain ⟨a, -, rfl⟩ := List.mem_map.mp he
  rw [hf a]
  exact Bool.false_ne_true

namespace Host

variable {σ : Type} [Relay.Writer σ] {h : Host} {pipe : Behaviour → List Relay.Read} {sink : σ}
  {c : Command} {b : Behaviour} {arrivals : List Relay.Arrival}

/-! ## Killing and waiting -/

/-- A failure to kill is told, and nothing else comes of it. -/
theorem kill_spec (b : Behaviour) :
    ∃ records : List Log.Record, kill b = ⟨[.killed] ++ records.map .record, .ok ()⟩ := by
  unfold kill
  cases b.killFailure with
  | none => exact ⟨[], rfl⟩
  | some e => exact ⟨[⟨.debug, s!"Could not kill run-clang-tidy: {e.message}"⟩], rfl⟩

theorem wait_spec (b : Behaviour) :
    wait b = ⟨[.waited], b.waitFailure.elim (.ok ()) fun w => .error (.io w)⟩ := by
  unfold wait
  cases b.waitFailure <;> rfl

/-! ## The three ways to end -/

theorem checkPipe_of_not_launched {e : IoError} (hlaunch : h.launch c = .error e) :
    h.checkPipe pipe sink c = ⟨[announced c], .error (.launch c.program e)⟩ := by
  unfold checkPipe
  rw [start_error hlaunch]
  rfl

/-- Behind a relay that ends well there is only the wait. -/
theorem checkPipe_of_relayed {found : Bool} (hlaunch : h.launch c = .ok b)
    (hscan : Relay.scan sink (pipe b) = (arrivals, .ok found)) :
    dealings (h.checkPipe pipe sink c).events = [.started c, .waited] ∧
      (h.checkPipe pipe sink c).result =
        b.waitFailure.elim (.ok (Relay.exitCode b.ending.code? found)) fun w =>
          .error (.io w) := by
  have htrail : ∃ records : List Log.Record, h.checkPipe pipe sink c =
      ⟨[announced c, .started c] ++ (arrivals.map .relayed ++ ([.waited] ++ records.map .record)),
        b.waitFailure.elim (.ok (Relay.exitCode b.ending.code? found)) fun w =>
          .error (.io w)⟩ := by
    unfold checkPipe
    rw [Job.bind_eq (start_ok hlaunch), hscan]
    simp only [wait_spec]
    cases b.waitFailure with
    | none => exact ⟨[⟨.debug, s!"run-clang-tidy exited with {b.ending.text}"⟩], rfl⟩
    | some w => exact ⟨[], rfl⟩
  obtain ⟨records, htrail⟩ := htrail
  rw [htrail]
  refine ⟨?_, rfl⟩
  rw [dealings_append, dealings_append, dealings_append, dealings_map fun _ => rfl,
    dealings_map fun _ => rfl]
  rfl

/-- Behind a relay that fails the command is killed and then waited for. -/
theorem checkPipe_of_failed {e : IoError} (hlaunch : h.launch c = .ok b)
    (hscan : Relay.scan sink (pipe b) = (arrivals, .error e)) :
    dealings (h.checkPipe pipe sink c).events = [.started c, .killed, .waited] ∧
      (h.checkPipe pipe sink c).result =
        b.waitFailure.elim (.error (.io e)) fun w => .error (.io w) := by
  obtain ⟨records, hkill⟩ := kill_spec b
  have htrail : h.checkPipe pipe sink c =
      ⟨[announced c, .started c] ++ (arrivals.map .relayed ++
          (([.killed] ++ records.map .record) ++ [.waited])),
        b.waitFailure.elim (.error (.io e)) fun w => .error (.io w)⟩ := by
    unfold checkPipe
    rw [Job.bind_eq (start_ok hlaunch), hscan]
    simp only [wait_spec, hkill]
    cases b.waitFailure <;> rfl
  rw [htrail]
  refine ⟨?_, rfl⟩
  rw [dealings_append, dealings_append, dealings_append, dealings_append,
    dealings_map fun _ => rfl, dealings_map fun _ => rfl]
  rfl

/-- Whatever the pipe hands out and whatever the writer takes, a command that is
started is waited for exactly once before the check ends, and killed, before that,
exactly if the relay failed. A failed wait is the result; otherwise a failed relay is,
and a relay that ends well gives a code. A command that cannot be started leaves
nothing to relay and nothing to wait for, and its name and the reason are the result. -/
theorem checkPipe_reaps (h : Host) (pipe : Behaviour → List Relay.Read) (sink : σ)
    (c : Command) :
    (∀ b, h.launch c = .ok b →
      (dealings (h.checkPipe pipe sink c).events).count .waited = 1 ∧
      (∀ found, (Relay.scan sink (pipe b)).2 = .ok found →
        dealings (h.checkPipe pipe sink c).events = [.started c, .waited] ∧
        (b.waitFailure = none →
          (h.checkPipe pipe sink c).result = .ok (Relay.exitCode b.ending.code? found))) ∧
      (∀ e, (Relay.scan sink (pipe b)).2 = .error e →
        dealings (h.checkPipe pipe sink c).events = [.started c, .killed, .waited] ∧
        (b.waitFailure = none → (h.checkPipe pipe sink c).result = .error (.io e))) ∧
      ∀ w, b.waitFailure = some w → (h.checkPipe pipe sink c).result = .error (.io w)) ∧
    ∀ e, h.launch c = .error e →
      (h.checkPipe pipe sink c).result = .error (.launch c.program e) ∧
        arrivalsOf (h.checkPipe pipe sink c).events = [] ∧
        dealings (h.checkPipe pipe sink c).events = [] := by
  refine ⟨?_, ?_⟩
  · intro b hlaunch
    obtain ⟨arrivals, scanned, hscan⟩ : ∃ arrivals scanned,
        Relay.scan sink (pipe b) = (arrivals, scanned) := ⟨_, _, rfl⟩
    rw [hscan]
    cases scanned with
    | ok found =>
        obtain ⟨hdealings, hresult⟩ := checkPipe_of_relayed hlaunch hscan
        rw [hdealings, hresult]
        refine ⟨by simp, ?_, ?_, ?_⟩
        · rintro _ ⟨⟩
          refine ⟨rfl, ?_⟩
          intro hwait
          rw [hwait]
          rfl
        · rintro _ ⟨⟩
        · intro w hwait
          rw [hwait]
          rfl
    | error e =>
        obtain ⟨hdealings, hresult⟩ := checkPipe_of_failed hlaunch hscan
        rw [hdealings, hresult]
        refine ⟨by simp, ?_, ?_, ?_⟩
        · rintro _ ⟨⟩
        · rintro _ ⟨⟩
          refine ⟨rfl, ?_⟩
          intro hwait
          rw [hwait]
          rfl
        · intro w hwait
          rw [hwait]
          rfl
  · intro e hlaunch
    rw [checkPipe_of_not_launched hlaunch]
    exact ⟨rfl, rfl, rfl⟩

/-! A command that has reported an error, would exit with 3 and cannot be killed, behind
a pipe that breaks down. -/

def stubborn : Behaviour where
  writes := [(.output, Bytes.ofText "a.c:1: error: x\n"), (.error, Bytes.ofText "a.c")]
  ending := .exited 3
  killFailure := some (.system .accessDenied)

def brokenDown (b : Behaviour) : List Relay.Read :=
  (b.writes.map fun (_, bytes) => .piece bytes) ++ [.failure .connectionReset]

theorem checkPipe_of_stubborn :
    dealings ((noisy stubborn).checkPipe brokenDown Relay.narrow noisyCommand).events =
        [.started noisyCommand, .killed, .waited] ∧
      ((noisy stubborn).checkPipe brokenDown Relay.narrow noisyCommand).result =
        .error (.io .connectionReset) := by
  obtain ⟨-, -, hfailed, -⟩ :=
    (checkPipe_reaps (noisy stubborn) brokenDown Relay.narrow noisyCommand).1 stubborn rfl
  obtain ⟨hdealings, hresult⟩ := hfailed .connectionReset rfl
  exact ⟨hdealings, hresult rfl⟩

end Host

end LintRunner
