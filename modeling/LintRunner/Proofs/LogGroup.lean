import LintRunner.Proofs.Advice

/-!
# The group in the log

A run opens a group in its log before it looks for its files. The line that closes the
group comes behind the list of the files, and so it comes exactly if there is such a list,
whatever happens to the command afterwards. What goes wrong before ends the run where it
is, with the group open.
-/

namespace LintRunner

theorem Job.ok_of_bind {α β : Type} {job : Job α} {f : α → Job β} {b : β}
    (h : (job >>= f).result = .ok b) : ∃ a, job.result = .ok a ∧ (f a).result = .ok b := by
  rw [result_bind] at h
  exact LintRunner.ok_of_bind h

theorem mem_printed {text : String} {events : List Event} :
    text ∈ printed events ↔ .line text ∈ events := by
  unfold printed
  rw [List.mem_filterMap]
  constructor
  · rintro ⟨e, he, hline⟩
    cases e with
    | line text' =>
        cases hline
        exact he
    | _ => cases hline
  · intro htext
    exact ⟨_, htext, rfl⟩

/-- The event prints no line of its own. -/
def Event.Unprinted : Event → Prop
  | .line _ => False
  | _ => True

theorem printed_of_unprinted {events : List Event} (h : ∀ e ∈ events, e.Unprinted) :
    printed events = [] := by
  rw [printed, List.filterMap_eq_nil_iff]
  intro e he
  have hunprinted := h e he
  cases e with
  | line text => exact hunprinted.elim
  | _ => rfl

theorem printed_of_isRecord {events : List Event} (h : ∀ e ∈ events, e.IsRecord) :
    printed events = [] := by
  apply printed_of_unprinted
  intro e he
  have hrecord := h e he
  cases e with
  | record r => trivial
  | _ => exact hrecord.elim

/-- Behind each line that opens the group of a run there is one line that closes it, and no
other one, and nothing is started between the two. -/
def GroupsClosed (events : List Event) : Prop :=
  ∀ front behind, events = front ++ .line Host.groupStart :: behind →
    ∃ inside outside, behind = inside ++ .line Host.groupEnd :: outside ∧
      Host.groupEnd ∉ printed inside ∧ Host.groupEnd ∉ printed outside ∧ starts inside = []

namespace Host

variable {h : Host} {o : Options}

/-- All goes well that the group is for: a repository with a work tree is found, what is
committed there can be listed, and the ignore file can be read or is missing. -/
def CanSelect (h : Host) (o : Options) : Prop :=
  ∃ checkout workTree committed patterns,
    h.discover (o.repoRoot.absolutize h.cwdPath) = .ok checkout ∧
    checkout.workTree? = some workTree ∧
    checkout.repository.committedFiles.2 = .ok committed ∧
    h.ignorePatterns (workTree.normalize.join (.ofText o.ignoreFile)) = .ok patterns

/-! ## What is selected -/

theorem ignorePatterns_of_list {path : Path} {list : IgnoreList}
    (hlist : (h.readIgnoreList path).result = .ok list) :
    ∃ patterns, h.ignorePatterns path = .ok patterns := by
  unfold readIgnoreList at hlist
  unfold ignorePatterns
  cases hread : h.files.readText h.cwd path with
  | ok content => exact ⟨_, rfl⟩
  | error e =>
      rw [hread] at hlist
      cases e with
      | system e =>
          cases e with
          | notFound => exact ⟨_, rfl⟩
          | _ => cases hlist
      | _ => cases hlist

theorem canSelect_iff (h : Host) (o : Options) :
    h.CanSelect o ↔ ∃ s, (h.select o).result = .ok s := by
  constructor
  · rintro ⟨checkout, workTree, committed, patterns, hdiscover, hworkTree, hcommitted, hpatterns⟩
    exact ⟨_, (select_gives (p := fun _ => True) hdiscover hworkTree hcommitted hpatterns).result⟩
  · rintro ⟨s, hs⟩
    unfold select at hs
    obtain ⟨-, -, hs⟩ := Job.ok_of_bind hs
    obtain ⟨checkout, hdiscover, hs⟩ := Job.ok_of_bind hs
    split at hs
    · cases hs
    · rename_i workTree hworkTree
      obtain ⟨-, -, hs⟩ := Job.ok_of_bind hs
      obtain ⟨-, -, hs⟩ := Job.ok_of_bind hs
      obtain ⟨committed, hcommitted, hs⟩ := Job.ok_of_bind hs
      obtain ⟨list, hlist, -⟩ := Job.ok_of_bind hs
      obtain ⟨patterns, hpatterns⟩ := ignorePatterns_of_list hlist
      exact ⟨checkout, workTree, committed, patterns, Job.of_result_ofExcept hdiscover, hworkTree,
        Job.of_result_ofExcept hcommitted, hpatterns⟩

/-! ## Lines behind the group -/

theorem unprinted_records (records : List Log.Record) :
    ∀ e ∈ (Job.logAll records).events, e.Unprinted :=
  Job.forall_events_logAll fun _ _ => trivial

theorem unprinted_tell {events : List Event} (hevents : ∀ e ∈ events, e.Unprinted) :
    ∀ e ∈ (Job.tell events).events, e.Unprinted :=
  hevents

theorem unprinted_fail {α : Type} (e : RunError) :
    ∀ event ∈ (Job.fail e : Job α).events, event.Unprinted :=
  fun _ hevent => absurd hevent List.not_mem_nil

theorem unprinted_pure {α : Type} (a : α) : ∀ e ∈ (Pure.pure a : Job α).events, e.Unprinted :=
  fun _ he => absurd he List.not_mem_nil

theorem unprinted_map {α : Type} {f : α → Event} (hf : ∀ a, (f a).Unprinted) (as : List α) :
    ∀ e ∈ as.map f, e.Unprinted := by
  intro e he
  obtain ⟨a, -, rfl⟩ := List.mem_map.mp he
  exact hf a

theorem unprinted_start (c : Command) : ∀ e ∈ (h.start c).events, e.Unprinted := by
  cases hlaunch : h.launch c with
  | ok b =>
      rw [start_ok hlaunch]
      intro e he
      rcases List.mem_pair.mp he with rfl | rfl <;> trivial
  | error e =>
      rw [start_error hlaunch]
      intro e he
      obtain rfl := List.mem_singleton.mp he
      trivial

theorem unprinted_wait (b : Behaviour) : ∀ e ∈ (wait b).events, e.Unprinted := by
  unfold wait
  refine Job.forall_events_bind (unprinted_tell (by simp [Event.Unprinted])) ?_
  intro _
  split
  · exact unprinted_fail _
  · exact unprinted_pure ()

theorem unprinted_kill (b : Behaviour) : ∀ e ∈ (kill b).events, e.Unprinted := by
  unfold kill
  refine Job.forall_events_bind (unprinted_tell (by simp [Event.Unprinted])) ?_
  intro _
  split
  · exact unprinted_records _
  · exact unprinted_pure ()

theorem unprinted_passThrough (c : Command) : ∀ e ∈ (h.passThrough c).events, e.Unprinted := by
  unfold passThrough
  refine Job.forall_events_bind (unprinted_start c) ?_
  intro b
  refine Job.forall_events_bind (unprinted_map ?_ b.writes) ?_
  · exact fun _ => trivial
  intro _
  refine Job.forall_events_bind (unprinted_tell (by simp [Event.Unprinted])) ?_
  intro _
  split
  · exact unprinted_fail _
  · split
    · exact unprinted_pure _
    · refine Job.forall_events_bind (unprinted_records _) ?_
      intro _
      exact unprinted_pure _

theorem unprinted_checkOutput {σ : Type} [Relay.Writer σ] (sink : σ) (c : Command) :
    ∀ e ∈ (h.checkOutput sink c).events, e.Unprinted := by
  unfold checkOutput checkPipe
  refine Job.forall_events_bind (unprinted_start c) ?_
  intro b
  refine Job.forall_events_bind (unprinted_map ?_ _) ?_
  · exact fun _ => trivial
  intro _
  split
  · refine Job.forall_events_bind (unprinted_kill b) ?_
    intro _
    refine Job.forall_events_bind (unprinted_wait b) ?_
    intro _
    exact unprinted_fail _
  · refine Job.forall_events_bind (unprinted_wait b) ?_
    intro _
    refine Job.forall_events_bind (unprinted_records _) ?_
    intro _
    exact unprinted_pure _

theorem unprinted_orchestrate (sink : Relay.Sink) (o : Options) (c : Command) :
    ∀ e ∈ (h.orchestrate sink o c).events, e.Unprinted := by
  unfold orchestrate
  split
  · exact unprinted_checkOutput sink c
  · exact unprinted_passThrough c

theorem printed_conclude (sink : Relay.Sink) (o : Options) (words : List String) (root : Path) :
    ∀ text ∈ printed (h.conclude sink o words root).events,
      text = String.intercalate " " words := by
  unfold conclude
  split
  · intro text htext
    exact List.mem_singleton.mp htext
  · split
    · intro text htext
      cases htext
    · rw [printed_of_unprinted (unprinted_orchestrate sink o _)]
      intro text htext
      cases htext

theorem dash_mem_vector (o : Options) (root : Path) (files : List String) :
    '-' ∈ (String.intercalate " " (h.vector o root files)).toList := by
  unfold vector
  simp only [List.cons_append]
  rw [String.toList_intercalate, List.map_cons, List.map_cons, List.map_cons,
    List.intercalate_cons_cons, List.intercalate_cons_cons]
  refine List.mem_append_right _ (List.mem_append_left _ (List.mem_append_left _ ?_))
  decide

/-! ## The group of a run -/

/-- Behind the selection the only line is the command of a dry run. -/
theorem printed_run_of_selected (sink : Relay.Sink) {s : Selection}
    (hs : (h.select o).result = .ok s) :
    ∃ behind, (h.run sink o).events = (h.select o).events ++ behind ∧
      ∀ text ∈ printed behind, '-' ∈ text.toList := by
  obtain ⟨asides, hasides, hprepare⟩ := prepare_of_selected (h.threshold o) hs
  refine ⟨asides ++ (h.conclude sink o (h.vector o s.root s.files) s.root).events, ?_, ?_⟩
  · rw [run_eq_bind, Job.bind_eq hprepare]
    exact List.append_assoc _ _ _
  · intro text htext
    rw [printed_append, printed_of_asides hasides, List.nil_append] at htext
    rw [printed_conclude sink o _ _ text htext]
    exact dash_mem_vector o _ _

theorem run_of_not_selected (sink : Relay.Sink) {e : RunError}
    (hs : (h.select o).result = .error e) : h.run sink o = ⟨(h.select o).events, .error e⟩ := by
  have hprepare := prepare_of_not_selected (h.threshold o) hs
  rw [run_of_failed sink (by rw [hprepare]), hprepare]

theorem printed_of_not_selected {e : RunError} (hs : (h.select o).result = .error e) :
    printed (h.select o).events = [groupStart] := by
  obtain ⟨inside, hinside, hevents⟩ := events_select h o
  rw [hevents, hs, Job.closing, List.append_nil]
  exact congrArg (groupStart :: ·) (printed_of_isRecord hinside)

/-- A run opens one group, and closes it if it comes to a selection. -/
theorem events_run (h : Host) (sink : Relay.Sink) (o : Options) :
    ∃ inside behind, (∀ e ∈ inside, e.IsRecord) ∧ (∀ text ∈ printed behind, '-' ∈ text.toList) ∧
      (h.run sink o).events =
        .line groupStart :: (inside ++ Job.closing (h.select o).result ++ behind) := by
  obtain ⟨inside, hinside, hevents⟩ := events_select h o
  cases hs : (h.select o).result with
  | ok s =>
      obtain ⟨behind, hrun, hbehind⟩ := printed_run_of_selected sink hs
      refine ⟨inside, behind, hinside, hbehind, ?_⟩
      rw [hrun, hevents, hs]
      rfl
  | error e =>
      refine ⟨inside, [], hinside, fun text htext => absurd htext List.not_mem_nil, ?_⟩
      rw [run_of_not_selected sink hs, List.append_nil, ← hs]
      exact hevents

theorem printed_closed {inside behind : List Event} (hinside : ∀ e ∈ inside, e.IsRecord)
    (result : Except RunError Selection) :
    printed (inside ++ Job.closing result ++ behind) =
      printed (Job.closing result) ++ printed behind := by
  rw [printed_append, printed_append, printed_of_isRecord hinside, List.nil_append]

theorem groupStart_not_mem_closing (result : Except RunError Selection) :
    groupStart ∉ printed (Job.closing result) := by
  cases result with
  | ok s => exact fun hmem => absurd (List.mem_singleton.mp hmem) (by decide)
  | error e => exact List.not_mem_nil

/-- Where a group is opened only once, it is that one that has to be closed. -/
theorem groupsClosed_cons_iff {rest : List Event} (honce : groupStart ∉ printed rest) :
    GroupsClosed (.line groupStart :: rest) ↔
      ∃ inside outside, rest = inside ++ .line groupEnd :: outside ∧
        groupEnd ∉ printed inside ∧ groupEnd ∉ printed outside ∧ starts inside = [] := by
  constructor
  · intro hclosed
    exact hclosed [] rest rfl
  · intro hrest front behind hfront
    cases front with
    | nil =>
        obtain rfl := (List.cons.inj hfront).2
        exact hrest
    | cons e front =>
        refine absurd (mem_printed.mpr ?_) honce
        rw [(List.cons.inj hfront).2]
        exact List.mem_append_right _ List.mem_cons_self

/-- A run opens a group first, and no other one. The group is closed, once and before
anything is started, exactly if there are files to go on with, whatever the rest of the run
is like. Otherwise the run ends with the error of the step that failed, with the group open
and nothing started. -/
theorem groupsClosed_run_iff (h : Host) (sink : Relay.Sink) (o : Options) :
    (∃ rest, (h.run sink o).events = .line groupStart :: rest ∧ groupStart ∉ printed rest) ∧
    (GroupsClosed (h.run sink o).events ↔ h.CanSelect o) ∧
    (¬ h.CanSelect o → ∃ e, (h.select o).result = .error e ∧
      (h.run sink o).result = .error e ∧ printed (h.run sink o).events = [groupStart] ∧
      starts (h.run sink o).events = []) := by
  obtain ⟨inside, behind, hinside, hbehind, hevents⟩ := events_run h sink o
  have hquiet : ∀ text : String, '-' ∉ text.toList → text ∉ printed behind :=
    fun text hdash htext => hdash (hbehind text htext)
  have honce : groupStart ∉ printed (inside ++ Job.closing (h.select o).result ++ behind) := by
    rw [printed_closed hinside]
    exact List.not_mem_append (groupStart_not_mem_closing _) (hquiet groupStart (by decide))
  refine ⟨⟨_, hevents, honce⟩, ?_, ?_⟩
  · rw [hevents, groupsClosed_cons_iff honce, canSelect_iff]
    cases hs : (h.select o).result with
    | ok s =>
        refine iff_of_true ⟨inside, behind, by simp [Job.closing], ?_, ?_, ?_⟩ ⟨s, rfl⟩
        · rw [printed_of_isRecord hinside]
          exact List.not_mem_nil
        · exact hquiet groupEnd (by decide)
        · exact starts_of_isRecord hinside
    | error e =>
        refine iff_of_false ?_ (by simp)
        rintro ⟨inside', outside, hrest, -⟩
        -- no line of the whole run closes a group
        refine hquiet groupEnd (by decide) ?_
        have hmem : groupEnd ∈ printed (inside' ++ .line groupEnd :: outside) :=
          mem_printed.mpr (List.mem_append_right _ List.mem_cons_self)
        rw [← hrest, printed_closed hinside] at hmem
        exact hmem
  · intro hcannot
    rw [canSelect_iff] at hcannot
    cases hs : (h.select o).result with
    | ok s => exact absurd ⟨s, hs⟩ hcannot
    | error e =>
        refine ⟨e, rfl, ?_, ?_, ?_⟩
        · rw [run_of_not_selected sink hs]
        · rw [run_of_not_selected sink hs]
          exact printed_of_not_selected hs
        · rw [run_of_not_selected sink hs]
          exact starts_select h o

/-! From a directory that belongs to no repository, the line that opens the group is the
whole log. -/

def unversioned : Host :=
  { demo with repositories := fun _ => none }

theorem group_left_open_of_unversioned :
    unversioned.run {} {} = ⟨[.line groupStart], .error (.git (.notFound (.ofText "/w")))⟩ ∧
      ¬ GroupsClosed (unversioned.run {} {}).events := by
  have hrun : unversioned.run {} {} =
      ⟨[.line groupStart], .error (.git (.notFound (.ofText "/w")))⟩ := rfl
  refine ⟨hrun, ?_⟩
  rw [hrun]
  intro hclosed
  obtain ⟨inside, outside, hbehind, -⟩ := hclosed [] [] rfl
  exact List.append_ne_nil_of_right_ne_nil inside (List.cons_ne_nil _ outside) hbehind.symm

end Host

end LintRunner
