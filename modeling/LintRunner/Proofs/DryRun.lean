import LintRunner.Options.Reader

/-!
# Asking for a dry run as well

An argument that asks for a dry run, put in front of others, changes the options
that these spell in nothing else. Each step of the reading is the same with the
dry run asked for before it as without.
-/

namespace LintRunner

section

variable {α β ε ε' : Type} {x : Except ε α}

theorem ok_of_bind {f : α → Except ε β} {b : β} (h : x.bind f = .ok b) :
    ∃ a, x = .ok a ∧ f a = .ok b := by
  cases x with
  | error e => cases h
  | ok a => exact ⟨a, rfl, h⟩

theorem ok_of_map {f : α → β} {b : β} (h : x.map f = .ok b) : ∃ a, x = .ok a ∧ f a = b := by
  cases x with
  | error e => cases h
  | ok a => exact ⟨a, rfl, Except.ok.inj h⟩

theorem ok_of_mapError {f : ε → ε'} {a : α} (h : x.mapError f = .ok a) : x = .ok a := by
  cases x with
  | error e => cases h
  | ok a' => exact congrArg _ (Except.ok.inj h)

end

def Options.dry (o : Options) : Options :=
  { o with dryRun := true }

namespace Reading

/-- The reading if a dry run had been asked for before. -/
def dry (r : Reading) : Reading :=
  { r with options := r.options.dry, given := .dryRun :: r.given }

/-- A step of the reading never takes a dry run back, and unless it asks for one
itself it goes the same way if one has been asked for before. -/
def Indifferent {ε : Type} (step : Reading → Except ε Reading) : Prop :=
  ∀ r r', step r = .ok r' →
    (r.options.dryRun = true → r'.options.dryRun = true) ∧
    (r'.options.dryRun = true ∨ step r.dry = .ok r'.dry)

namespace Indifferent

variable {ε ε' : Type} {f g : Reading → Except ε Reading}

theorem ok : Indifferent (Except.ok : Reading → Except ε Reading) := by
  intro r r' h
  cases h
  exact ⟨id, Or.inr rfl⟩

theorem congr (hf : Indifferent f) (hfg : ∀ r, g r = f r) : Indifferent g := by
  have hsame : g = f := funext hfg
  rw [hsame]
  exact hf

theorem error (e : Reading → ε) : Indifferent fun r => .error (e r) := by
  intro r r' h
  cases h

theorem bind (hf : Indifferent f) (hg : Indifferent g) : Indifferent fun r => (f r).bind g := by
  intro r r' h
  obtain ⟨r₁, hstep, hnext⟩ := ok_of_bind h
  obtain ⟨hkeep, hdry⟩ := hf r r₁ hstep
  obtain ⟨hkeep', hdry'⟩ := hg r₁ r' hnext
  refine ⟨fun hr => hkeep' (hkeep hr), ?_⟩
  rcases hdry with hdry | hdry
  · exact Or.inl (hkeep' hdry)
  · refine hdry'.imp_right ?_
    intro hdry'
    show (f r.dry).bind g = _
    rw [hdry]
    exact hdry'

theorem mapError (hf : Indifferent f) (k : ε → ε') : Indifferent fun r => (f r).mapError k := by
  intro r r' h
  obtain ⟨hkeep, hdry⟩ := hf r r' (ok_of_mapError h)
  refine ⟨hkeep, hdry.imp_right ?_⟩
  intro hdry
  show (f r.dry).mapError k = _
  rw [hdry]
  rfl

theorem unlessEnded (hf : Indifferent f) (e : ε) :
    Indifferent fun r => if r.optionsEnded = true then .error e else f r := by
  intro r r' h
  have hended : r.dry.optionsEnded = r.optionsEnded := rfl
  simp only [hended] at h ⊢
  by_cases hr : r.optionsEnded = true
  · simp only [hr, if_true] at h
    cases h
  · simp only [hr] at h ⊢
    exact hf r r' h

end Indifferent

/-! ## The steps -/

theorem set_dry {options options' : Options} {o : Opt} {value : String}
    (h : options.set o value = .ok options') :
    (options.dryRun = true → options'.dryRun = true) ∧
      (options'.dryRun = true ∨ options.dry.set o value = .ok options'.dry) := by
  cases o with
  | buildPath =>
      have hbind : (readPath .buildPath value).bind
          (fun path => .ok { options with buildPath := some path }) = .ok options' := h
      obtain ⟨path, hpath, hset⟩ := ok_of_bind hbind
      cases hset
      refine ⟨id, Or.inr ?_⟩
      rw [Options.set, hpath]
      rfl
  | repoRoot =>
      have hbind : (readPath .repoRoot value).bind
          (fun path => .ok { options with repoRoot := path }) = .ok options' := h
      obtain ⟨path, hpath, hset⟩ := ok_of_bind hbind
      cases hset
      refine ⟨id, Or.inr ?_⟩
      rw [Options.set, hpath]
      rfl
  | jobs =>
      unfold Options.set at h ⊢
      cases hjobs : readJobs value with
      | error why =>
          rw [hjobs] at h
          cases h
      | ok n =>
          rw [hjobs] at h
          cases h
          exact ⟨id, Or.inr rfl⟩
  | verbosity =>
      unfold Options.set at h ⊢
      by_cases hdebug : (value == Verbosity.debug.name) = true
      · simp only [hdebug, if_true] at h ⊢
        cases h
        exact ⟨id, Or.inr rfl⟩
      · by_cases hinfo : (value == Verbosity.info.name) = true
        · simp only [hdebug, hinfo, if_true] at h ⊢
          cases h
          exact ⟨id, Or.inr rfl⟩
        · simp only [hdebug, hinfo] at h
          cases h
  | dryRun =>
      cases h
      exact ⟨fun _ => rfl, Or.inl rfl⟩
  | _ =>
      cases h
      exact ⟨id, Or.inr rfl⟩

theorem give_indifferent (o : Opt) (value : String) : Indifferent (·.give o value) := by
  intro r r' h
  simp only [give] at h ⊢
  by_cases hgiven : o ∈ r.given
  · rw [if_pos hgiven] at h
    cases h
  · rw [if_neg hgiven] at h
    have hbind : (r.options.set o value).bind (fun options =>
        .ok { r with options, given := r.given ++ [o], pending := .nothing }) = .ok r' := h
    obtain ⟨options, hset, hnext⟩ := ok_of_bind hbind
    cases hnext
    obtain ⟨hkeep, hdry⟩ := set_dry hset
    refine ⟨hkeep, ?_⟩
    by_cases ho : o = .dryRun
    · -- the option itself
      subst ho
      cases hset
      exact Or.inl rfl
    · refine hdry.imp_right ?_
      intro hdry
      have hgiven' : o ∉ r.dry.given := by simpa [dry, ho] using hgiven
      have hset' : r.dry.options.set o value = .ok options.dry := hdry
      rw [if_neg hgiven', hset']
      rfl

theorem settle_indifferent : Indifferent settle := by
  intro r r' h
  cases hpending : r.pending with
  | nothing =>
      simp only [settle, hpending] at h
      cases h
      refine ⟨id, Or.inr ?_⟩
      have hpending' : r.dry.pending = .nothing := hpending
      rw [settle, hpending']
  | awaiting o =>
      simp only [settle, hpending] at h
      cases h
  | holding o value =>
      simp only [settle, hpending] at h
      obtain ⟨hkeep, hdry⟩ := give_indifferent o value r r' h
      have hpending' : r.dry.pending = .holding o value := hpending
      refine ⟨hkeep, hdry.imp_right ?_⟩
      intro hdry
      rw [settle, hpending']
      exact hdry

theorem await_indifferent (o : Opt) :
    Indifferent fun r => r.settle.map ({ · with pending := .awaiting o }) := by
  intro r r' h
  obtain ⟨settled, hsettle, rfl⟩ := ok_of_map h
  obtain ⟨hkeep, hdry⟩ := settle_indifferent r settled hsettle
  refine ⟨hkeep, hdry.imp_right ?_⟩
  intro hdry
  show r.dry.settle.map _ = _
  rw [hdry]
  rfl

theorem option_indifferent (o : Opt) (attached : Option String) (long : Bool) :
    Indifferent (·.option o attached long) := by
  unfold option
  cases o.takesValue with
  | true =>
      cases attached with
      | some value =>
          exact (settle_indifferent.bind (give_indifferent o value)).mapError Stop.usage
      | none => exact (await_indifferent o).mapError Stop.usage
  | false =>
      cases attached with
      | some value => exact Indifferent.error _
      | none =>
          have hgive : Indifferent fun r : Reading =>
              if o == .help then .error (.help long) else (r.give o "").mapError Stop.usage := by
            by_cases ho : (o == .help) = true
            · simp only [ho, if_true]
              exact Indifferent.error _
            · simp only [ho]
              exact (give_indifferent o "").mapError Stop.usage
          have hsteps := (settle_indifferent.mapError Stop.usage).bind hgive
          refine hsteps.congr ?_
          intro r
          cases r.settle <;> rfl

theorem long_indifferent (text : List Char) : Indifferent (·.long text) := by
  simp only [long]
  split
  · exact option_indifferent _ _ true
  · exact Indifferent.error _

theorem short_indifferent (letter : Char) (rest : List Char) :
    Indifferent (·.short letter rest) := by
  simp only [short]
  split
  · split
    · exact option_indifferent _ none false
    · split
      · exact option_indifferent _ none false
      · exact option_indifferent _ _ false
      · exact option_indifferent _ _ false
  · exact Indifferent.error _

theorem next_indifferent (arg : String) : Indifferent (·.next arg) := by
  simp only [next]
  refine Indifferent.unlessEnded ?_ _
  split
  · intro r r' h
    cases h
    exact ⟨id, Or.inr rfl⟩
  · exact long_indifferent _
  · exact short_indifferent _ _
  · intro r r' h
    have hpending : r.dry.pending = r.pending := rfl
    simp only [hpending] at h ⊢
    split at h
    · cases h
      exact ⟨id, Or.inr rfl⟩
    · cases h

theorem foldlM_next_indifferent (args : List String) :
    Indifferent fun r => args.foldlM next r := by
  induction args with
  | nil => exact Indifferent.ok
  | cons arg args ih => exact (next_indifferent arg).bind ih

end Reading

theorem Options.ofArgs_eq (args : List String) :
    Options.ofArgs args =
      ((args.foldlM Reading.next Reading.start).bind fun r => r.settle.mapError Stop.usage).map
        (·.options) := by
  unfold Options.ofArgs
  cases args.foldlM Reading.next Reading.start with
  | error e => rfl
  | ok r =>
      simp only [bind, Except.bind]
      cases r.settle <;> rfl

/-- A dry run may be asked for in front of all other arguments. -/
theorem Options.ofArgs_dry {args : List String} {o : Options} (h : Options.ofArgs args = .ok o)
    (hreal : o.dryRun = false) : Options.ofArgs ("--dry-run" :: args) = .ok o.dry := by
  have hsteps := (Reading.foldlM_next_indifferent args).bind
    (Reading.settle_indifferent.mapError Stop.usage)
  rw [ofArgs_eq] at h
  cases hread : (args.foldlM Reading.next Reading.start).bind
      fun r => r.settle.mapError Stop.usage with
  | error e =>
      rw [hread] at h
      cases h
  | ok r =>
      rw [hread] at h
      cases h
      obtain ⟨-, hdry | hdry⟩ := hsteps _ r hread
      · rw [hdry] at hreal
        cases hreal
      · have hfirst : Reading.start.next "--dry-run" = .ok Reading.start.dry := rfl
        rw [ofArgs_eq, List.foldlM_cons, hfirst]
        exact congrArg (Except.map (·.options)) hdry

end LintRunner
