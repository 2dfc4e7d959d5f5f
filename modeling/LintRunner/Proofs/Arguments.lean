import LintRunner.Proofs.DryRun

/-!
# Options and the arguments that spell them

A record of options is spelled by one argument for each option that it chooses,
in any order, with one dash or two in front of a long name; an option at its
default may be left out. Reading the arguments gives the record back, whatever
the values look like, and what any accepted arguments give can be spelled so.
-/

namespace LintRunner

/-! ## Numbers of jobs -/

/-- Reading digits goes on from the number that stands before them. -/
theorem readDigits_eq (digits : List Char) (hdigits : ∀ c ∈ digits, c.isDigit = true) :
    ∀ n : Nat, Nat.ofDigitChars 10 digits n < signedBound →
      readDigits false n digits = .ok (Nat.ofDigitChars 10 digits n : Int) := by
  induction digits with
  | nil =>
      intro n _
      rfl
  | cons c rest ih =>
      intro n hn
      have hc : c.isDigit = true := hdigits c List.mem_cons_self
      rw [Nat.ofDigitChars_cons] at hn ⊢
      -- the number so far is no larger than the one that the digits end with
      have hle : n * 10 + (c.toNat - 48) ≤
          Nat.ofDigitChars 10 rest (10 * n + (c.toNat - '0'.toNat)) := by
        rw [Nat.ofDigitChars_eq_ofDigitChars_zero]
        have hpos : 0 < 10 ^ rest.length := Nat.pow_pos (by decide)
        have := Nat.le_mul_of_pos_left (10 * n + (c.toNat - '0'.toNat)) hpos
        have : '0'.toNat = 48 := rfl
        omega
      have hsmall : ¬ signedBound ≤ n * 10 + (c.toNat - 48) := by omega
      have hrest := ih (fun c' hc' => hdigits c' (List.mem_cons_of_mem _ hc')) _ hn
      rw [readDigits, if_neg (by simp [hc])]
      simp only [Bool.false_eq_true, if_false, if_neg hsmall]
      rw [Nat.mul_comm n 10]
      exact hrest

theorem readInteger_toString (n : Nat) (hn : n < signedBound) :
    readInteger (toString n).toList = .ok (n : Int) := by
  have hlist : (toString n).toList = Nat.toDigits 10 n := by
    rw [Nat.toString_eq_repr, Nat.toList_repr]
  have hdigits : ∀ c ∈ Nat.toDigits 10 n, c.isDigit = true := fun c hc =>
    Nat.isDigit_of_mem_toDigits (by decide) (by decide) hc
  have hread := readDigits_eq _ hdigits 0 (by rwa [Nat.ofDigitChars_ten_toDigits])
  rw [Nat.ofDigitChars_ten_toDigits] at hread
  rw [hlist]
  unfold readInteger
  split
  · rename_i h
    exact absurd h Nat.toDigits_ne_nil
  · rename_i h
    have := hdigits '+' (by rw [h]; exact List.mem_cons_self)
    cases this
  · rename_i h
    have := hdigits '-' (by rw [h]; exact List.mem_cons_self)
    cases this
  · rename_i h
    have := hdigits '+' (by rw [h]; exact List.mem_cons_self)
    cases this
  · rename_i h
    have := hdigits '-' (by rw [h]; exact List.mem_cons_self)
    cases this
  · exact hread

theorem readJobs_toString (n : UInt32) : readJobs (toString n.toNat) = .ok n := by
  have hlt : n.toNat < 2 ^ 32 := n.toNat_lt
  have hsigned : n.toNat < signedBound := by
    unfold signedBound
    omega
  have hrange : (decide (0 ≤ (n.toNat : Int)) && decide ((n.toNat : Int) < jobsBound)) = true := by
    rw [Bool.and_eq_true, decide_eq_true_iff, decide_eq_true_iff]
    have hbound : (jobsBound : Int) = 2 ^ 32 := rfl
    omega
  simp only [readJobs, readInteger_toString n.toNat hsigned, bind, Except.bind]
  rw [if_pos hrange, Int.toNat_natCast, UInt32.ofNat_toNat]
  rfl

namespace Options

/-! ## One option of a record -/

/-- Both records choose the same for the option. -/
def Agree (a b : Options) : Opt → Prop
  | .buildPath => a.buildPath = b.buildPath
  | .jobs => a.jobs = b.jobs
  | .exportFixes => a.exportFixes = b.exportFixes
  | .orchestrator => a.orchestrator = b.orchestrator
  | .linter => a.linter = b.linter
  | .fix => a.fix = b.fix
  | .checkOutput => a.checkOutput = b.checkOutput
  | .verbosity => a.verbosity = b.verbosity
  | .repoRoot => a.repoRoot = b.repoRoot
  | .ignoreFile => a.ignoreFile = b.ignoreFile
  | .clangVersion => a.clangVersion = b.clangVersion
  | .dryRun => a.dryRun = b.dryRun
  | .help => True

/-- The record `a` with what `b` chooses for one option. -/
def adopt (a b : Options) : Opt → Options
  | .buildPath => { a with buildPath := b.buildPath }
  | .jobs => { a with jobs := b.jobs }
  | .exportFixes => { a with exportFixes := b.exportFixes }
  | .orchestrator => { a with orchestrator := b.orchestrator }
  | .linter => { a with linter := b.linter }
  | .fix => { a with fix := b.fix }
  | .checkOutput => { a with checkOutput := b.checkOutput }
  | .verbosity => { a with verbosity := b.verbosity }
  | .repoRoot => { a with repoRoot := b.repoRoot }
  | .ignoreFile => { a with ignoreFile := b.ignoreFile }
  | .clangVersion => { a with clangVersion := b.clangVersion }
  | .dryRun => { a with dryRun := b.dryRun }
  | .help => a

/-- The text stands for what the record chooses for the option. A flag has no
text, and is chosen if it is set. -/
def Holds (options : Options) (o : Opt) (value : String) : Prop :=
  match o with
  | .buildPath => value ≠ "" ∧ options.buildPath = some (.ofText value)
  | .jobs => ∃ n, options.jobs = some n ∧ value = toString n.toNat
  | .exportFixes => options.exportFixes = some value
  | .orchestrator => options.orchestrator = value
  | .linter => options.linter = value
  | .fix => options.fix = true
  | .checkOutput => options.checkOutput = true
  | .verbosity => options.verbosity.name = value
  | .repoRoot => value ≠ "" ∧ options.repoRoot = .ofText value
  | .ignoreFile => options.ignoreFile = value
  | .clangVersion => options.clangVersion = value
  | .dryRun => options.dryRun = true
  | .help => False

theorem eq_of_agree {a b : Options} (h : ∀ o, Agree a b o) : a = b := by
  cases a
  cases b
  rw [mk.injEq]
  exact ⟨h .buildPath, h .jobs, h .exportFixes, h .orchestrator, h .linter, h .fix,
    h .checkOutput, h .verbosity, h .repoRoot, h .ignoreFile, h .clangVersion, h .dryRun⟩

theorem agree_adopt {a b : Options} {o o' : Opt} (h : o' = o ∨ Agree a b o') :
    Agree (a.adopt b o) b o' := by
  cases o <;> cases o' <;> simp_all [adopt, Agree]

/-- Options that were adopted one after the other stay so. -/
theorem agree_foldl_adopt {b : Options} {o : Opt} (opts : List Opt) :
    ∀ {a : Options}, o ∈ opts ∨ Agree a b o → Agree (opts.foldl (adopt · b) a) b o := by
  induction opts with
  | nil =>
      rintro a (h | h)
      · cases h
      · exact h
  | cons o' opts ih =>
      rintro a (h | h)
      · rcases List.mem_cons.mp h with rfl | h
        · exact ih (Or.inr (agree_adopt (Or.inl rfl)))
        · exact ih (Or.inl h)
      · exact ih (Or.inr (agree_adopt (Or.inr h)))

theorem readPath_ofText (o : Opt) {value : String} (h : value ≠ "") :
    readPath o value = .ok (.ofText value) := by
  have hempty : ¬ value.isEmpty = true := by simpa using h
  rw [readPath, if_neg hempty]

/-- A value that a record holds is set as the record has it. -/
theorem set_of_holds {options : Options} {o : Opt} {value : String}
    (h : options.Holds o value) (base : Options) :
    base.set o value = .ok (base.adopt options o) := by
  cases o with
  | buildPath =>
      obtain ⟨hne, hpath⟩ := h
      rw [set, readPath_ofText _ hne, adopt, hpath]
      rfl
  | repoRoot =>
      obtain ⟨hne, hpath⟩ := h
      rw [set, readPath_ofText _ hne, adopt, hpath]
      rfl
  | jobs =>
      obtain ⟨n, hjobs, rfl⟩ := h
      rw [set, readJobs_toString, adopt, hjobs]
  | verbosity =>
      obtain rfl : options.verbosity.name = value := h
      rw [adopt]
      cases options.verbosity <;> rfl
  | help => cases h
  | _ =>
      simp only [Holds] at h
      simp only [set, adopt, h]

end Options

/-! ## Arguments -/

/-- The argument gives the option the value that the record holds. -/
inductive Spells (options : Options) : Opt → String → Prop
  | short {o : Opt} {letter : Char} {value : String} :
      o.long? = none → o.short? = some letter → options.Holds o value →
      Spells options o s!"-{letter}={value}"
  | long {o : Opt} {name value dashes : String} :
      o.long? = some name → o.takesValue = true → dashes ∈ ["-", "--"] → options.Holds o value →
      Spells options o s!"{dashes}{name}={value}"
  | flag {o : Opt} {name dashes : String} :
      o.long? = some name → o.takesValue = false → dashes ∈ ["-", "--"] → options.Holds o "" →
      Spells options o s!"{dashes}{name}"

/-- The arguments give each option at most once, as the record holds it, and
leave out only options that the record has at their defaults. -/
def Options.SpelledBy (options : Options) (args : List String) : Prop :=
  ∃ given : List (Opt × String), given.map (·.2) = args ∧ (given.map (·.1)).Nodup ∧
    (∀ g ∈ given, Spells options g.1 g.2) ∧
    ∀ o ∉ given.map (·.1), Options.Agree {} options o

theorem Opt.mem_longNames {o : Opt} {name : String} (h : o.long? = some name) :
    name ∈ longNames := by
  refine List.mem_filterMap.mpr ⟨o, ?_, h⟩
  cases o <;> decide

theorem Opt.ofLong?_long {o : Opt} {name : String} (h : o.long? = some name) :
    ofLong? name = some o := by
  cases o <;> cases h <;> rfl

/-- A long name starts with no dash and holds no `=`. -/
theorem Opt.long_name {o : Opt} {name : String} (h : o.long? = some name) :
    (∃ c rest, name.toList = c :: rest ∧ c ≠ '-') ∧ ∀ c ∈ name.toList, (c != '=') = true := by
  cases o <;> cases h <;> exact ⟨⟨_, _, rfl, by decide⟩, List.all_eq_true.mp rfl⟩

/-- What may follow a long name: nothing, or a value behind `=`. -/
def afterName : Option String → List Char
  | none => []
  | some value => '=' :: value.toList

theorem takeWhile_name {name : List Char} (h : ∀ c ∈ name, (c != '=') = true)
    (attached : Option String) : (name ++ afterName attached).takeWhile (· != '=') = name := by
  rw [List.takeWhile_append_of_pos h]
  cases attached <;> simp [afterName]

theorem dropWhile_name {name : List Char} (h : ∀ c ∈ name, (c != '=') = true)
    (attached : Option String) :
    (name ++ afterName attached).dropWhile (· != '=') = afterName attached := by
  rw [List.dropWhile_append_of_pos h]
  cases attached <;> simp [afterName]

section

variable {o : Opt} {name dashes : String}

/-- One dash in front of a long name becomes two. -/
theorem doubleDash_long (hname : o.long? = some name) (hdashes : dashes ∈ ["-", "--"])
    {arg : String} {attached : Option String}
    (harg : arg.toList = dashes.toList ++ (name.toList ++ afterName attached)) :
    (doubleDash arg).toList = '-' :: '-' :: (name.toList ++ afterName attached) := by
  obtain ⟨⟨c, rest, hlist, hc⟩, heq⟩ := Opt.long_name hname
  rcases List.mem_cons.mp hdashes with rfl | hdashes
  · -- one dash: what stands before the value is a known name
    have hknown : Opt.longNames.contains
        (String.ofList ((name.toList ++ afterName attached).takeWhile (· != '='))) = true := by
      rw [takeWhile_name heq, String.ofList_toList]
      exact List.contains_iff_mem.mpr (Opt.mem_longNames hname)
    have harg' : arg.toList = '-' :: (name.toList ++ afterName attached) := harg
    unfold doubleDash
    rw [harg']
    split
    · rename_i h
      rw [hlist] at h
      cases h
      exact absurd rfl hc
    · rename_i h
      cases h
      rw [if_pos hknown, String.toList_append, harg']
      rfl
    · rename_i h
      exact absurd rfl (h _)
  · -- two dashes are left as they are
    obtain rfl := List.mem_singleton.mp hdashes
    have harg' : arg.toList = '-' :: '-' :: (name.toList ++ afterName attached) := harg
    unfold doubleDash
    rw [harg']
    exact harg'

namespace Reading

variable {r : Reading}

/-- Behind two dashes a long name is read as its option. -/
theorem next_long (hname : o.long? = some name) (hended : r.optionsEnded = false)
    {arg : String} {attached : Option String}
    (harg : arg.toList = '-' :: '-' :: (name.toList ++ afterName attached)) :
    r.next arg = r.option o attached true := by
  obtain ⟨⟨c, rest, hlist, -⟩, heq⟩ := Opt.long_name hname
  have hnext : r.next arg = r.long (name.toList ++ afterName attached) := by
    unfold next
    rw [harg, hended, hlist]
    rfl
  rw [hnext, long, takeWhile_name heq, dropWhile_name heq, String.ofList_toList,
    Opt.ofLong?_long hname]
  cases attached with
  | none => rfl
  | some value =>
      simp only [afterName, String.ofList_toList]

/-- A value behind a letter and `=` is read as given to the option. -/
theorem next_short {letter : Char} {value : String} (hletter : o.short? = some letter)
    (hvalue : o.takesValue = true) (hended : r.optionsEnded = false) {arg : String}
    (harg : arg.toList = '-' :: letter :: '=' :: value.toList) :
    r.next arg = r.option o (some value) false := by
  have hnext : r.next arg = r.short letter ('=' :: value.toList) := by
    unfold next
    rw [harg, hended]
    cases o <;> cases hletter <;> rfl
  have hshort : Opt.ofShort? letter = some o := by
    cases o <;> cases hletter <;> rfl
  rw [hnext, short, hshort]
  simp only [hvalue, String.ofList_toList, Bool.not_true, Bool.false_eq_true, if_false]

end Reading

end

namespace Reading

/-- The reading once more options were given as a record holds them. -/
def adopt (r : Reading) (options : Options) (opts : List Opt) : Reading :=
  { r with options := opts.foldl (Options.adopt · options) r.options, given := r.given ++ opts }

theorem give_of_holds {r : Reading} {options : Options} {o : Opt} {value : String}
    (hpending : r.pending = .nothing) (hnew : o ∉ r.given) (hvalue : options.Holds o value) :
    r.give o value = .ok (r.adopt options [o]) := by
  rw [give, if_neg hnew, Options.set_of_holds hvalue]
  show Except.ok { r with
    options := r.options.adopt options o, given := r.given ++ [o], pending := .nothing } = _
  rw [← hpending]
  rfl

/-- With no value open, an attached value is given to its option. -/
theorem option_value {r : Reading} {o : Opt} (hpending : r.pending = .nothing)
    (htakes : o.takesValue = true) (value : String) (long : Bool) :
    r.option o (some value) long = (r.give o value).mapError .usage := by
  have hsettle : r.settle = .ok r := by rw [settle, hpending]
  unfold option
  rw [htakes, hsettle]
  rfl

/-- With no value open, a flag is set. -/
theorem option_flag {r : Reading} {o : Opt} (hpending : r.pending = .nothing)
    (htakes : o.takesValue = false) (hhelp : o ≠ .help) (long : Bool) :
    r.option o none long = (r.give o "").mapError .usage := by
  have hsettle : r.settle = .ok r := by rw [settle, hpending]
  unfold option
  rw [htakes, hsettle]
  show (if (o == .help) = true then _ else _) = _
  rw [if_neg (by simpa using hhelp)]

/-- An argument that spells an option makes the reading adopt it. -/
theorem next_of_spells {r : Reading} {options : Options} {o : Opt} {arg : String}
    (hpending : r.pending = .nothing) (hended : r.optionsEnded = false) (hnew : o ∉ r.given)
    (harg : Spells options o arg) : r.next (doubleDash arg) = .ok (r.adopt options [o]) := by
  cases harg with
  | @short letter value hlong hshort hvalue =>
      have hlist : (s!"-{letter}={value}").toList = '-' :: letter :: '=' :: value.toList := by
        have hletter : (toString letter).toList = [letter] := String.toList_singleton letter
        simp only [String.toList_append, hletter]
        rfl
      -- no long name is a single letter
      have hsame : doubleDash s!"-{letter}={value}" = s!"-{letter}={value}" := by
        unfold doubleDash
        rw [hlist]
        cases o <;> cases hlong <;> cases hshort <;> rfl
      have htakes : o.takesValue = true := by
        cases o <;> first | rfl | cases hlong
      rw [hsame, next_short hshort htakes hended hlist, option_value hpending htakes,
        give_of_holds hpending hnew hvalue]
      rfl
  | @long name value dashes hname htakes hdashes hvalue =>
      have hlist : (s!"{dashes}{name}={value}").toList =
          dashes.toList ++ (name.toList ++ afterName (some value)) := by
        simp only [String.toList_append, List.append_assoc]
        rfl
      rw [next_long hname hended (doubleDash_long hname hdashes hlist),
        option_value hpending htakes, give_of_holds hpending hnew hvalue]
      rfl
  | @flag name dashes hname htakes hdashes hvalue =>
      have hlist : (s!"{dashes}{name}").toList =
          dashes.toList ++ (name.toList ++ afterName none) := by
        simp only [String.toList_append, afterName, List.append_nil]
        rfl
      have hhelp : o ≠ .help := by
        rintro rfl
        cases hvalue
      rw [next_long hname hended (doubleDash_long hname hdashes hlist),
        option_flag hpending htakes hhelp, give_of_holds hpending hnew hvalue]
      rfl

theorem foldlM_of_spells {options : Options} (given : List (Opt × String)) :
    ∀ {r : Reading}, r.pending = .nothing → r.optionsEnded = false →
      (r.given ++ given.map (·.1)).Nodup → (∀ g ∈ given, Spells options g.1 g.2) →
      (doubleDashes (given.map (·.2))).foldlM next r = .ok (r.adopt options (given.map (·.1))) := by
  induction given with
  | nil =>
      intro r _ _ _ _
      show Except.ok r = .ok { r with given := r.given ++ [] }
      rw [List.append_nil]
  | cons g given ih =>
      intro r hpending hended hnodup hspells
      have hnew : g.1 ∉ r.given := by
        intro hmem
        exact (List.nodup_append.mp hnodup).2.2 _ hmem _ List.mem_cons_self rfl
      have hfirst : r.next (doubleDash g.2) = .ok (r.adopt options [g.1]) :=
        next_of_spells hpending hended hnew (hspells g List.mem_cons_self)
      have hnodup' : ((r.adopt options [g.1]).given ++ given.map (·.1)).Nodup := by
        show ((r.given ++ [g.1]) ++ given.map (·.1)).Nodup
        rwa [List.append_assoc]
      have hrest := ih (r := r.adopt options [g.1]) hpending hended hnodup'
        fun g' hg' => hspells g' (List.mem_cons_of_mem _ hg')
      have hadopt : (r.adopt options [g.1]).adopt options (given.map (·.1)) =
          r.adopt options ((g :: given).map (·.1)) := by
        simp [adopt]
      rw [← hadopt, ← hrest]
      show (r.next (doubleDash g.2) >>= fun r => (doubleDashes (given.map (·.2))).foldlM next r) = _
      rw [hfirst]
      rfl

end Reading

/-- Arguments that spell a record are read as that record. -/
theorem Options.ofArgs_of_spelledBy {options : Options} {args : List String}
    (h : options.SpelledBy args) : Options.ofArgs (doubleDashes args) = .ok options := by
  obtain ⟨given, rfl, hnodup, hspells, hdefault⟩ := h
  have hread := Reading.foldlM_of_spells (r := Reading.start) given rfl rfl hnodup hspells
  -- what was not given is at its default, in the record as well
  have hall : (given.map (·.1)).foldl (Options.adopt · options) {} = options := by
    refine Options.eq_of_agree ?_
    intro o
    apply Options.agree_foldl_adopt
    by_cases ho : o ∈ given.map (·.1)
    · exact Or.inl ho
    · exact Or.inr (hdefault o ho)
  rw [Options.ofArgs_eq, hread]
  exact congrArg Except.ok hall

/-! ## What is read can be spelled -/

/-- The paths of the record are texts that are not empty. -/
structure Options.Proper (options : Options) : Prop where
  buildPath : ∀ path, options.buildPath = some path → ∃ value, value ≠ "" ∧ path = .ofText value
  repoRoot : ∃ value, value ≠ "" ∧ options.repoRoot = .ofText value

theorem Options.proper_default : Options.Proper {} := by
  refine ⟨?_, ".", by decide, rfl⟩
  intro path h
  cases h

theorem readPath_ok {o : Opt} {value : String} {path : Path} (h : readPath o value = .ok path) :
    value ≠ "" ∧ path = .ofText value := by
  unfold readPath at h
  split at h
  · cases h
  · rename_i hempty
    cases h
    refine ⟨?_, rfl⟩
    rintro rfl
    exact hempty rfl

theorem Options.proper_set {options options' : Options} {o : Opt} {value : String}
    (hproper : options.Proper) (h : options.set o value = .ok options') : options'.Proper := by
  cases o with
  | buildPath =>
      have hbind : (readPath .buildPath value).bind
          (fun path => .ok { options with buildPath := some path }) = .ok options' := h
      obtain ⟨path, hpath, hset⟩ := ok_of_bind hbind
      cases hset
      refine ⟨?_, hproper.repoRoot⟩
      intro path' h'
      cases h'
      exact ⟨value, readPath_ok hpath⟩
  | repoRoot =>
      have hbind : (readPath .repoRoot value).bind
          (fun path => .ok { options with repoRoot := path }) = .ok options' := h
      obtain ⟨path, hpath, hset⟩ := ok_of_bind hbind
      cases hset
      exact ⟨hproper.buildPath, value, readPath_ok hpath⟩
  | jobs =>
      rw [Options.set] at h
      split at h
      · cases h
        exact ⟨hproper.buildPath, hproper.repoRoot⟩
      · cases h
  | verbosity =>
      rw [Options.set] at h
      split at h
      · cases h
        exact ⟨hproper.buildPath, hproper.repoRoot⟩
      · split at h
        · cases h
          exact ⟨hproper.buildPath, hproper.repoRoot⟩
        · cases h
  | _ =>
      cases h
      exact ⟨hproper.buildPath, hproper.repoRoot⟩

namespace Reading

/-- What one argument can do to a reading. -/
inductive Step (r : Reading) : Reading → Prop
  | ended : Step r { r with optionsEnded := true }
  | given {s r' : Reading} {o : Opt} {value : String} :
      r.settle = .ok s → s.give o value = .ok r' → Step r r'
  | awaiting {s : Reading} {o : Opt} :
      r.settle = .ok s → Step r { s with pending := .awaiting o }
  | holding {o : Opt} {value : String} : Step r { r with pending := .holding o value }

variable {r r' : Reading}

theorem step_of_option {o : Opt} {attached : Option String} {long : Bool}
    (h : r.option o attached long = .ok r') : Step r r' := by
  unfold option at h
  split at h
  · obtain ⟨s, hsettle, hgive⟩ := ok_of_bind (ok_of_mapError h)
    exact .given hsettle hgive
  · obtain ⟨s, hsettle, rfl⟩ := ok_of_map (ok_of_mapError h)
    exact .awaiting hsettle
  · cases h
  · split at h
    · cases h
    · rename_i s hsettle
      split at h
      · cases h
      · exact .given hsettle (ok_of_mapError h)

theorem step_of_next {arg : String} (h : r.next arg = .ok r') : Step r r' := by
  unfold next at h
  simp only at h
  split at h
  · cases h
  · split at h
    · cases h
      exact .ended
    · rename_i text _ _
      unfold long at h
      simp only at h
      split at h
      · exact step_of_option h
      · cases h
    · rename_i letter rest _ _
      unfold short at h
      split at h
      · split at h
        · exact step_of_option h
        · split at h <;> exact step_of_option h
      · cases h
    · split at h
      · cases h
        exact .holding
      · cases h

theorem proper_give {o : Opt} {value : String} (hproper : r.options.Proper)
    (h : r.give o value = .ok r') : r'.options.Proper := by
  unfold give at h
  split at h
  · cases h
  · have hbind : (r.options.set o value).bind (fun options =>
        .ok { r with options, given := r.given ++ [o], pending := .nothing }) = .ok r' := h
    obtain ⟨options, hset, hnext⟩ := ok_of_bind hbind
    cases hnext
    exact Options.proper_set hproper hset

theorem proper_settle (hproper : r.options.Proper) (h : r.settle = .ok r') :
    r'.options.Proper := by
  unfold settle at h
  split at h
  · cases h
    exact hproper
  · cases h
  · exact proper_give hproper h

theorem proper_step (hproper : r.options.Proper) (h : Step r r') : r'.options.Proper := by
  cases h with
  | ended => exact hproper
  | given hsettle hgive => exact proper_give (proper_settle hproper hsettle) hgive
  | awaiting hsettle =>
      have hsettled := proper_settle hproper hsettle
      exact hsettled
  | holding => exact hproper

theorem proper_foldlM (args : List String) :
    ∀ {r r' : Reading}, r.options.Proper → args.foldlM next r = .ok r' → r'.options.Proper := by
  induction args with
  | nil =>
      intro r r' hproper h
      cases h
      exact hproper
  | cons arg args ih =>
      intro r r' hproper h
      have hbind : (r.next arg).bind (fun r => args.foldlM next r) = .ok r' := h
      obtain ⟨s, hnext, hrest⟩ := ok_of_bind hbind
      exact ih (proper_step hproper (step_of_next hnext)) hrest

end Reading

theorem Options.proper_of_ofArgs {options : Options} {args : List String}
    (h : Options.ofArgs args = .ok options) : options.Proper := by
  rw [Options.ofArgs_eq] at h
  obtain ⟨settled, hread, rfl⟩ := ok_of_map h
  obtain ⟨r, hfold, hsettle⟩ := ok_of_bind hread
  have hproper := Reading.proper_foldlM args Options.proper_default hfold
  exact Reading.proper_settle hproper (ok_of_mapError hsettle)

/-- What a record chooses for an option is spelled by an argument, unless it is
the default. -/
theorem Options.Proper.agree_or_spells {options : Options} (h : options.Proper) (o : Opt) :
    Options.Agree {} options o ∨ ∃ arg, Spells options o arg := by
  have hdash : "-" ∈ ["-", "--"] := List.mem_cons_self
  cases o with
  | buildPath =>
      cases hpath : options.buildPath with
      | none => exact Or.inl hpath.symm
      | some path =>
          obtain ⟨value, hne, rfl⟩ := h.buildPath path hpath
          exact Or.inr ⟨_, .short rfl rfl ⟨hne, hpath⟩⟩
  | jobs =>
      cases hjobs : options.jobs with
      | none => exact Or.inl hjobs.symm
      | some n => exact Or.inr ⟨_, .short rfl rfl ⟨n, hjobs, rfl⟩⟩
  | exportFixes =>
      cases hfixes : options.exportFixes with
      | none => exact Or.inl hfixes.symm
      | some path => exact Or.inr ⟨_, .long rfl rfl hdash hfixes⟩
  | repoRoot =>
      obtain ⟨value, hne, hroot⟩ := h.repoRoot
      exact Or.inr ⟨_, .long rfl rfl hdash ⟨hne, hroot⟩⟩
  | fix =>
      cases hfix : options.fix with
      | false => exact Or.inl hfix.symm
      | true => exact Or.inr ⟨_, .flag rfl rfl hdash hfix⟩
  | checkOutput =>
      cases hcheck : options.checkOutput with
      | false => exact Or.inl hcheck.symm
      | true => exact Or.inr ⟨_, .flag rfl rfl hdash hcheck⟩
  | dryRun =>
      cases hdry : options.dryRun with
      | false => exact Or.inl hdry.symm
      | true => exact Or.inr ⟨_, .flag rfl rfl hdash hdry⟩
  | help => exact Or.inl trivial
  | _ => exact Or.inr ⟨_, .long rfl rfl hdash rfl⟩

theorem Options.Proper.spelled_of {options : Options} (h : options.Proper) (opts : List Opt) :
    ∃ given : List (Opt × String), (given.map (·.1)).Sublist opts ∧
      (∀ g ∈ given, Spells options g.1 g.2) ∧
      ∀ o ∈ opts, o ∉ given.map (·.1) → Options.Agree {} options o := by
  induction opts with
  | nil =>
      refine ⟨[], List.Sublist.refl _, ?_, ?_⟩
      · intro g hg
        cases hg
      · intro o ho
        cases ho
  | cons o opts ih =>
      obtain ⟨given, hsublist, hspells, hdefault⟩ := ih
      rcases h.agree_or_spells o with hagree | ⟨arg, harg⟩
      · refine ⟨given, hsublist.cons o, hspells, ?_⟩
        intro o' ho' hnot
        rcases List.mem_cons.mp ho' with rfl | ho'
        · exact hagree
        · exact hdefault o' ho' hnot
      · refine ⟨(o, arg) :: given, hsublist.cons_cons o, ?_, ?_⟩
        · intro g hg
          rcases List.mem_cons.mp hg with rfl | hg
          · exact harg
          · exact hspells g hg
        · intro o' ho' hnot
          rw [List.map_cons, List.mem_cons, not_or] at hnot
          rcases List.mem_cons.mp ho' with rfl | ho'
          · exact absurd rfl hnot.1
          · exact hdefault o' ho' hnot.2

theorem Options.Proper.spelled {options : Options} (h : options.Proper) :
    ∃ args, options.SpelledBy args := by
  obtain ⟨given, hsublist, hspells, hdefault⟩ := h.spelled_of Opt.all
  have hall : ∀ o : Opt, o ∈ Opt.all := by
    intro o
    cases o <;> decide
  have hnodup : Opt.all.Nodup := by decide
  exact ⟨given.map (·.2), given, rfl, hnodup.sublist hsublist, hspells,
    fun o ho => hdefault o (hall o) ho⟩

/-- Arguments decode every record of options. A record with proper paths has
arguments that spell it; all arguments that spell it, whatever their order, their
dashes and the look of their values, are read as the record; and whatever
arguments are accepted, what they are read as is such a record. -/
theorem Options.ofArgs_decodes (name : String) (options : Options) :
    (options.Proper → ∃ args, options.SpelledBy args) ∧
    (∀ args, options.SpelledBy args →
      Options.ofArgs (doubleDashes (name :: args)).tail = .ok options) ∧
    ∀ args, Options.ofArgs (doubleDashes (name :: args)).tail = .ok options → options.Proper := by
  refine ⟨Options.Proper.spelled, ?_, ?_⟩
  · intro args hspelled
    exact Options.ofArgs_of_spelledBy hspelled
  · intro args hread
    exact Options.proper_of_ofArgs hread

/-- A record with values that look like options. -/
def Options.tricky : Options where
  buildPath := some (.ofText "-j=4 --fix")
  jobs := some 4294967295
  exportFixes := some ""
  linter := "--dry-run=a=b"
  checkOutput := true
  clangVersion := "-clang-tidy"

theorem Options.ofArgs_tricky :
    Options.ofArgs (doubleDashes ["lint", "-clang-version=-clang-tidy", "-p=-j=4 --fix",
      "--clang-tidy=--dry-run=a=b", "-j=4294967295", "--verbosity=info", "-check-output",
      "--export-fixes="]).tail = .ok Options.tricky := by
  refine (Options.ofArgs_decodes "lint" Options.tricky).2.1 _ ?_
  refine ⟨[(.clangVersion, "-clang-version=-clang-tidy"), (.buildPath, "-p=-j=4 --fix"),
    (.linter, "--clang-tidy=--dry-run=a=b"), (.jobs, "-j=4294967295"),
    (.verbosity, "--verbosity=info"), (.checkOutput, "-check-output"),
    (.exportFixes, "--export-fixes=")], rfl, by decide, ?_, ?_⟩
  · have hdash : "-" ∈ ["-", "--"] := by decide
    have hdashes : "--" ∈ ["-", "--"] := by decide
    intro g hg
    simp only [List.mem_cons, List.not_mem_nil, or_false] at hg
    rcases hg with rfl | rfl | rfl | rfl | rfl | rfl | rfl
    · exact @Spells.long tricky .clangVersion "clang-version" "-clang-tidy" "-" rfl rfl hdash rfl
    · exact @Spells.short tricky .buildPath 'p' "-j=4 --fix" rfl rfl ⟨by decide, rfl⟩
    · exact @Spells.long tricky .linter "clang-tidy" "--dry-run=a=b" "--" rfl rfl hdashes rfl
    · exact @Spells.short tricky .jobs 'j' "4294967295" rfl rfl ⟨4294967295, rfl, rfl⟩
    · exact @Spells.long tricky .verbosity "verbosity" "info" "--" rfl rfl hdashes rfl
    · exact @Spells.flag tricky .checkOutput "check-output" "-" rfl rfl hdash rfl
    · exact @Spells.long tricky .exportFixes "export-fixes" "" "--" rfl rfl hdashes rfl
  · intro o ho
    cases o with
    | orchestrator | fix | repoRoot | ignoreFile | dryRun => rfl
    | help => exact trivial
    | _ => exact absurd (by decide) ho

end LintRunner
