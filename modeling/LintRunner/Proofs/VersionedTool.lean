import LintRunner.Proofs.CallerDirectory
import Mathlib.Data.List.TakeWhile

/-!
# Tools of a version

A version number puts one name in front of another: all directories are searched for the
tool with the number behind its name, and only then for the tool by its name. How the
number is spelled, and what follows it, does not matter. What is no version number is a
list of directories itself, and then no other one is looked at.
-/

namespace LintRunner

namespace Version

/-! ## Spellings of a version -/

/-- The parts of a version, as they stand in its text. -/
structure Spelling where
  front : List Char
  sign : List Char
  digits : List Char
  tail : List Char
  back : List Char

namespace Spelling

/-- The version without the blanks around it. -/
def core (s : Spelling) : List Char :=
  s.sign ++ (s.digits ++ s.tail)

def text (s : Spelling) : List Char :=
  s.front ++ (s.core ++ s.back)

/-- The parts are what they stand for. -/
structure Proper (s : Spelling) : Prop where
  front : ∀ c ∈ s.front, isBlank c = true
  sign : s.sign ∈ [[], ['v'], ['V']]
  nonempty : s.digits ≠ []
  digits : ∀ c ∈ s.digits, c.isDigit = true
  tail : isTail s.tail = true
  apart : ∀ c ∈ s.tail.head?, c.isDigit = false
  back : ∀ c ∈ s.back, isBlank c = true

end Spelling

theorem eq_of_isBlank {c : Char} (h : isBlank c = true) :
    c = ' ' ∨ c = '\t' ∨ c = '\n' ∨ c = '\x0c' ∨ c = '\r' := by
  simpa [isBlank, or_assoc] using h

theorem not_isBlank_of_isDigit {c : Char} (h : c.isDigit = true) : isBlank c = false := by
  rw [Bool.eq_false_iff]
  intro hblank
  rcases eq_of_isBlank hblank with rfl | rfl | rfl | rfl | rfl <;> exact absurd h (by decide)

/-- Nothing of a version goes on behind a blank. -/
theorem next?_of_isBlank {c : Char} (h : isBlank c = true) (p : Place) : p.next? c = none := by
  rcases eq_of_isBlank h with rfl | rfl | rfl | rfl | rfl <;> cases p <;> rfl

theorem not_isBlank_of_isTail {tail : List Char} (h : isTail tail = true) :
    ∀ c ∈ tail, isBlank c = false := by
  have hstep : ∀ (tail : List Char) (p q : Place), tail.foldlM Place.next? p = some q →
      ∀ c ∈ tail, isBlank c = false := by
    intro tail
    induction tail with
    | nil =>
        intro p q _ c hc
        cases hc
    | cons c tail ih =>
        intro p q hq
        rw [List.foldlM_cons] at hq
        obtain ⟨p', hp', hrest⟩ := Option.bind_eq_some_iff.mp hq
        refine List.forall_mem_cons.mpr ⟨?_, ih p' q hrest⟩
        rw [Bool.eq_false_iff]
        intro hblank
        rw [next?_of_isBlank hblank] at hp'
        cases hp'
  unfold isTail at h
  split at h
  · rename_i q hq
    exact hstep tail .major q hq
  · cases h

theorem dropWhile_append_of_neg {α : Type} {p : α → Bool} {l : List α} (hne : l ≠ [])
    (hl : ∀ a ∈ l, p a = false) (rest : List α) : (l ++ rest).dropWhile p = l ++ rest := by
  obtain ⟨a, l, rfl⟩ := List.exists_cons_of_ne_nil hne
  exact List.dropWhile_cons_of_neg (by rw [hl a List.mem_cons_self]; decide)

namespace Spelling

variable {s : Spelling}

theorem Proper.core_ne_nil (h : s.Proper) : s.core ≠ [] := by
  intro hcore
  exact h.nonempty (List.append_eq_nil_iff.mp (List.append_eq_nil_iff.mp hcore).2).1

theorem Proper.not_isBlank (h : s.Proper) : ∀ c ∈ s.core, isBlank c = false := by
  intro c hc
  rcases List.mem_append.mp hc with hsign | hc
  · have hsigns := h.sign
    simp only [List.mem_cons, List.not_mem_nil, or_false] at hsigns
    rcases hsigns with hs | hs | hs
    · rw [hs] at hsign
      cases hsign
    · rw [hs, List.mem_singleton] at hsign
      rw [hsign]
      rfl
    · rw [hs, List.mem_singleton] at hsign
      rw [hsign]
      rfl
  · rcases List.mem_append.mp hc with hdigit | htail
    · exact not_isBlank_of_isDigit (h.digits c hdigit)
    · exact not_isBlank_of_isTail h.tail c htail

/-- Without the blanks at its ends the text is the version itself. -/
theorem Proper.trimmed (h : s.Proper) :
    ((s.text.dropWhile isBlank).reverse.dropWhile isBlank).reverse = s.core := by
  have hback : ∀ c ∈ s.back.reverse, isBlank c = true := fun c hc =>
    h.back c (List.mem_reverse.mp hc)
  have hcore : s.core.reverse.dropWhile isBlank = s.core.reverse := by
    have hreversed := dropWhile_append_of_neg (l := s.core.reverse)
      (fun hnil => h.core_ne_nil (List.reverse_eq_nil_iff.mp hnil))
      (fun c hc => h.not_isBlank c (List.mem_reverse.mp hc)) []
    rwa [List.append_nil] at hreversed
  rw [text, List.dropWhile_append_of_pos h.front,
    dropWhile_append_of_neg h.core_ne_nil h.not_isBlank, List.reverse_append,
    List.dropWhile_append_of_pos hback, hcore, List.reverse_reverse]

theorem Proper.dropSign_core (h : s.Proper) : dropSign s.core = s.digits ++ s.tail := by
  obtain ⟨d, digits, hdigits⟩ := List.exists_cons_of_ne_nil h.nonempty
  have hd : d.isDigit = true := h.digits d (hdigits ▸ List.mem_cons_self)
  have hsigns := h.sign
  simp only [List.mem_cons, List.not_mem_nil, or_false] at hsigns
  rcases hsigns with hs | hs | hs
  · rw [core, hs, List.nil_append, hdigits]
    unfold dropSign
    split
    · rename_i heq
      cases heq
      exact absurd hd (by decide)
    · rename_i heq
      cases heq
      exact absurd hd (by decide)
    · rfl
  · rw [core, hs]
    rfl
  · rw [core, hs]
    rfl

theorem Proper.takeWhile_eq (h : s.Proper) :
    (s.digits ++ s.tail).takeWhile Char.isDigit = s.digits := by
  rw [List.takeWhile_append_of_pos h.digits]
  cases htail : s.tail with
  | nil => exact List.append_nil _
  | cons c tail =>
      have hc : c.isDigit = false := h.apart c (by rw [htail]; rfl)
      rw [List.takeWhile_cons_of_neg (by rw [hc]; decide), List.append_nil]

theorem Proper.dropWhile_eq (h : s.Proper) :
    (s.digits ++ s.tail).dropWhile Char.isDigit = s.tail := by
  have hall := List.takeWhile_append_dropWhile (p := Char.isDigit) (l := s.digits ++ s.tail)
  rw [h.takeWhile_eq] at hall
  exact List.append_cancel_left hall

end Spelling

theorem exists_sign (text : List Char) :
    ∃ sign ∈ [[], ['v'], ['V']], text = sign ++ dropSign text := by
  unfold dropSign
  split
  · exact ⟨['v'], by decide, rfl⟩
  · exact ⟨['V'], by decide, rfl⟩
  · exact ⟨[], by decide, rfl⟩

theorem isDigit_head?_dropWhile (text : List Char) :
    ∀ c ∈ (text.dropWhile Char.isDigit).head?, c.isDigit = false := by
  intro c hc
  have hhead := List.head?_dropWhile_not Char.isDigit text
  rw [Option.mem_def.mp hc] at hhead
  exact Bool.eq_false_iff.mpr (by simpa using hhead)

/-- Where a major number is read, its digits stand in a proper spelling. -/
theorem exists_spelling_of_major? {text : String} {major : Nat} (h : major? text = some major) :
    ∃ s : Spelling, s.Proper ∧ s.text = text.toList ∧ numberOf s.digits = major ∧
      major < numberBound := by
  unfold major? at h
  dsimp only at h
  generalize hcore : ((text.toList.dropWhile isBlank).reverse.dropWhile isBlank).reverse = core at h
  generalize hversion : dropSign core = version at h
  split at h
  · rename_i hread
    obtain rfl := Option.some.inj h
    simp only [Bool.and_eq_true, Bool.not_eq_true', List.isEmpty_eq_false_iff,
      decide_eq_true_eq] at hread
    obtain ⟨⟨hdigits, hbound⟩, htail⟩ := hread
    obtain ⟨sign, hsign, hsigned⟩ := exists_sign core
    rw [hversion] at hsigned
    refine ⟨⟨text.toList.takeWhile isBlank, sign, version.takeWhile Char.isDigit,
      version.dropWhile Char.isDigit,
      ((text.toList.dropWhile isBlank).reverse.takeWhile isBlank).reverse⟩,
      ⟨?_, hsign, hdigits, ?_, htail, isDigit_head?_dropWhile version, ?_⟩, ?_, rfl, hbound⟩
    · exact fun c hc => List.mem_takeWhile_imp hc
    · exact fun c hc => List.mem_takeWhile_imp hc
    · exact fun c hc => List.mem_takeWhile_imp (List.mem_reverse.mp hc)
    · show text.toList.takeWhile isBlank ++ (sign ++ (version.takeWhile Char.isDigit ++
        version.dropWhile Char.isDigit) ++ _) = _
      rw [List.takeWhile_append_dropWhile, ← hsigned, ← hcore, ← List.reverse_append,
        List.takeWhile_append_dropWhile, List.reverse_reverse, List.takeWhile_append_dropWhile]
  · cases h

/-- A major number is read from each spelling of its version, and only from these. -/
theorem major?_eq_some_iff {text : String} {major : Nat} :
    major? text = some major ↔
      ∃ s : Spelling, s.Proper ∧ s.text = text.toList ∧ numberOf s.digits = major ∧
        major < numberBound := by
  constructor
  · exact exists_spelling_of_major?
  · rintro ⟨s, hs, htext, rfl, hbound⟩
    have hread : (!s.digits.isEmpty && decide (numberOf s.digits < numberBound) &&
        isTail s.tail) = true := by
      simp [hs.nonempty, hbound, hs.tail]
    unfold major?
    dsimp only
    rw [← htext, hs.trimmed, hs.dropSign_core, hs.takeWhile_eq, hs.dropWhile_eq, if_pos hread]

theorem numberOf_toDigits (n : Nat) : numberOf (Nat.toDigits 10 n) = n := by
  have hfold : numberOf (Nat.toDigits 10 n) = Nat.ofDigitChars 10 (Nat.toDigits 10 n) 0 := by
    unfold numberOf Nat.ofDigitChars
    congr 1
    funext m c
    rw [Nat.mul_comm]
    rfl
  rw [hfold, Nat.ofDigitChars_ten_toDigits]

/-- The digits of a number are a version by themselves. -/
theorem major?_toString {major : Nat} (h : major < numberBound) :
    major? (toString major) = some major := by
  have htext : (toString major).toList = Nat.toDigits 10 major := by
    rw [Nat.toString_eq_repr, Nat.toList_repr]
  rw [major?_eq_some_iff]
  refine ⟨⟨[], [], Nat.toDigits 10 major, [], []⟩, ⟨?_, ?_, ?_, ?_, rfl, ?_, ?_⟩, ?_, ?_, h⟩
  · exact fun c hc => absurd hc List.not_mem_nil
  · exact List.mem_cons_self
  · exact Nat.toDigits_ne_nil
  · exact fun c hc => Nat.isDigit_of_mem_toDigits (by decide) (by decide) hc
  · exact fun c hc => by cases hc
  · exact fun c hc => absurd hc List.not_mem_nil
  · rw [htext]
    simp [Spelling.text, Spelling.core]
  · exact numberOf_toDigits major

end Version

namespace Host

variable {h : Host} {name version : String} {dirs : Option Bytes} {path : Path}

/-! ## The first directory with a tool -/

/-- In the directory there is an executable file with the name of the tool. -/
def HasTool (h : Host) (tool : String) (dir : Path) : Prop :=
  h.files.isExecutable h.cwd (dir.join (.ofText tool)) = true

instance (h : Host) (tool : String) : DecidablePred (h.HasTool tool) :=
  fun _ => inferInstanceAs (Decidable (_ = true))

/-- The path leads to the tool in the first of the directories that has it. -/
def FirstWith (h : Host) (tool : String) (dirs : List Path) (path : Path) : Prop :=
  ∃ before dir behind, dirs = before ++ dir :: behind ∧ (∀ d ∈ before, ¬ h.HasTool tool d) ∧
    h.HasTool tool dir ∧ path = dir.join (.ofText tool)

/-- None of the directories has the tool. -/
def Missing (h : Host) (tool : String) (dirs : List Path) : Prop :=
  ∀ dir ∈ dirs, ¬ h.HasTool tool dir

instance (h : Host) (tool : String) (dirs : List Path) : Decidable (h.Missing tool dirs) :=
  inferInstanceAs (Decidable (∀ dir ∈ dirs, _))

theorem find?_eq_directories (hname : '/' ∉ name.toList) :
    h.find? (.ofText name) dirs =
      ((h.directories dirs).find? fun dir =>
        h.files.isExecutable h.cwd (dir.join (.ofText name))).map (·.join (.ofText name)) := by
  rw [find?_eq hname, candidates, List.find?_map]
  rfl

theorem find?_eq_some_iff (hname : '/' ∉ name.toList) :
    h.find? (.ofText name) dirs = some path ↔ h.FirstWith name (h.directories dirs) path := by
  rw [find?_eq_directories hname, Option.map_eq_some_iff]
  constructor
  · rintro ⟨dir, hfound, rfl⟩
    obtain ⟨hdir, before, behind, hdirs, hbefore⟩ := List.find?_eq_some_iff_append.mp hfound
    refine ⟨before, dir, behind, hdirs, ?_, hdir, rfl⟩
    intro d hd
    rw [HasTool, Bool.not_eq_true, ← Bool.not_eq_true']
    exact hbefore d hd
  · rintro ⟨before, dir, behind, hdirs, hbefore, hdir, rfl⟩
    refine ⟨dir, List.find?_eq_some_iff_append.mpr ⟨hdir, before, behind, hdirs, ?_⟩, rfl⟩
    intro d hd
    rw [Bool.not_eq_true', ← Bool.not_eq_true]
    exact hbefore d hd

theorem find?_eq_none_iff (hname : '/' ∉ name.toList) :
    h.find? (.ofText name) dirs = none ↔ h.Missing name (h.directories dirs) := by
  rw [find?_eq_directories hname, Option.map_eq_none_iff, List.find?_eq_none]
  rfl

theorem slash_not_mem_withVersion (hname : '/' ∉ name.toList) (major : Nat) :
    '/' ∉ (s!"{name}-{major}" : String).toList := by
  have hother : ∀ c ∈ (s!"{name}-{major}" : String).toList, c ≠ '/' :=
    forall_mem_withVersion (List.forall_mem_ne'.mpr hname) (by decide)
      (fun c hc => (plain_of_isDigit hc).2) major
  exact List.forall_mem_ne'.mp hother

/-! ## Which tool is found -/

section

variable {major : Nat} (hmajor : Version.major? version = some major)

include hmajor

theorem findTool_of_major :
    h.findTool name version =
      match h.find? (.ofText s!"{name}-{major}") h.searchPath with
      | some path => .ok path
      | none =>
        match h.find? (.ofText name) h.searchPath with
        | some path => .ok path
        | none => .error .noNameOrVersion := by
  have hnonempty : version.isEmpty = false := by
    rw [Bool.eq_false_iff]
    intro hempty
    obtain rfl : version = "" := by simpa using hempty
    cases hmajor
  unfold findTool
  rw [hnonempty, hmajor]
  rfl

/-- All spellings of a version name the same tool. -/
theorem findTool_of_same_major {version' : String}
    (hmajor' : Version.major? version' = some major) :
    h.findTool name version' = h.findTool name version := by
  rw [findTool_of_major hmajor, findTool_of_major hmajor']

theorem findTool_ok_iff_of_major (hname : '/' ∉ name.toList) :
    h.findTool name version = .ok path ↔
      h.FirstWith s!"{name}-{major}" (h.directories h.searchPath) path ∨
        h.Missing s!"{name}-{major}" (h.directories h.searchPath) ∧
          h.FirstWith name (h.directories h.searchPath) path := by
  rw [findTool_of_major hmajor, ← find?_eq_some_iff (slash_not_mem_withVersion hname major),
    ← find?_eq_none_iff (slash_not_mem_withVersion hname major), ← find?_eq_some_iff hname]
  cases h.find? (.ofText s!"{name}-{major}") h.searchPath with
  | some found => simp
  | none => cases h.find? (.ofText name) h.searchPath <;> simp

theorem findTool_error_iff_of_major (hname : '/' ∉ name.toList) :
    (∃ e, h.findTool name version = .error e) ↔
      h.Missing s!"{name}-{major}" (h.directories h.searchPath) ∧
        h.Missing name (h.directories h.searchPath) := by
  rw [findTool_of_major hmajor, ← find?_eq_none_iff (slash_not_mem_withVersion hname major),
    ← find?_eq_none_iff hname]
  cases h.find? (.ofText s!"{name}-{major}") h.searchPath with
  | some found => simp
  | none => cases h.find? (.ofText name) h.searchPath <;> simp

end

section

variable (hversion : version ≠ "") (hmajor : Version.major? version = none)

include hversion hmajor

theorem findTool_of_no_major :
    h.findTool name version =
      match h.find? (.ofText name) (some (Bytes.ofText version)) with
      | some path => .ok path
      | none => .error .noPath := by
  have hnonempty : version.isEmpty = false := by simpa using hversion
  unfold findTool
  rw [hnonempty, hmajor]
  rfl

theorem findTool_ok_iff_of_no_major (hname : '/' ∉ name.toList) :
    h.findTool name version = .ok path ↔
      h.FirstWith name (h.directories (some (Bytes.ofText version))) path := by
  rw [findTool_of_no_major hversion hmajor, ← find?_eq_some_iff hname]
  cases h.find? (.ofText name) (some (Bytes.ofText version)) <;> simp

theorem findTool_error_iff_of_no_major (hname : '/' ∉ name.toList) :
    (∃ e, h.findTool name version = .error e) ↔
      h.Missing name (h.directories (some (Bytes.ofText version))) := by
  rw [findTool_of_no_major hversion hmajor, ← find?_eq_none_iff hname]
  cases h.find? (.ofText name) (some (Bytes.ofText version)) <;> simp

/-- The search path has no say in it. -/
theorem findTool_of_other_searchPath (searchPath : Option Bytes) :
    { h with searchPath }.findTool name version = h.findTool name version := by
  rw [findTool_of_no_major hversion hmajor, findTool_of_no_major hversion hmajor]
  rfl

end

/-- With a version number the tool is the first one of the search path that has the number
behind its name, wherever the tool without it stands. Only if there is none is it the first
one by its name, and it is missing exactly if no directory has either. Each spelling of the
number finds the same as its digits. Without a number, the version itself lists the
directories to look for the name in, and the search path does not matter. -/
theorem findTool_picks_version (h : Host) (hname : '/' ∉ name.toList) (version : String) :
    (∀ major, Version.major? version = some major →
      (∀ path, h.findTool name version = .ok path ↔
        h.FirstWith s!"{name}-{major}" (h.directories h.searchPath) path ∨
          h.Missing s!"{name}-{major}" (h.directories h.searchPath) ∧
            h.FirstWith name (h.directories h.searchPath) path) ∧
      ((∃ e, h.findTool name version = .error e) ↔
        h.Missing s!"{name}-{major}" (h.directories h.searchPath) ∧
          h.Missing name (h.directories h.searchPath)) ∧
      (∀ version', Version.major? version' = some major →
        h.findTool name version' = h.findTool name version) ∧
      h.findTool name (toString major) = h.findTool name version) ∧
    (version ≠ "" → Version.major? version = none →
      (∀ path, h.findTool name version = .ok path ↔
        h.FirstWith name (h.directories (some (Bytes.ofText version))) path) ∧
      ((∃ e, h.findTool name version = .error e) ↔
        h.Missing name (h.directories (some (Bytes.ofText version)))) ∧
      ∀ searchPath, { h with searchPath }.findTool name version = h.findTool name version) := by
  constructor
  · intro major hmajor
    obtain ⟨-, -, -, -, hbound⟩ := Version.major?_eq_some_iff.mp hmajor
    refine ⟨fun path => findTool_ok_iff_of_major hmajor hname,
      findTool_error_iff_of_major hmajor hname,
      fun version' hmajor' => findTool_of_same_major hmajor hmajor', ?_⟩
    exact findTool_of_same_major hmajor (Version.major?_toString hbound)
  · intro hversion hmajor
    exact ⟨fun path => findTool_ok_iff_of_no_major hversion hmajor hname,
      findTool_error_iff_of_no_major hversion hmajor hname,
      findTool_of_other_searchPath hversion hmajor⟩

/-! Three directories. The linter stands in the first one, with a number behind its name in
the other two, and may not be run in the second. -/

def atRoot (name : String) : Place :=
  [Bytes.ofText name]

def linters : List (Place × Node) :=
  [(atRoot "a" ++ [Bytes.ofText "clang-tidy"], .program true fun _ _ => clean),
    (atRoot "b" ++ [Bytes.ofText "clang-tidy-17"], .program false fun _ _ => clean),
    (atRoot "c" ++ [Bytes.ofText "clang-tidy-17"], .program true fun _ _ => clean)]

def withLinters : Host :=
  { demo with
    files := linters.foldl
      (fun files (place, node) => (files.put place.dropLast .directory).put place node) demo.files
    searchPath := some (Bytes.ofText "/a:/b:/c") }

theorem findTool_withLinters :
    withLinters.findTool "clang-tidy" "\t v017.0.6-rc1\n" = .ok (.ofText "/c/clang-tidy-17") ∧
      withLinters.findTool "clang-tidy" "17" = .ok (.ofText "/c/clang-tidy-17") ∧
      withLinters.findTool "clang-tidy" "18" = .ok (.ofText "/a/clang-tidy") ∧
      ∃ e, { withLinters with searchPath := none }.findTool "clang-tidy" "/b:/c" = .error e := by
  have hname : '/' ∉ "clang-tidy".toList := by decide
  obtain ⟨hfound, -, -, hplain⟩ := (findTool_picks_version withLinters hname "\t v017.0.6-rc1\n").1
    17 (by decide)
  have hnumbered := (hfound (.ofText "/c/clang-tidy-17")).mpr <| Or.inl
    ⟨[.ofText "/a", .ofText "/b"], .ofText "/c", [], by decide, by decide +kernel,
      by decide +kernel, by decide⟩
  obtain ⟨hunnumbered, -⟩ := (findTool_picks_version withLinters hname "18").1 18 (by decide)
  obtain ⟨-, hmissing, hsearch⟩ := (findTool_picks_version withLinters hname "/b:/c").2
    (by decide) (by decide)
  refine ⟨hnumbered, hplain.trans hnumbered, ?_, ?_⟩
  · refine (hunnumbered _).mpr (Or.inr ⟨by decide +kernel, ?_⟩)
    exact ⟨[], .ofText "/a", [.ofText "/b", .ofText "/c"], by decide, by decide,
      by decide +kernel, by decide⟩
  · rw [hsearch none]
    exact hmissing.mpr (by decide +kernel)

end Host

end LintRunner
