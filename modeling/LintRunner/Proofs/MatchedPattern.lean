import LintRunner.Proofs.Selection

/-!
# The pattern that a report names

A name that is ignored is reported with the pattern that stands at the place of
the first glob that has it. A skipped pattern has no glob, so each of them that
stands before the one that matches moves the report one place up: the report
names the pattern that matches exactly if none is skipped before it.
-/

namespace LintRunner

/-- Neither a wildcard pattern nor a plain text was made of it. -/
def Compiled.isSkipped : Compiled → Bool
  | .skipped .. => true
  | _ => false

theorem Compiled.isSome_glob? (c : Compiled) : c.glob?.isSome = !c.isSkipped := by
  cases c <;> rfl

namespace IgnoreList

variable {patterns before : List String} {pattern name : String}

/-- The record which says that the name is ignored because of the pattern. -/
def reason (name pattern : String) : Log.Record :=
  ⟨.debug, s!"{name} is ignored as specified via {Text.quoted pattern}"⟩

/-- Behind the patterns `before` stands the first one of the list that ignores the
name by itself. -/
structure FirstMatch (patterns : List String) (name : String) (before : List String)
    (pattern : String) : Prop where
  place : before ++ [pattern] <+: patterns
  matched : (ofPatterns [pattern]).isIgnored name = true
  unmatched : ∀ earlier ∈ before, (ofPatterns [earlier]).isIgnored name = false

theorem exists_firstMatch (h : (ofPatterns patterns).isIgnored name = true) :
    ∃ before pattern, FirstMatch patterns name before pattern := by
  have hfind : (patterns.find? fun p => (ofPatterns [p]).isIgnored name).isSome := by
    rw [List.find?_isSome]
    exact (isIgnored_iff_alone patterns name).mp h
  obtain ⟨pattern, hpattern⟩ := Option.isSome_iff_exists.mp hfind
  obtain ⟨hmatched, before, behind, rfl, hbefore⟩ := List.find?_eq_some_iff_append.mp hpattern
  exact ⟨before, pattern, ⟨behind, by simp⟩, hmatched, fun q hq => by simpa using hbefore q hq⟩

/-! ## The place of the glob -/

/-- How many patterns have a glob. -/
def globCount (patterns : List String) : Nat :=
  patterns.countP fun p => !(Compiled.ofPattern p).isSkipped

theorem length_globs (patterns : List String) :
    (ofPatterns patterns).globs.length = globCount patterns := by
  rw [ofPatterns, List.length_filterMap_eq_countP, globCount]
  simp only [Compiled.isSome_glob?]

theorem globCount_le (patterns : List String) : globCount patterns ≤ patterns.length :=
  List.countP_le_length

theorem globCount_eq_length_iff :
    globCount patterns = patterns.length ↔
      ∀ p ∈ patterns, (Compiled.ofPattern p).isSkipped = false := by
  simp [globCount, List.countP_eq_length]

theorem findIdx?_globs_of_unmatched
    (h : ∀ p ∈ patterns, (ofPatterns [p]).isIgnored name = false) :
    (ofPatterns patterns).globs.findIdx? (·.isMatch name) = none := by
  have hno : (ofPatterns patterns).isIgnored name = false := by
    rw [isIgnored_eq, List.any_eq_false]
    intro p hp
    simpa [isIgnored_eq] using h p hp
  rw [isIgnored, matchIndex?] at hno
  simpa using hno

/-- The first glob that has the name stands behind as many globs as there are
patterns with one before it. -/
theorem FirstMatch.matchIndex? (h : FirstMatch patterns name before pattern) :
    (ofPatterns patterns).matchIndex? name = some (globCount before) := by
  obtain ⟨⟨behind, rfl⟩, hmatched, hunmatched⟩ := h
  have hglobs : (ofPatterns (before ++ [pattern] ++ behind)).globs =
      (ofPatterns before).globs ++
        ((ofPatterns [pattern]).globs ++ (ofPatterns behind).globs) := by
    simp only [ofPatterns, List.filterMap_append, List.append_assoc]
  have hfirst : (ofPatterns [pattern]).globs.findIdx? (·.isMatch name) = some 0 := by
    rw [isIgnored, IgnoreList.matchIndex?] at hmatched
    obtain ⟨i, hi⟩ := Option.isSome_iff_exists.mp hmatched
    obtain ⟨hlt, -⟩ := List.findIdx?_eq_some_iff_getElem.mp hi
    have hlength : (ofPatterns [pattern]).globs.length ≤ 1 := by
      rw [length_globs]
      exact globCount_le [pattern]
    obtain rfl : i = 0 := by omega
    exact hi
  rw [IgnoreList.matchIndex?, hglobs, List.findIdx?_append,
    findIdx?_globs_of_unmatched hunmatched, List.findIdx?_append, hfirst]
  simp [length_globs]

theorem FirstMatch.report {named : String} (h : FirstMatch patterns name before pattern)
    (hnamed : patterns[globCount before]? = some named) :
    (ofPatterns patterns).report name = [reason name named] := by
  have hbind : ((ofPatterns patterns).matchIndex? name).bind ((ofPatterns patterns).patterns[·]?) =
      some named := by
    rw [h.matchIndex?, Option.bind_some]
    exact hnamed
  rw [IgnoreList.report, hbind]
  rfl

/-- With fewer globs than patterns in front, the place of the glob is that of a
pattern in front, which does not ignore the name. -/
theorem FirstMatch.named_eq_iff {named : String} (h : FirstMatch patterns name before pattern)
    (hnamed : patterns[globCount before]? = some named) :
    named = pattern ↔ ∀ earlier ∈ before, (Compiled.ofPattern earlier).isSkipped = false := by
  obtain ⟨behind, hplace⟩ := h.place
  rw [← hplace, List.append_assoc] at hnamed
  rw [← globCount_eq_length_iff]
  constructor
  · rintro rfl
    rcases Nat.lt_or_eq_of_le (globCount_le before) with hshort | hcount
    · rw [List.getElem?_append_left hshort] at hnamed
      have hno := h.unmatched named (List.mem_of_getElem? hnamed)
      rw [h.matched] at hno
      cases hno
    · exact hcount
  · intro hcount
    rw [hcount, List.getElem?_append_right (Nat.le_refl _), Nat.sub_self] at hnamed
    exact (Option.some.inj hnamed).symm

/-- A name that is ignored is reported with the pattern at the place of the glob:
this is the first pattern that ignores the name by itself exactly if none of the
patterns before that one is skipped. -/
theorem report_names_firstMatch_iff (h : (ofPatterns patterns).isIgnored name = true) :
    ∃ before pattern named, FirstMatch patterns name before pattern ∧
      patterns[globCount before]? = some named ∧
      (ofPatterns patterns).report name = [reason name named] ∧
      (named = pattern ↔ ∀ earlier ∈ before, (Compiled.ofPattern earlier).isSkipped = false) := by
  obtain ⟨before, pattern, hfirst⟩ := exists_firstMatch h
  have hlt : globCount before < patterns.length := by
    have hlength := hfirst.place.length_le
    rw [List.length_append, List.length_singleton] at hlength
    exact Nat.lt_of_lt_of_le (Nat.lt_succ_of_le (globCount_le before)) hlength
  have hnamed := List.getElem?_eq_getElem hlt
  exact ⟨before, pattern, _, hfirst, hnamed, hfirst.report hnamed, hfirst.named_eq_iff hnamed⟩

/-- A pattern taken as text and one that does not match stand before the one that
does. -/
theorem report_of_textAndWildcards :
    (ofPatterns ["[z-a]", "*.h", "*.c", "a.*"]).isIgnored "a.c" = true ∧
      ∃ before pattern, FirstMatch ["[z-a]", "*.h", "*.c", "a.*"] "a.c" before pattern ∧
        (ofPatterns ["[z-a]", "*.h", "*.c", "a.*"]).report "a.c" = [reason "a.c" pattern] := by
  have hignored : (ofPatterns ["[z-a]", "*.h", "*.c", "a.*"]).isIgnored "a.c" = true := by
    decide +kernel
  have hkept : ∀ p ∈ ["[z-a]", "*.h", "*.c", "a.*"],
      (Compiled.ofPattern p).isSkipped = false := by
    decide +kernel
  obtain ⟨before, pattern, named, hfirst, -, hreport, hiff⟩ := report_names_firstMatch_iff hignored
  have hnamed : named = pattern :=
    hiff.mpr fun p hp => hkept p (hfirst.place.subset (List.mem_append_left _ hp))
  exact ⟨hignored, before, pattern, hfirst, hnamed ▸ hreport⟩

/-- Behind a skipped pattern the report names a pattern that does not match. -/
theorem report_of_skipped :
    (ofPatterns ["[z-a]\\", "*.c"]).isIgnored "a.c" = true ∧
      FirstMatch ["[z-a]\\", "*.c"] "a.c" ["[z-a]\\"] "*.c" ∧
      (ofPatterns ["[z-a]\\", "*.c"]).report "a.c" = [reason "a.c" "[z-a]\\"] ∧
      reason "a.c" "[z-a]\\" ≠ reason "a.c" "*.c" :=
  ⟨by decide +kernel, ⟨List.prefix_refl _, by decide +kernel, by decide +kernel⟩,
    by decide +kernel, by decide +kernel⟩

end IgnoreList

end LintRunner
