import LintRunner.Proofs.MatchedPattern
import LintRunner.Proofs.QuotedText
import Mathlib.Data.List.Forall2

/-!
# Every place is that of a pattern

The globs of a list are made of its patterns one by one, in their order, and only of
those that the log does not call skipped. So there are at most as many globs as
patterns: the place of any glob that matches a name is a place in the list of patterns
too, and the pattern that is looked up there is always found.
-/

namespace LintRunner

/-- The glob is made of the pattern: as a wildcard pattern, or as a plain text where the
pattern is no wildcard pattern. -/
inductive CompiledTo (pattern : String) (glob : Glob) : Prop
  | wildcard :
      Glob.ofText Wildcard.dialect (Wildcard.toGlob pattern.toList) = .ok glob →
      CompiledTo pattern glob
  | text (why : Glob.Fault) :
      Glob.ofText Wildcard.dialect (Wildcard.toGlob pattern.toList) = .error why →
      Glob.ofText Wildcard.textDialect (Wildcard.escape pattern.toList) = .ok glob →
      CompiledTo pattern glob

namespace Compiled

variable {pattern other : String} {record : Log.Record}

theorem glob?_eq_some_iff {glob : Glob} :
    (ofPattern pattern).glob? = some glob ↔ CompiledTo pattern glob := by
  constructor
  · intro h
    cases hwildcard : Glob.ofText Wildcard.dialect (Wildcard.toGlob pattern.toList) with
    | ok made =>
        rw [IgnoreList.ofPattern_of_wildcard hwildcard] at h
        obtain rfl : made = glob := Option.some.inj h
        exact .wildcard hwildcard
    | error why =>
        cases htext : Glob.ofText Wildcard.textDialect (Wildcard.escape pattern.toList) with
        | ok made =>
            rw [IgnoreList.ofPattern_of_text hwildcard htext] at h
            obtain rfl : made = glob := Option.some.inj h
            exact .text why hwildcard htext
        | error whyNoText =>
            rw [IgnoreList.ofPattern_of_no_text hwildcard htext] at h
            cases h
  · rintro (hwildcard | ⟨why, hwildcard, htext⟩)
    · rw [IgnoreList.ofPattern_of_wildcard hwildcard]
      rfl
    · rw [IgnoreList.ofPattern_of_text hwildcard htext]
      rfl

/-! ## What the log says of a pattern -/

/-- The record calls the pattern skipped, whatever it gives as the reason. -/
def SaysSkipped (pattern : String) (record : Log.Record) : Prop :=
  record.level = .warn ∧
    s!"Ignore pattern {Text.quoted pattern} is skipped: ".toList <+: record.text.toList

instance (pattern : String) : DecidablePred (SaysSkipped pattern) :=
  fun _ => inferInstanceAs (Decidable (_ ∧ _))

theorem saysSkipped_noText (pattern : String) (why : Glob.Fault) :
    SaysSkipped pattern (warnings.noText pattern why) :=
  ⟨rfl, by simp [warnings.noText]⟩

theorem eq_of_saysSkipped_noText {why : Glob.Fault}
    (h : SaysSkipped pattern (warnings.noText other why)) : pattern = other := by
  obtain ⟨-, hprefix⟩ := h
  simp only [warnings.noText, String.toList_append, List.append_assoc,
    List.prefix_append_right_inj] at hprefix
  exact (Text.prefix_of_quoted_prefix hprefix).1

theorem not_saysSkipped_noWildcard (pattern other : String) (why : Glob.Fault) :
    ¬ SaysSkipped pattern (warnings.noWildcard other why) := by
  rintro ⟨-, hprefix⟩
  simp only [warnings.noWildcard, String.toList_append, List.append_assoc,
    List.prefix_append_right_inj] at hprefix
  obtain ⟨-, hwords⟩ := Text.prefix_of_quoted_prefix hprefix
  have hsame : " is skipped: ".toList <+: " is matched literally: ".toList :=
    List.prefix_of_prefix_length_le hwords (List.prefix_append _ _) (by decide)
  exact absurd hsame (by decide)

/-- Of the records about a pattern only one calls a pattern skipped, and that is the
pattern itself. -/
theorem skipped_of_mem_warnings {c : Compiled} (hrecord : record ∈ c.warnings other)
    (h : SaysSkipped pattern record) : pattern = other ∧ c.isSkipped = true := by
  cases c with
  | wildcard glob => cases hrecord
  | text glob why =>
      obtain rfl := List.mem_singleton.mp hrecord
      exact absurd h (not_saysSkipped_noWildcard _ _ _)
  | skipped why whyNoText =>
      rcases List.mem_pair.mp hrecord with rfl | rfl
      · exact absurd h (not_saysSkipped_noWildcard _ _ _)
      · exact ⟨eq_of_saysSkipped_noText h, rfl⟩

theorem exists_mem_warnings {c : Compiled} (h : c.isSkipped = true) :
    ∃ record ∈ c.warnings pattern, SaysSkipped pattern record := by
  cases c with
  | wildcard glob => cases h
  | text glob why => cases h
  | skipped why whyNoText =>
      exact ⟨_, List.mem_pair.mpr (Or.inr rfl), saysSkipped_noText pattern whyNoText⟩

end Compiled

namespace IgnoreList

variable {patterns : List String} {pattern name : String}

/-- What was said while the patterns were compiled calls the pattern skipped. -/
def CalledSkipped (patterns : List String) (pattern : String) : Prop :=
  ∃ record ∈ warnings patterns, Compiled.SaysSkipped pattern record

instance (patterns : List String) : DecidablePred (CalledSkipped patterns) :=
  fun _ => inferInstanceAs (Decidable (∃ record ∈ warnings patterns, _))

/-- The patterns that are not called skipped. -/
def kept (patterns : List String) : List String :=
  patterns.filter fun p => ¬ CalledSkipped patterns p

theorem calledSkipped_iff (h : pattern ∈ patterns) :
    CalledSkipped patterns pattern ↔ (Compiled.ofPattern pattern).isSkipped = true := by
  constructor
  · rintro ⟨record, hrecord, hsays⟩
    obtain ⟨other, -, hother⟩ := List.mem_flatMap.mp hrecord
    obtain ⟨rfl, hskipped⟩ := Compiled.skipped_of_mem_warnings hother hsays
    exact hskipped
  · intro hskipped
    obtain ⟨record, hrecord, hsays⟩ := Compiled.exists_mem_warnings hskipped
    exact ⟨record, List.mem_flatMap.mpr ⟨pattern, h, hrecord⟩, hsays⟩

theorem kept_eq (patterns : List String) :
    kept patterns = patterns.filter fun p => (Compiled.ofPattern p).glob?.isSome := by
  refine List.filter_congr fun p hp => ?_
  rw [Compiled.isSome_glob?, Bool.eq_iff_iff, decide_eq_true_iff, calledSkipped_iff hp,
    Bool.not_eq_true', Bool.not_eq_true]

theorem mem_kept_iff :
    pattern ∈ kept patterns ↔ pattern ∈ patterns ∧ ∃ glob, CompiledTo pattern glob := by
  simp only [kept_eq, List.mem_filter, Option.isSome_iff_exists, Compiled.glob?_eq_some_iff]

/-! ## The globs -/

/-- A pattern adds its own glob behind those before it, or nothing if it is skipped. -/
theorem forall₂_globs (patterns : List String) :
    List.Forall₂ CompiledTo (kept patterns) (ofPatterns patterns).globs := by
  rw [kept_eq]
  induction patterns with
  | nil => exact .nil
  | cons p patterns ih =>
      cases hglob : (Compiled.ofPattern p).glob? with
      | none =>
          have hglobs : (ofPatterns (p :: patterns)).globs = (ofPatterns patterns).globs := by
            simp only [ofPatterns, List.filterMap_cons, hglob]
          rw [hglobs, List.filter_cons_of_neg (by simp [hglob])]
          exact ih
      | some glob =>
          have hglobs :
              (ofPatterns (p :: patterns)).globs = glob :: (ofPatterns patterns).globs := by
            simp only [ofPatterns, List.filterMap_cons, hglob]
          rw [hglobs, List.filter_cons_of_pos (by simp [hglob])]
          exact .cons (Compiled.glob?_eq_some_iff.mp hglob) ih

/-- The places of all globs that match the name, in their order. -/
def places (list : IgnoreList) (name : String) : List Nat :=
  list.globs.findIdxs (·.isMatch name)

theorem lt_of_mem_places {i : Nat} (h : i ∈ (ofPatterns patterns).places name) :
    i < patterns.length := by
  obtain ⟨hlt, -⟩ := List.mem_findIdxs_iff_exists_getElem_pos.mp h
  calc
    i < (ofPatterns patterns).globs.length := hlt
    _ = (kept patterns).length := (forall₂_globs patterns).length_eq.symm
    _ ≤ patterns.length := List.length_filter_le _ _

theorem head?_findIdxs {α : Type} (p : α → Bool) (xs : List α) (start : Nat) :
    (xs.findIdxs p start).head? = (xs.findIdx? p).map (· + start) := by
  induction xs generalizing start with
  | nil => rfl
  | cons x xs ih =>
      rw [List.findIdxs_cons, List.findIdx?_cons]
      split
      · simp
      · rw [ih, Option.map_map]
        simp [Function.comp_def, Nat.add_comm, Nat.add_left_comm]

/-- The glob that decides is the first of those that match. -/
theorem matchIndex?_eq (list : IgnoreList) (name : String) :
    list.matchIndex? name = (list.places name).head? := by
  rw [places, head?_findIdxs]
  exact Option.map_id'.symm

/-- The glob that decides has no place beyond those of the patterns. -/
theorem matchIndex?_lt {i : Nat} (h : (ofPatterns patterns).matchIndex? name = some i) :
    i < patterns.length :=
  lt_of_mem_places (List.mem_of_mem_head? ((matchIndex?_eq _ name).symm.trans h))

/-- A name that is ignored is looked up at the first place, and a pattern is found there. -/
theorem report_of_isIgnored (h : (ofPatterns patterns).isIgnored name = true) :
    ∃ i pattern, ((ofPatterns patterns).places name).head? = some i ∧
      patterns[i]? = some pattern ∧ (ofPatterns patterns).report name = [reason name pattern] := by
  rw [isIgnored, Option.isSome_iff_exists] at h
  obtain ⟨i, hi⟩ := h
  have hlt : i < patterns.length := matchIndex?_lt hi
  have hfound : (ofPatterns patterns).patterns[i]? = some patterns[i] :=
    List.getElem?_eq_getElem hlt
  refine ⟨i, _, (matchIndex?_eq _ name).symm.trans hi, hfound, ?_⟩
  rw [report, hi, Option.bind_some, hfound]
  rfl

theorem report_of_not_isIgnored {list : IgnoreList} (h : list.isIgnored name = false) :
    list.report name = [] := by
  rw [isIgnored, Option.isSome_eq_false_iff, Option.isNone_iff_eq_none] at h
  rw [report, h]
  rfl

/-- The globs are made, in order, of the patterns that the log does not call skipped, and
these are the patterns of which a glob can be made. So every place at which a glob
matches a name is a place in the list of patterns: a name that is ignored is reported
with the pattern found at the first place, and any other name without looking one up. -/
theorem places_within_patterns (patterns : List String) :
    (kept patterns).Sublist patterns ∧
    List.Forall₂ CompiledTo (kept patterns) (ofPatterns patterns).globs ∧
    (∀ p, p ∈ kept patterns ↔ p ∈ patterns ∧ ∃ glob, CompiledTo p glob) ∧
    ∀ name,
      (∀ i ∈ (ofPatterns patterns).places name, i < patterns.length) ∧
      ((ofPatterns patterns).isIgnored name = true →
        ∃ i pattern, ((ofPatterns patterns).places name).head? = some i ∧
          patterns[i]? = some pattern ∧
          (ofPatterns patterns).report name = [reason name pattern]) ∧
      ((ofPatterns patterns).isIgnored name = false → (ofPatterns patterns).report name = []) :=
  ⟨List.filter_sublist, forall₂_globs patterns, fun _ => mem_kept_iff, fun _ =>
    ⟨fun _ => lt_of_mem_places, report_of_isIgnored, report_of_not_isIgnored⟩⟩

/-- A pattern that is skipped, and one that is taken as text between wildcards. -/
def mixedPatterns : List String :=
  ["[z-a]\\", "*.h", "[z-a]", "*.c", "a.*"]

theorem places_of_mixedPatterns :
    kept mixedPatterns = ["*.h", "[z-a]", "*.c", "a.*"] ∧
      (ofPatterns mixedPatterns).places "a.c" = [2, 3] ∧
      (∀ i ∈ [2, 3], i < mixedPatterns.length) ∧
      ∃ pattern, mixedPatterns[2]? = some pattern ∧
        (ofPatterns mixedPatterns).report "a.c" = [reason "a.c" pattern] := by
  have hkept : kept mixedPatterns = ["*.h", "[z-a]", "*.c", "a.*"] := by
    rw [kept_eq]
    decide +kernel
  have hplaces : (ofPatterns mixedPatterns).places "a.c" = [2, 3] := by decide +kernel
  have hignored : (ofPatterns mixedPatterns).isIgnored "a.c" = true := by decide +kernel
  obtain ⟨-, -, -, hname⟩ := places_within_patterns mixedPatterns
  obtain ⟨hlt, hreport, -⟩ := hname "a.c"
  rw [hplaces] at hlt hreport
  obtain ⟨i, pattern, hi, hpattern, hreport⟩ := hreport hignored
  obtain rfl := Option.some.inj hi
  exact ⟨hkept, hplaces, hlt, pattern, hpattern, hreport⟩

end IgnoreList

end LintRunner
