import LintRunner.Ignore.List

/-!
# Which names are linted

A name is that of a source by its last component alone, and an ignore list has
a name exactly if one of its patterns has it by itself. What is kept of a list
of names are the sources that no pattern has, in their order.
-/

namespace LintRunner

open Bytes (slash dot)

/-! ## The last component of a name -/

/-- Whether a piece between two slashes is a component. -/
def isComponent (piece : Bytes) : Bool :=
  !piece.isEmpty && piece != [dot]

def finalComponent (name : Bytes) : Option Bytes :=
  ((Text.splitOn slash name).filter isComponent).getLast?

/-- The component that a piece is, if it is one. -/
def namedComponent (piece : Bytes) : Path.Component :=
  if piece = [dot, dot] then .parent else .name piece

theorem ofSegment?_eq (piece : Bytes) :
    Path.Component.ofSegment? piece =
      if isComponent piece = true then some (namedComponent piece) else none := by
  rw [Path.Component.ofSegment?]
  by_cases hempty : piece.isEmpty = true
  · simp [isComponent, hempty]
  · by_cases hdot : piece = [dot]
    · simp [isComponent, hdot]
    · by_cases hparent : piece = [dot, dot]
      · simp [isComponent, namedComponent, hparent]
      · simp [isComponent, namedComponent, hempty, hdot, hparent]

theorem filterMap_ofSegment? (pieces : List Bytes) :
    pieces.filterMap Path.Component.ofSegment? =
      (pieces.filter isComponent).map namedComponent := by
  induction pieces with
  | nil => rfl
  | cons piece pieces ih =>
      rw [List.filterMap_cons, ofSegment?_eq, ih]
      by_cases h : isComponent piece = true <;> simp [h]

theorem splitOn_of_absolute {p : Path} (h : p.isAbsolute = true) :
    ∃ rest, p.segments = [] :: rest := by
  obtain ⟨raw⟩ := p
  cases raw with
  | nil => cases h
  | cons b raw =>
      obtain rfl : b = slash := by simpa [Path.isAbsolute] using h
      exact ⟨Text.splitOn slash raw, by simp [Path.segments, Text.splitOn]⟩

/-- The components of a path are those of its pieces, behind a mark for the root
or the current directory where the path starts with one. -/
theorem components_eq (p : Path) :
    ∃ front, (∀ bytes, .name bytes ∉ front) ∧
      p.components = front ++ (p.segments.filter isComponent).map namedComponent := by
  rw [Path.components]
  cases hsegments : p.segments with
  | nil => exact ⟨[], by simp, rfl⟩
  | cons first rest =>
      simp only [filterMap_ofSegment?]
      by_cases habsolute : p.isAbsolute = true
      · obtain ⟨rest', hrest⟩ := splitOn_of_absolute habsolute
        obtain ⟨rfl, rfl⟩ := List.cons.inj (hsegments.symm.trans hrest)
        exact ⟨[.root], by simp, by simp [habsolute, isComponent]⟩
      · by_cases hdot : first = [dot]
        · exact ⟨[.current], by simp, by simp [habsolute, hdot, isComponent]⟩
        · refine ⟨[], by simp, ?_⟩
          rw [if_neg habsolute, if_neg (by simpa using hdot), ofSegment?_eq]
          by_cases h : isComponent first = true <;> simp [h]

/-- A file name is the last component, unless that is a step to the parent. -/
theorem fileName?_eq_some (p : Path) (name : Bytes) :
    p.fileName? = some name ↔ finalComponent p.raw = some name ∧ name ≠ [dot, dot] := by
  have hlast : p.fileName? = some name ↔ p.components.getLast? = some (.name name) := by
    rw [Path.fileName?]
    split
    · rename_i bytes h
      simp [h]
    · rename_i hno
      constructor
      · intro h
        cases h
      · intro h
        exact absurd h (hno name)
  have hnamed : ∀ piece : Bytes,
      namedComponent piece = .name name ↔ piece = name ∧ name ≠ [dot, dot] := by
    intro piece
    rw [namedComponent]
    split
    · rename_i h
      simp only [reduceCtorEq, false_iff, not_and, ne_eq, Classical.not_not, h]
      exact fun h => h.symm
    · rename_i h
      simp only [Path.Component.name.injEq, ne_eq, iff_self_and]
      rintro rfl
      exact h
  obtain ⟨front, hfront, hcomponents⟩ := components_eq p
  have hfinal : finalComponent p.raw = (p.segments.filter isComponent).getLast? := rfl
  rw [hlast, hcomponents, hfinal, List.getLast?_append, List.getLast?_map]
  cases (p.segments.filter isComponent).getLast? with
  | some piece => simp [hnamed]
  | none =>
      simp only [Option.map_none, Option.none_or, reduceCtorEq, false_and, iff_false]
      intro h
      exact hfront name (List.mem_of_getLast? h)

/-! ## Sources -/

/-- The last component of the name is something, a dot, and an extension. -/
def SourceName (name : String) : Prop :=
  ∃ stem : Bytes, ∃ ext ∈ sourceExtensions, stem ≠ [] ∧
    finalComponent (Bytes.ofText name) = some (stem ++ dot :: Bytes.ofText ext)

theorem extensionOf?_eq_some (name ext : Bytes) :
    Path.extensionOf? name = some ext ↔
      ∃ stem, stem ≠ [] ∧ dot ∉ ext ∧ name = stem ++ dot :: ext := by
  constructor
  · intro h
    have hsplit := List.takeWhile_append_dropWhile (p := (· != dot)) (l := name.reverse)
    rw [Path.extensionOf?] at h
    split at h
    · cases h
    · rename_i hstem
      obtain rfl := Option.some.inj h
      cases hdrop : name.reverse.dropWhile (· != dot) with
      | nil => simp [hdrop] at hstem
      | cons b stem =>
          have hb : (b != dot) = false := by
            have := List.head?_dropWhile_not (· != dot) name.reverse
            simpa [hdrop] using this
          obtain rfl : b = dot := by simpa using hb
          refine ⟨stem.reverse, by simpa [hdrop] using hstem, ?_, ?_⟩
          · intro hmem
            have := List.all_eq_true.mp List.all_takeWhile _ (List.mem_reverse.mp hmem)
            simp at this
          · calc
              name = name.reverse.reverse := (List.reverse_reverse name).symm
              _ = (name.reverse.takeWhile (· != dot) ++ dot :: stem).reverse := by
                rw [← hdrop, hsplit]
              _ = stem.reverse ++ dot :: (name.reverse.takeWhile (· != dot)).reverse := by
                rw [List.reverse_append, List.reverse_cons, List.append_assoc]
                rfl
  · rintro ⟨stem, hstem, hext, rfl⟩
    have hall : ∀ b ∈ ext.reverse, (b != dot) = true := by
      intro b hb
      simp only [bne_iff_ne]
      rintro rfl
      exact hext (List.mem_reverse.mp hb)
    have hreverse : (stem ++ dot :: ext).reverse = ext.reverse ++ dot :: stem.reverse := by simp
    rw [Path.extensionOf?, hreverse, List.takeWhile_append_of_pos hall,
      List.dropWhile_append_of_pos hall]
    simp [hstem]

theorem dot_not_mem_extension {ext : String} (h : ext ∈ sourceExtensions) :
    dot ∉ Bytes.ofText ext ∧ Bytes.ofText ext ≠ [] := by
  have hall : ∀ ext ∈ sourceExtensions, dot ∉ Bytes.ofText ext ∧ Bytes.ofText ext ≠ [] := by decide
  exact hall ext h

theorem isSourceFile_iff (name : String) : isSourceFile name = true ↔ SourceName name := by
  have hext : isSourceFile name = true ↔
      ∃ ext ∈ sourceExtensions, (Path.ofText name).extension? = some (Bytes.ofText ext) := by
    rw [isSourceFile]
    cases (Path.ofText name).extension? with
    | none => simp
    | some ext =>
        rw [List.any_eq_true]
        simp only [beq_iff_eq, Option.some.injEq]
        exact ⟨fun ⟨known, hmem, h⟩ => ⟨known, hmem, h.symm⟩,
          fun ⟨known, hmem, h⟩ => ⟨known, hmem, h.symm⟩⟩
  have hraw : (Path.ofText name).raw = Bytes.ofText name := rfl
  rw [hext]
  simp only [Path.extension?, Option.bind_eq_some_iff, fileName?_eq_some, extensionOf?_eq_some,
    hraw]
  constructor
  · rintro ⟨ext, hmem, _, ⟨hfinal, -⟩, stem, hstem, -, rfl⟩
    exact ⟨stem, ext, hmem, hstem, hfinal⟩
  · rintro ⟨stem, ext, hmem, hstem, hfinal⟩
    obtain ⟨hdot, hne⟩ := dot_not_mem_extension hmem
    refine ⟨ext, hmem, _, ⟨hfinal, ?_⟩, stem, hstem, hdot, rfl⟩
    -- The last byte of a parent is a dot, and that of an extension is none.
    intro h
    have hends := congrArg List.getLast? h
    rw [List.getLast?_append, List.getLast?_cons_of_ne_nil hne] at hends
    cases hlast : (Bytes.ofText ext).getLast? with
    | none => exact hne (List.getLast?_eq_none_iff.mp hlast)
    | some b =>
        rw [hlast] at hends
        obtain rfl : b = dot := Option.some.inj hends
        exact hdot (List.mem_of_getLast? hlast)

instance : DecidablePred SourceName :=
  fun name => decidable_of_iff _ (isSourceFile_iff name)

/-! ## Ignore lists -/

namespace IgnoreList

theorem ofPattern_of_wildcard {pattern : String} {glob : Glob}
    (hread : Glob.ofText Wildcard.dialect (Wildcard.toGlob pattern.toList) = .ok glob) :
    Compiled.ofPattern pattern = .wildcard glob := by
  simp only [Compiled.ofPattern, hread]

theorem ofPattern_of_text {pattern : String} {why : Glob.Fault} {glob : Glob}
    (hrefused : Glob.ofText Wildcard.dialect (Wildcard.toGlob pattern.toList) = .error why)
    (hread : Glob.ofText Wildcard.textDialect (Wildcard.escape pattern.toList) = .ok glob) :
    Compiled.ofPattern pattern = .text glob why := by
  simp only [Compiled.ofPattern, hrefused, hread]

theorem ofPattern_of_no_text {pattern : String} {why whyNoText : Glob.Fault}
    (hrefused : Glob.ofText Wildcard.dialect (Wildcard.toGlob pattern.toList) = .error why)
    (hread : Glob.ofText Wildcard.textDialect (Wildcard.escape pattern.toList) =
      .error whyNoText) :
    Compiled.ofPattern pattern = .skipped why whyNoText := by
  simp only [Compiled.ofPattern, hrefused, hread]

theorem isIgnored_eq (patterns : List String) (name : String) :
    (ofPatterns patterns).isIgnored name =
      patterns.any fun p => (Compiled.ofPattern p).glob?.any (·.isMatch name) := by
  rw [isIgnored, matchIndex?, ofPatterns, List.findIdx?_isSome, List.any_filterMap]
  rfl

/-- A list has the names that its patterns have by themselves. -/
theorem isIgnored_iff_alone (patterns : List String) (name : String) :
    (ofPatterns patterns).isIgnored name = true ↔
      ∃ p ∈ patterns, (ofPatterns [p]).isIgnored name = true := by
  simp [isIgnored_eq]

/-- A name that is linted: a source that no pattern has. -/
def Lintable (patterns : List String) (name : String) : Prop :=
  SourceName name ∧ ∀ p ∈ patterns, (ofPatterns [p]).isIgnored name = false

instance (patterns : List String) : DecidablePred (Lintable patterns) :=
  fun _ => inferInstanceAs (Decidable (_ ∧ _))

theorem keepSources_eq (patterns names : List String) :
    (ofPatterns patterns).keepSources names = names.filter (Lintable patterns) := by
  rw [keepSources]
  congr 1
  funext name
  rw [Bool.eq_iff_iff, Bool.and_eq_true, isSourceFile_iff, decide_eq_true_iff, Lintable,
    Bool.not_eq_true', ← Bool.not_eq_true, isIgnored_iff_alone]
  simp

end IgnoreList

end LintRunner
