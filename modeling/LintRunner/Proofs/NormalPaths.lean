import LintRunner.Proofs.Coverage

/-!
# Normal paths

Resolving a path by its letters leaves the names that no step back has taken. A step back
takes the nearest name that is still there before it; where none is there it is dropped.
What comes out has nothing left to resolve, and such paths are all that resolving leaves
alone. A path that goes on behind another one may be resolved before or after they are
joined.
-/

namespace LintRunner

open Bytes (slash dot)

namespace Text

variable {α : Type} [BEq α] [LawfulBEq α] {separator : α}

theorem mem_tail_splitOn (a : List α) {b piece : List α} (h : piece ∈ splitOn separator b) :
    piece ∈ (splitOn separator (a ++ separator :: b)).tail := by
  rw [splitOn_append]
  obtain ⟨first, pieces, hfirst⟩ := List.exists_cons_of_ne_nil (splitOn_ne_nil separator a)
  rw [hfirst]
  exact List.mem_append_right pieces h

theorem nil_mem_splitOn {l : List α} (h : [] ∈ splitOn separator l) :
    l = [] ∨ l.head? = some separator ∨ [] ∈ (splitOn separator l).tail := by
  cases l with
  | nil => exact Or.inl rfl
  | cons a rest =>
      by_cases ha : a = separator
      · exact Or.inr (Or.inl (congrArg some ha))
      · refine Or.inr (Or.inr ?_)
        rw [splitOn, if_neg (by simpa using ha)] at h ⊢
        split at h
        · simp at h
        · rcases List.mem_cons.mp h with h | h
          · cases h
          · exact h

/-- Behind the first piece there is an empty one exactly if two separators stand together,
or one at the end. -/
theorem nil_mem_tail_splitOn_iff (l : List α) :
    [] ∈ (splitOn separator l).tail ↔
      [separator, separator] <:+: l ∨ l.getLast? = some separator := by
  constructor
  · intro h
    induction l with
    | nil => cases h
    | cons a rest ih =>
        have hbehind : [] ∈ (splitOn separator rest).tail →
            [separator, separator] <:+: a :: rest ∨ (a :: rest).getLast? = some separator := by
          intro hrest
          rcases ih hrest with hpair | hlast
          · exact Or.inl (hpair.trans (List.suffix_cons a rest).isInfix)
          · exact Or.inr (by rw [List.getLast?_cons, hlast]; rfl)
        rw [splitOn] at h
        split at h
        · rename_i ha
          obtain rfl : a = separator := beq_iff_eq.mp ha
          rcases nil_mem_splitOn h with rfl | hhead | hrest
          · exact Or.inr rfl
          · obtain ⟨rest, rfl⟩ := List.head?_eq_some_iff.mp hhead
            exact Or.inl (List.prefix_append [a, a] rest).isInfix
          · exact hbehind hrest
        · apply hbehind
          split at h
          · cases h
          · rename_i hsplit
            rw [hsplit]
            exact h
  · rintro (⟨a, b, rfl⟩ | hlast)
    · rw [List.append_assoc]
      exact mem_tail_splitOn a (by simp [splitOn])
    · obtain ⟨front, rfl⟩ := List.getLast?_eq_some_iff.mp hlast
      exact mem_tail_splitOn front (by simp [splitOn])

end Text

namespace Path

/-! ## Names that are left -/

/-- These components come back to where they begin, and never go behind it: each name
among them has a step back of its own. -/
inductive Returns : List Component → Prop
  | nil : Returns []
  | root {cs : List Component} : Returns cs → Returns (.root :: cs)
  | current {cs : List Component} : Returns cs → Returns (.current :: cs)
  | detour {bytes : Bytes} {inner cs : List Component} : Returns inner → Returns cs →
      Returns (.name bytes :: inner ++ .parent :: cs)

/-- The names that are left of the components, in order. A step back that finds no name
before it that is left is dropped. -/
inductive Leaves : List Component → List Bytes → Prop
  | nothing {cs : List Component} : Returns cs → Leaves cs []
  | dropped {before behind : List Component} : Leaves before [] → Returns behind →
      Leaves (before ++ .parent :: behind) []
  | name {before behind : List Component} {names : List Bytes} {bytes : Bytes} :
      Leaves before names → Returns behind →
      Leaves (before ++ .name bytes :: behind) (names ++ [bytes])

theorem Returns.append {cs cs' : List Component} (h : Returns cs) (h' : Returns cs') :
    Returns (cs ++ cs') := by
  induction h with
  | nil => exact h'
  | root _ ih => exact ih.root
  | current _ ih => exact ih.current
  | detour hinner _ _ ih =>
      rw [List.append_assoc]
      exact hinner.detour ih

theorem Returns.foldl_climb {cs : List Component} (h : Returns cs) :
    ∀ names : List Bytes, cs.foldl climb names = names := by
  induction h with
  | nil =>
      intro names
      rfl
  | root _ ih => exact ih
  | current _ ih => exact ih
  | @detour bytes inner cs _ _ ih ih' =>
      intro names
      rw [List.foldl_append, List.foldl_cons, List.foldl_cons, climb, ih]
      exact ih' names

theorem Leaves.append {cs cs' : List Component} {names : List Bytes} (h : Leaves cs names)
    (h' : Returns cs') : Leaves (cs ++ cs') names := by
  cases h with
  | nothing hreturns => exact .nothing (hreturns.append h')
  | dropped hbefore hbehind =>
      rw [List.append_assoc]
      exact hbefore.dropped (hbehind.append h')
  | name hbefore hbehind =>
      rw [List.append_assoc]
      exact hbefore.name (hbehind.append h')

theorem Leaves.foldl_climb {cs : List Component} {names : List Bytes} (h : Leaves cs names) :
    cs.foldl climb [] = names.reverse := by
  induction h with
  | nothing hreturns => exact hreturns.foldl_climb []
  | dropped _ hbehind ih =>
      rw [List.foldl_append, ih, List.foldl_cons, hbehind.foldl_climb]
      rfl
  | name _ hbehind ih =>
      rw [List.foldl_append, ih, List.foldl_cons, hbehind.foldl_climb, List.reverse_concat]
      rfl

/-- A step back takes the last name that is left. -/
theorem Leaves.back {cs : List Component} {names : List Bytes} {bytes : Bytes}
    (h : Leaves cs (names ++ [bytes])) : Leaves (cs ++ [.parent]) names := by
  generalize hnames : names ++ [bytes] = left at h
  cases h with
  | nothing _ => simp at hnames
  | dropped _ _ => simp at hnames
  | name hbefore hbehind =>
      obtain ⟨rfl, -⟩ := List.append_inj' hnames rfl
      rw [List.append_assoc]
      exact hbefore.append (hbehind.detour .nil)

theorem leaves_foldl_climb (cs : List Component) : Leaves cs (cs.foldl climb []).reverse := by
  induction cs using List.reverseRecOn with
  | nil => exact .nothing .nil
  | append_singleton cs c ih =>
      rw [List.foldl_append, List.foldl_cons, List.foldl_nil]
      cases c with
      | root => exact ih.append (Returns.nil.root)
      | current => exact ih.append (Returns.nil.current)
      | name bytes =>
          rw [climb, List.reverse_cons]
          exact ih.name .nil
      | parent =>
          cases hleft : cs.foldl climb [] with
          | nil =>
              rw [hleft] at ih
              exact ih.dropped .nil
          | cons bytes names =>
              rw [hleft, List.reverse_cons] at ih
              exact ih.back

theorem leaves_iff (p : Path) (names : List Bytes) :
    Leaves p.components names ↔ p.resolve.names = names := by
  constructor
  · intro h
    show (p.components.foldl climb []).reverse = names
    rw [h.foldl_climb, List.reverse_reverse]
  · rintro rfl
    exact leaves_foldl_climb p.components

/-! ## Normal spellings -/

/-- A path with nothing to resolve: no step that stays or goes back, no slashes side by
side, and none at the end but that of the root. -/
structure Normal (p : Path) : Prop where
  current : [dot] ∉ p.segments
  parent : [dot, dot] ∉ p.segments
  doubled : ¬ [slash, slash] <:+: p.raw
  trailing : p.raw.getLast? = some slash → p.raw = [slash]

section

variable {r : Resolved} (hr : Place.Proper r.names)

include hr

theorem ofSegment?_of_proper {name : Bytes} (hname : name ∈ r.names) :
    Component.ofSegment? name = some (.name name) := by
  obtain ⟨hempty, hdot, hparent, -⟩ := hr name hname
  rw [Component.ofSegment?, if_neg (by simpa using ⟨hempty, hdot⟩), if_neg (by simpa using hparent)]

theorem components_path :
    r.path.components = (if r.absolute then [.root] else []) ++ r.names.map .name := by
  cases habsolute : r.absolute with
  | true =>
      have hnames : r.path.follow [] = r.names := follow_path hr []
      rw [components_of_forward (isAbsolute_path habsolute) (forward_path hr), hnames]
      rfl
  | false =>
      have hrelative : r.path.isAbsolute = false := (isAbsolute_path_eq hr).trans habsolute
      have hpieces : r.names.filterMap Component.ofSegment? = r.names.map .name := by
        rw [← List.filterMap_eq_map]
        exact List.filterMap_congr fun name hname => ofSegment?_of_proper hr hname
      have hsegments := segments_path hr
      rw [habsolute] at hsegments
      rw [components, hsegments, hrelative]
      cases hnames : r.names with
      | nil => rfl
      | cons first rest =>
          have hfirst : first ∈ r.names := hnames ▸ List.mem_cons_self
          have hdot : ¬ (first == [dot]) = true := by simpa using (hr first hfirst).2.1
          rw [hnames, List.filterMap_cons, ofSegment?_of_proper hr hfirst] at hpieces
          show (if (first == [dot]) = true then _ else _) = _
          rw [if_neg hdot, ofSegment?_of_proper hr hfirst]
          exact hpieces

theorem nil_not_mem_tail_segments_path (hraw : r.path.raw ≠ [slash]) :
    [] ∉ r.path.segments.tail := by
  have hnil : [] ∉ r.names := fun hmem => (hr [] hmem).1 rfl
  rw [segments_path hr]
  by_cases hnames : r.names = []
  · have hrelative : r.absolute = false := by
      cases habsolute : r.absolute with
      | false => rfl
      | true =>
          refine absurd ?_ hraw
          rw [Resolved.path, if_pos habsolute, hnames]
          rfl
    rw [if_pos hnames, hrelative]
    exact List.not_mem_nil
  · rw [if_neg hnames]
    cases r.absolute with
    | true => exact hnil
    | false => exact fun hmem => hnil (List.mem_of_mem_tail hmem)

theorem normal_path : r.path.Normal := by
  have hempty := nil_not_mem_tail_segments_path hr
  have hpieces : [] ∈ r.path.segments.tail ↔
      [slash, slash] <:+: r.path.raw ∨ r.path.raw.getLast? = some slash :=
    Text.nil_mem_tail_splitOn_iff r.path.raw
  refine ⟨?_, ?_, ?_, ?_⟩
  · exact step_not_mem_segments_path hr (by decide) fun hmem => (hr _ hmem).2.1 rfl
  · exact step_not_mem_segments_path hr (by decide) fun hmem => (hr _ hmem).2.2.1 rfl
  · intro hdoubled
    by_cases hraw : r.path.raw = [slash]
    · rw [hraw] at hdoubled
      exact absurd hdoubled.length_le (by decide)
    · exact hempty hraw (hpieces.mpr (Or.inl hdoubled))
  · intro htrailing
    by_contra hraw
    exact hempty hraw (hpieces.mpr (Or.inr htrailing))

end

/-- A normal path is spelled by the names between its slashes. -/
theorem Normal.exists_path {p : Path} (h : p.Normal) :
    ∃ r : Resolved, Place.Proper r.names ∧ r.path = p := by
  by_cases hroot : p.raw = [slash]
  · refine ⟨⟨true, []⟩, Place.proper_nil, ?_⟩
    exact congrArg Path.mk hroot.symm
  have hempty : [] ∉ p.segments.tail := by
    intro hmem
    rcases (Text.nil_mem_tail_splitOn_iff p.raw).mp hmem with hdoubled | htrailing
    · exact h.doubled hdoubled
    · exact hroot (h.trailing htrailing)
  -- steps that are not empty are proper names, since no other ones are in a normal path
  have hproper : ∀ pieces : List Bytes, pieces ⊆ p.segments → [] ∉ pieces →
      Place.Proper pieces := by
    intro pieces hpieces hnil piece hpiece
    have hsegment : piece ∈ p.segments := hpieces hpiece
    refine ⟨fun hpiece' => hnil (hpiece' ▸ hpiece), fun hdot => h.current (hdot ▸ hsegment),
      fun hparent => h.parent (hparent ▸ hsegment), Text.not_mem_of_mem_splitOn hsegment⟩
  cases habsolute : p.isAbsolute with
  | true =>
      obtain ⟨rest, hraw⟩ := raw_of_isAbsolute habsolute
      have hsegments : p.segments = [] :: Text.splitOn slash rest := by
        rw [segments, hraw, Text.splitOn, if_pos (beq_self_eq_true _)]
      rw [hsegments] at hempty hproper
      refine ⟨⟨true, Text.splitOn slash rest⟩, hproper _ (List.subset_cons_self _ _) hempty, ?_⟩
      show Path.mk (slash :: Text.joinWith slash (Text.splitOn slash rest)) = p
      rw [Text.joinWith_splitOn, ← hraw]
  | false =>
      by_cases hnone : p.raw = []
      · refine ⟨⟨false, []⟩, Place.proper_nil, ?_⟩
        exact congrArg Path.mk hnone.symm
      have hnil : [] ∉ p.segments := by
        intro hmem
        rcases Text.nil_mem_splitOn hmem with hraw | hhead | htail
        · exact hnone hraw
        · rw [isAbsolute, hhead] at habsolute
          exact absurd habsolute (by decide)
        · exact hempty htail
      refine ⟨⟨false, p.segments⟩, hproper _ (List.Subset.refl _) hnil, ?_⟩
      show Path.mk (Text.joinWith slash (Text.splitOn slash p.raw)) = p
      rw [Text.joinWith_splitOn]

theorem normalize_eq_self_iff (p : Path) : p.normalize = p ↔ p.Normal := by
  constructor
  · intro h
    rw [← h]
    exact normal_path p.proper_resolve
  · intro h
    obtain ⟨r, hr, rfl⟩ := h.exists_path
    rw [normalize, resolve_path hr]

/-! ## Joining -/

theorem normalize_join (p q : Path) : (p.join q).normalize = (p.normalize.join q).normalize := by
  have habsolute : p.normalize.isAbsolute = p.isAbsolute :=
    congrArg Resolved.absolute (resolve_normalize p)
  have hfollow : p.normalize.follow [] = p.follow [] := by
    rw [← resolve_names, ← resolve_names, resolve_normalize]
  have hresolve : (p.join q).resolve = (p.normalize.join q).resolve := by
    have hnames : (p.join q).resolve.names = (p.normalize.join q).resolve.names := by
      rw [resolve_names, resolve_names, follow_join_eq, follow_join_eq, hfollow]
    show Resolved.mk (p.join q).isAbsolute (p.join q).resolve.names =
      Resolved.mk (p.normalize.join q).isAbsolute (p.normalize.join q).resolve.names
    rw [hnames, isAbsolute_join_eq, isAbsolute_join_eq, habsolute]
  exact congrArg Resolved.path hresolve

/-- Resolving a path by its letters gives a normal path that starts where the path does,
and changes no normal path. Behind the root there are exactly the names that are left of
the components. A path that another one goes on from may be resolved before. -/
theorem normalize_resolves (p q : Path) :
    p.normalize.Normal ∧
    p.normalize.isAbsolute = p.isAbsolute ∧
    (p.normalize = p ↔ p.Normal) ∧
    p.normalize.normalize = p.normalize ∧
    (∀ names : List Bytes, Leaves p.components names ↔
      p.normalize.components = (if p.isAbsolute then [.root] else []) ++ names.map .name) ∧
    (p.join q).normalize = (p.normalize.join q).normalize := by
  have hnormal : p.normalize.Normal := normal_path p.proper_resolve
  refine ⟨hnormal, congrArg Resolved.absolute (resolve_normalize p), normalize_eq_self_iff p,
    (normalize_eq_self_iff p.normalize).mpr hnormal, ?_, normalize_join p q⟩
  intro names
  have hcomponents : p.normalize.components =
      (if p.isAbsolute then [.root] else []) ++ p.resolve.names.map .name :=
    components_path p.proper_resolve
  rw [leaves_iff, hcomponents, List.append_cancel_left_eq]
  refine ⟨fun h => by rw [h], fun h => List.map_injective_iff.mpr ?_ h⟩
  intro a b hab
  cases hab
  rfl

example : (Path.ofText "/../a/./b//../c/").normalize = .ofText "/a/c" := by
  decide

end Path

end LintRunner
