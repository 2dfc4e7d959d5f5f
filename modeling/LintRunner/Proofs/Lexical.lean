import LintRunner.Host.FileTree
import LintRunner.Proofs.Selection
import LintRunner.Proofs.Utf8
import Mathlib.Data.List.Infix

/-!
# Where the letters of a path lead

The segments of a path are steps from a directory: into another one, back out
of it, or nowhere. Resolving a path by its letters gives the place where these
steps end, and a path that is joined to another goes on where that one ends. A
path of texts stays one all the while, so that what is shown of it is all of it.
-/

namespace LintRunner

open Bytes (slash dot)

namespace Text

variable {α : Type} [BEq α]

theorem splitOn_ne_nil (separator : α) (l : List α) : splitOn separator l ≠ [] := by
  cases l with
  | nil => simp [splitOn]
  | cons a rest =>
      rw [splitOn]
      split
      · simp
      · split <;> simp

theorem splitOn_of_not_mem [LawfulBEq α] {separator : α} {l : List α} (h : separator ∉ l) :
    splitOn separator l = [l] := by
  induction l with
  | nil => rfl
  | cons a rest ih =>
      obtain ⟨hne, hrest⟩ := List.ne_and_not_mem_of_not_mem_cons h
      rw [splitOn, if_neg (by simpa using hne.symm), ih hrest]

/-- A list is cut at a separator in it, and on both sides by itself. -/
theorem splitOn_append [LawfulBEq α] (separator : α) (a b : List α) :
    splitOn separator (a ++ separator :: b) = splitOn separator a ++ splitOn separator b := by
  induction a with
  | nil => simp [splitOn]
  | cons c a ih =>
      rw [List.cons_append, splitOn, splitOn, ih]
      by_cases hc : (c == separator) = true
      · rw [if_pos hc, if_pos hc]
        rfl
      · rw [if_neg hc, if_neg hc]
        cases hsplit : splitOn separator a with
        | nil => exact absurd hsplit (splitOn_ne_nil separator a)
        | cons piece pieces => rfl

theorem joinWith_cons {β : Type} (separator : β) (piece : List β) {pieces : List (List β)}
    (h : pieces ≠ []) :
    joinWith separator (piece :: pieces) = piece ++ separator :: joinWith separator pieces := by
  cases pieces with
  | nil => exact absurd rfl h
  | cons next pieces => rfl

/-- Cut pieces are joined to what they were cut from. -/
theorem joinWith_splitOn [LawfulBEq α] (separator : α) (l : List α) :
    joinWith separator (splitOn separator l) = l := by
  induction l with
  | nil => rfl
  | cons a rest ih =>
      rw [splitOn]
      split
      · rename_i ha
        rw [joinWith_cons separator [] (splitOn_ne_nil separator rest), ih, beq_iff_eq.mp ha]
        rfl
      · split
        · rename_i hnil
          exact absurd hnil (splitOn_ne_nil separator rest)
        · rename_i piece pieces hsplit
          rw [hsplit] at ih
          cases pieces with
          | nil => rw [joinWith, ← ih, joinWith]
          | cons next pieces =>
              rw [joinWith_cons _ _ (List.cons_ne_nil _ _)] at ih ⊢
              rw [List.cons_append, ih]

/-- Joined pieces are cut where they were joined. -/
theorem splitOn_joinWith [LawfulBEq α] {separator : α} {pieces : List (List α)}
    (hne : pieces ≠ []) (hpieces : ∀ piece ∈ pieces, separator ∉ piece) :
    splitOn separator (joinWith separator pieces) = pieces := by
  induction pieces with
  | nil => exact absurd rfl hne
  | cons piece pieces ih =>
      obtain ⟨hpiece, hrest⟩ := List.forall_mem_cons.mp hpieces
      cases pieces with
      | nil => exact splitOn_of_not_mem hpiece
      | cons next pieces =>
          have hnext : next :: pieces ≠ [] := List.cons_ne_nil _ _
          rw [joinWith_cons _ _ hnext, splitOn_append, splitOn_of_not_mem hpiece, ih hnext hrest]
          rfl

theorem not_mem_of_mem_splitOn [LawfulBEq α] {separator : α} {l piece : List α}
    (h : piece ∈ splitOn separator l) : separator ∉ piece := by
  induction l generalizing piece with
  | nil =>
      obtain rfl := List.mem_singleton.mp h
      exact List.not_mem_nil
  | cons a rest ih =>
      rw [splitOn] at h
      split at h
      · rcases List.mem_cons.mp h with rfl | h
        · exact List.not_mem_nil
        · exact ih h
      · rename_i ha
        split at h
        · obtain rfl := List.mem_singleton.mp h
          rw [List.mem_singleton]
          rintro rfl
          exact ha (beq_self_eq_true _)
        · rename_i first pieces hsplit
          rw [hsplit] at ih
          rcases List.mem_cons.mp h with rfl | h
          · have hfirst := ih List.mem_cons_self
            simp only [List.mem_cons, not_or]
            exact ⟨fun hsep => ha (beq_iff_eq.mpr hsep.symm), hfirst⟩
          · exact ih (List.mem_cons_of_mem _ h)

end Text

/-- Bytes joined at plain bytes are a text exactly if all of them are. -/
theorem Bytes.isSome_text?_joinWith {b : UInt8} (hb : b.toNat < 0x80) (pieces : List Bytes) :
    (Bytes.text? (Text.joinWith b pieces)).isSome ↔ ∀ piece ∈ pieces, piece.text?.isSome := by
  induction pieces with
  | nil => exact iff_of_true rfl (by simp)
  | cons piece pieces ih =>
      rw [List.forall_mem_cons]
      cases pieces with
      | nil => simp [Text.joinWith]
      | cons next pieces =>
          rw [Text.joinWith_cons _ _ (List.cons_ne_nil _ _), Bytes.isSome_text?_cut hb, ih]

/-- The place one segment further on, if no link is in the way. -/
def Place.enter (here : Place) (segment : Bytes) : Place :=
  if segment = [] ∨ segment = [dot] then here
  else if segment = [dot, dot] then here.dropLast
  else here ++ [segment]

theorem Bytes.isSome_text?_of_mem_splitOn {b : UInt8} (hb : b.toNat < 0x80) {bytes piece : Bytes}
    (hbytes : bytes.text?.isSome) (hpiece : piece ∈ Text.splitOn b bytes) :
    piece.text?.isSome := by
  have hjoined : (Bytes.text? (Text.joinWith b (Text.splitOn b bytes))).isSome := by
    rwa [Text.joinWith_splitOn]
  exact (Bytes.isSome_text?_joinWith hb _).mp hjoined piece hpiece

/-- Each name of the place is one step further in, and nothing else. -/
def Place.Proper (place : Place) : Prop :=
  ∀ name ∈ place, name ≠ [] ∧ name ≠ [dot] ∧ name ≠ [dot, dot] ∧ slash ∉ name

theorem Place.proper_nil : Place.Proper [] := by
  intro name hname
  cases hname

theorem Place.Proper.enter {here : Place} (hhere : here.Proper) {segment : Bytes}
    (hsegment : slash ∉ segment) : (here.enter segment).Proper := by
  unfold Place.enter
  split
  · exact hhere
  · rename_i hstay
    obtain ⟨hempty, hdot⟩ := not_or.mp hstay
    split
    · intro name hname
      exact hhere name (List.dropLast_subset here hname)
    · rename_i hparent
      intro name hname
      rcases List.mem_append.mp hname with hname | hname
      · exact hhere name hname
      · obtain rfl := List.mem_singleton.mp hname
        exact ⟨hempty, hdot, hparent, hsegment⟩

theorem Place.Proper.foldl_enter {segments : List Bytes} (hsegments : ∀ s ∈ segments, slash ∉ s) :
    ∀ {here : Place}, here.Proper → Place.Proper (segments.foldl Place.enter here) := by
  induction segments with
  | nil =>
      intro here hhere
      exact hhere
  | cons segment segments ih =>
      obtain ⟨hsegment, hrest⟩ := List.forall_mem_cons.mp hsegments
      intro here hhere
      exact ih hrest (hhere.enter hsegment)

theorem Place.mem_of_mem_foldl_enter {segments : List Bytes} {name : Bytes} :
    ∀ {here : Place}, name ∈ segments.foldl Place.enter here → name ∈ here ∨ name ∈ segments := by
  induction segments with
  | nil =>
      intro here hname
      exact Or.inl hname
  | cons segment segments ih =>
      intro here hname
      rcases ih hname with hname | hname
      · unfold Place.enter at hname
        split at hname
        · exact Or.inl hname
        · split at hname
          · exact Or.inl (List.dropLast_subset here hname)
          · rcases List.mem_append.mp hname with hname | hname
            · exact Or.inl hname
            · rw [List.mem_singleton.mp hname]
              exact Or.inr List.mem_cons_self
      · exact Or.inr (List.mem_cons_of_mem _ hname)

/-- The steps of a proper place lead there. -/
theorem Place.foldl_enter_of_proper {place : Place} (hplace : place.Proper) :
    ∀ here : Place, place.foldl Place.enter here = here ++ place := by
  induction place with
  | nil =>
      intro here
      exact (List.append_nil here).symm
  | cons name place ih =>
      obtain ⟨⟨hempty, hdot, hparent, -⟩, hrest⟩ := List.forall_mem_cons.mp hplace
      intro here
      have hstep : here.enter name = here ++ [name] := by
        rw [Place.enter, if_neg (not_or.mpr ⟨hempty, hdot⟩), if_neg hparent]
      rw [List.foldl_cons, hstep, ih hrest, List.append_assoc]
      rfl

/-- Without a step back, all that is a step leads further in. -/
theorem Place.foldl_enter_of_forward {segments : List Bytes} (hforward : [dot, dot] ∉ segments) :
    ∀ here : Place, segments.foldl Place.enter here = here ++ segments.filter isComponent := by
  induction segments with
  | nil =>
      intro here
      exact (List.append_nil here).symm
  | cons segment segments ih =>
      obtain ⟨hparent, hrest⟩ := List.ne_and_not_mem_of_not_mem_cons hforward
      intro here
      rw [List.foldl_cons, ih hrest, List.filter_cons, Place.enter]
      by_cases hstay : segment = [] ∨ segment = [dot]
      · rw [if_pos hstay, if_neg (by simpa [isComponent, imp_iff_not_or] using hstay)]
      · rw [if_neg hstay, if_neg hparent.symm,
          if_pos (by simpa [isComponent, not_or] using hstay), List.append_assoc]
        rfl

/-- A text that starts at the root. -/
def Rooted (text : String) : Prop :=
  text.toList.head? = some '/'

namespace Path

/-- The place that the segments of a path lead to, one after the other. -/
def follow (p : Path) (here : Place) : Place :=
  p.segments.foldl Place.enter here

/-- Where a relative path leads from a directory, by the letters of both. -/
def seenFrom (p : Path) (cwd : Place) : Place :=
  p.follow (cwd.path.follow [])

/-! ## Resolving -/

/-- The components of a list of segments say the same steps. -/
theorem climb_ofSegment? (segments : List Bytes) : ∀ names : List Bytes,
    ((segments.filterMap Component.ofSegment?).foldl climb names).reverse =
      segments.foldl Place.enter names.reverse := by
  induction segments with
  | nil =>
      intro names
      rfl
  | cons segment segments ih =>
      intro names
      rw [List.filterMap_cons, List.foldl_cons, Place.enter, Component.ofSegment?]
      by_cases hstay : segment = [] ∨ segment = [dot]
      · have hnone : (segment.isEmpty || segment == [dot]) = true := by simpa using hstay
        rw [if_pos hnone, if_pos hstay]
        exact ih names
      · have hsome : ¬ (segment.isEmpty || segment == [dot]) = true := by simpa using hstay
        rw [if_neg hsome, if_neg hstay]
        by_cases hparent : segment = [dot, dot]
        · have hup : (segment == [dot, dot]) = true := by simpa using hparent
          rw [if_pos hup, if_pos hparent, List.dropLast_reverse]
          exact ih names.tail
        · have hdown : ¬ (segment == [dot, dot]) = true := by simpa using hparent
          rw [if_neg hdown, if_neg hparent, ← List.reverse_cons]
          exact ih (segment :: names)

theorem raw_of_isAbsolute {p : Path} (h : p.isAbsolute = true) : ∃ rest, p.raw = slash :: rest := by
  rw [isAbsolute, beq_iff_eq] at h
  exact List.head?_eq_some_iff.mp h

/-- Resolving a path follows it from the root. -/
theorem resolve_names (p : Path) : p.resolve.names = p.follow [] := by
  have hall : p.components.foldl climb [] =
      (p.segments.filterMap Component.ofSegment?).foldl climb [] := by
    rw [components]
    cases hsegments : p.segments with
    | nil => rfl
    | cons first rest =>
        show List.foldl climb [] (if p.isAbsolute = true then _ else _) = _
        split
        · -- the segment before the first slash is empty
          rename_i habsolute
          obtain ⟨raw, hraw⟩ := raw_of_isAbsolute habsolute
          obtain ⟨rfl, rfl⟩ : first = [] ∧ rest = Text.splitOn slash raw := by
            simpa [segments, hraw, Text.splitOn, eq_comm] using hsegments
          rfl
        · split
          · -- a leading dot is kept as a component, but is no step
            rename_i hdot
            obtain rfl : first = [dot] := by simpa using hdot
            rfl
          · rw [List.filterMap_cons]
            cases Component.ofSegment? first <;> rfl
  show (p.components.foldl climb []).reverse = _
  rw [hall]
  exact climb_ofSegment? p.segments []

theorem isAbsolute_path {r : Resolved} (h : r.absolute = true) : r.path.isAbsolute = true := by
  rw [Resolved.path, if_pos h]
  rfl

theorem isAbsolute_normalize {p : Path} (h : p.isAbsolute = true) :
    p.normalize.isAbsolute = true :=
  isAbsolute_path h

/-! ## Resolving a second time -/

theorem proper_follow (p : Path) {here : Place} (hhere : here.Proper) : (p.follow here).Proper :=
  hhere.foldl_enter fun _ hs => Text.not_mem_of_mem_splitOn hs

theorem proper_resolve (p : Path) : Place.Proper p.resolve.names := by
  rw [resolve_names]
  exact p.proper_follow Place.proper_nil

section

variable {r : Resolved} (hr : Place.Proper r.names)

include hr

theorem segments_path :
    r.path.segments =
      (if r.absolute then [[]] else []) ++ (if r.names = [] then [[]] else r.names) := by
  have hnames : Text.splitOn slash (Text.joinWith slash r.names) =
      if r.names = [] then [[]] else r.names := by
    split
    · rename_i hnil
      rw [hnil]
      rfl
    · rename_i hne
      exact Text.splitOn_joinWith hne fun name hname => (hr name hname).2.2.2
  rw [← hnames, segments, Resolved.path]
  split
  · rw [Text.splitOn, if_pos (beq_self_eq_true _)]
    rfl
  · rfl

theorem step_not_mem_segments_path {step : Bytes} (hempty : step ≠ []) (hstep : step ∉ r.names) :
    step ∉ r.path.segments := by
  rw [segments_path hr]
  intro hmem
  rcases List.mem_append.mp hmem with hmem | hmem
  · split at hmem
    · exact hempty (List.mem_singleton.mp hmem)
    · cases hmem
  · split at hmem
    · exact hempty (List.mem_singleton.mp hmem)
    · exact hstep hmem

theorem forward_path : [dot, dot] ∉ r.path.segments :=
  step_not_mem_segments_path hr (by decide) fun hmem => (hr _ hmem).2.2.1 rfl

/-- The names of a path that is made of proper ones lead further in. -/
theorem follow_path (here : Place) : r.path.follow here = here ++ r.names := by
  have hnames : (if r.names = [] then [[]] else r.names).foldl Place.enter here =
      here ++ r.names := by
    split
    · rename_i hnil
      rw [hnil]
      exact (List.append_nil here).symm
    · exact Place.foldl_enter_of_proper hr here
  rw [follow, segments_path hr, List.foldl_append]
  split
  · exact hnames
  · exact hnames

theorem isAbsolute_path_eq : r.path.isAbsolute = r.absolute := by
  cases habsolute : r.absolute with
  | true => exact isAbsolute_path habsolute
  | false =>
      rw [Resolved.path, habsolute, if_neg (by decide)]
      cases hnames : r.names with
      | nil => rfl
      | cons name rest =>
          obtain ⟨hname, -, -, hno⟩ := hr name (hnames ▸ List.mem_cons_self)
          obtain ⟨b, bytes, rfl⟩ := List.exists_cons_of_ne_nil hname
          have hhead : (Text.joinWith slash ((b :: bytes) :: rest)).head? = some b := by
            cases rest <;> rfl
          have hb : b ≠ slash := fun hb => hno (hb ▸ List.mem_cons_self)
          show ((Text.joinWith slash ((b :: bytes) :: rest)).head? == some slash) = false
          rw [hhead]
          simpa using hb

/-- A path made of proper names is resolved to these. -/
theorem resolve_path : r.path.resolve = r := by
  have hnames : r.path.resolve.names = r.names := by
    rw [resolve_names, follow_path hr, List.nil_append]
  show Resolved.mk r.path.isAbsolute r.path.resolve.names = r
  rw [isAbsolute_path_eq hr, hnames]

end

/-- Resolving takes all steps at once: a second time there are none left. -/
theorem resolve_normalize (p : Path) : p.normalize.resolve = p.resolve :=
  resolve_path p.proper_resolve

/-- A path that is made absolute leads where it leads from the directory. -/
theorem resolve_absolutize (p cwd : Path) : (p.absolutize cwd).resolve = (cwd.join p).resolve := by
  rw [absolutize]
  split
  · rename_i habsolute
    rw [join, habsolute, Bool.true_or, if_pos rfl]
  · exact resolve_normalize _

/-! ## Joining -/

theorem isAbsolute_join {p : Path} (h : p.isAbsolute = true) (q : Path) :
    (p.join q).isAbsolute = true := by
  obtain ⟨rest, hraw⟩ := raw_of_isAbsolute h
  rw [join]
  split
  · rename_i hq
    simpa [hraw] using hq
  · split
    · rw [hraw]
      rfl
    · rw [hraw]
      rfl

/-- A relative path goes on where the path before it leads. -/
theorem follow_join {p q : Path} (hp : p.raw ≠ []) (hq : q.isAbsolute = false) (here : Place) :
    (p.join q).follow here = q.follow (p.follow here) := by
  have hrest : ¬ (q.isAbsolute || p.raw.isEmpty) = true := by simp [hq, hp]
  unfold follow
  rw [← List.foldl_append, join, if_neg hrest]
  split
  · -- the slash between the two is the last one of the first path
    rename_i hlast
    obtain ⟨front, hfront⟩ := List.getLast?_eq_some_iff.mp (by simpa using hlast)
    have hjoined : Text.splitOn slash (p.raw ++ q.raw) =
        Text.splitOn slash front ++ Text.splitOn slash q.raw := by
      rw [hfront, List.append_assoc]
      exact Text.splitOn_append slash front q.raw
    have hfirst : Text.splitOn slash p.raw = Text.splitOn slash front ++ [[]] := by
      rw [hfront]
      exact Text.splitOn_append slash front []
    unfold segments
    rw [hjoined, hfirst, List.foldl_append, List.foldl_append, List.foldl_append]
    rfl
  · unfold segments
    rw [Text.splitOn_append]

/-! ## Paths without a step back -/

theorem forward_join {p q : Path} (hp : [dot, dot] ∉ p.segments) (hq : [dot, dot] ∉ q.segments) :
    [dot, dot] ∉ (p.join q).segments := by
  rw [join]
  split
  · exact hq
  · split
    · -- the last segment of the first path is the empty one behind its last slash
      rename_i hlast
      obtain ⟨front, hfront⟩ := List.getLast?_eq_some_iff.mp (beq_iff_eq.mp hlast)
      rw [segments, hfront, Text.splitOn_append] at hp
      rw [segments, hfront, List.append_assoc, List.singleton_append, Text.splitOn_append]
      intro h
      rcases List.mem_append.mp h with h | h
      · exact hp (List.mem_append_left _ h)
      · exact hq h
    · rw [segments, Text.splitOn_append]
      intro h
      rcases List.mem_append.mp h with h | h
      · exact hp h
      · exact hq h

/-- Without a step back the components of a path spell out where it leads. -/
theorem components_of_forward {p : Path} (h : p.isAbsolute = true)
    (hforward : [dot, dot] ∉ p.segments) :
    p.components = .root :: (p.follow []).map .name := by
  obtain ⟨rest, hsegments⟩ := splitOn_of_absolute h
  have hnames : p.follow [] = rest.filter isComponent := by
    rw [follow, Place.foldl_enter_of_forward hforward, hsegments]
    rfl
  have hnamed : (rest.filter isComponent).map namedComponent =
      (rest.filter isComponent).map .name := by
    apply List.map_congr_left
    intro piece hpiece
    have hparent : piece ≠ [dot, dot] := by
      rintro rfl
      exact hforward (hsegments ▸ List.mem_cons_of_mem _ (List.mem_of_mem_filter hpiece))
    rw [namedComponent, if_neg hparent]
  rw [components, hsegments]
  simp only [h, if_true]
  rw [filterMap_ofSegment?, hnamed, hnames]

/-! ## Absolute paths -/

theorem isAbsolute_cwd (cwd : Place) : cwd.path.isAbsolute = true :=
  isAbsolute_path rfl

theorem isAbsolute_absolutize (p : Path) (cwd : Place) :
    (p.absolutize cwd.path).isAbsolute = true := by
  rw [absolutize]
  split
  · assumption
  · exact isAbsolute_normalize (isAbsolute_join (isAbsolute_cwd cwd) p)

/-- A relative path is made absolute by where it leads from the directory. -/
theorem absolutize_of_relative {p : Path} (h : p.isAbsolute = false) (cwd : Place) :
    p.absolutize cwd.path = (p.seenFrom cwd).path := by
  obtain ⟨rest, hraw⟩ := raw_of_isAbsolute (isAbsolute_cwd cwd)
  have hne : cwd.path.raw ≠ [] := by
    rw [hraw]
    exact List.cons_ne_nil slash rest
  have habsolute : (cwd.path.join p).resolve.absolute = true :=
    isAbsolute_join (isAbsolute_cwd cwd) p
  have hnames : (cwd.path.join p).resolve.names = p.seenFrom cwd := by
    rw [resolve_names, follow_join hne h]
    rfl
  have hresolve : (cwd.path.join p).resolve = ⟨true, p.seenFrom cwd⟩ := by
    rw [← habsolute, ← hnames]
  rw [absolutize, if_neg (by simp [h]), normalize, hresolve]
  rfl

theorem slash_mem_display_iff (p : Path) : '/' ∈ p.display.toList ↔ slash ∈ p.raw := by
  have hplain : ∀ c ∈ ['/'], Utf8.Plain c := Utf8.plain_of_all (by decide)
  have hinfix := Utf8.infix_decodeLossy_iff hplain (by decide) p.raw
  show '/' ∈ (String.ofList (Utf8.decodeLossy p.raw)).toList ↔ _
  rw [String.toList_ofList, ← List.singleton_infix_iff _ _, hinfix]
  exact List.singleton_infix_iff _ _

theorem rooted_display {p : Path} (h : p.isAbsolute = true) : Rooted p.display := by
  obtain ⟨rest, hraw⟩ := raw_of_isAbsolute h
  have hhead : Utf8.decodeLossy p.raw = '/' :: Utf8.decodeLossy rest := by
    rw [hraw]
    exact Utf8.lossyFrom_ready_cons (by decide) rest
  show (String.ofList (Utf8.decodeLossy p.raw)).toList.head? = _
  rw [String.toList_ofList, hhead]
  rfl

theorem isAbsolute_ofText {text : String} (h : Rooted text) : (ofText text).isAbsolute = true := by
  obtain ⟨rest, hrest⟩ := List.head?_eq_some_iff.mp h
  have hraw : (ofText text).raw = slash :: Utf8.encode rest := by
    show Utf8.encode text.toList = _
    rw [hrest]
    rfl
  rw [isAbsolute, hraw]
  rfl

/-! ## Paths that are texts -/

/-- The path can be shown without a loss. -/
def IsText (p : Path) : Prop :=
  p.raw.text?.isSome

theorem isText_ofText (text : String) : (ofText text).IsText := by
  rw [IsText, ofText, Bytes.text?_ofText]
  rfl

theorem ofText_display {p : Path} (h : p.IsText) : ofText p.display = p :=
  congrArg Path.mk (Bytes.ofText_lossy h)

theorem display_ofText (text : String) : (ofText text).display = text := by
  have hbytes : Bytes.ofText (ofText text).raw.lossy = Bytes.ofText text :=
    Bytes.ofText_lossy (isText_ofText text)
  exact Bytes.ofText_injective hbytes

theorem isText_join {p q : Path} (hp : p.IsText) (hq : q.IsText) : (p.join q).IsText := by
  rw [join]
  split
  · exact hq
  · split
    · exact (Bytes.isSome_text?_append hp q.raw).mpr hq
    · exact (Bytes.isSome_text?_cut (by decide) p.raw q.raw).mpr ⟨hp, hq⟩

theorem isText_path {r : Resolved} (hnames : ∀ name ∈ r.names, name.text?.isSome) :
    r.path.IsText := by
  have hjoined := (Bytes.isSome_text?_joinWith (by decide : slash.toNat < 0x80) r.names).mpr hnames
  rw [Resolved.path]
  split
  · exact (Bytes.isSome_text?_cut (by decide) [] _).mpr ⟨rfl, hjoined⟩
  · exact hjoined

theorem isText_normalize {p : Path} (h : p.IsText) : p.normalize.IsText := by
  apply isText_path
  intro name hname
  rw [resolve_names] at hname
  rcases Place.mem_of_mem_foldl_enter hname with hname | hname
  · cases hname
  · exact Bytes.isSome_text?_of_mem_splitOn (by decide) h hname

theorem isText_absolutize {p cwd : Path} (hp : p.IsText) (hcwd : cwd.IsText) :
    (p.absolutize cwd).IsText := by
  rw [absolutize]
  split
  · exact hp
  · exact isText_normalize (isText_join hcwd hp)

end Path

/-! ## Files at absolute paths -/

namespace FileTree

variable (files : FileTree) {p : Path}

/-- An absolute path leads to the same place from everywhere. -/
theorem resolve_of_absolute (h : p.isAbsolute = true) (here here' : Place) :
    files.resolve here p = files.resolve here' p := by
  unfold resolve walk
  rw [if_pos h, if_pos h]

theorem nodeAt_of_absolute (h : p.isAbsolute = true) (here here' : Place) :
    files.nodeAt here p = files.nodeAt here' p := by
  unfold nodeAt
  rw [resolve_of_absolute files h here here']

theorem readText_of_absolute (h : p.isAbsolute = true) (here here' : Place) :
    files.readText here p = files.readText here' p := by
  unfold readText read
  rw [nodeAt_of_absolute files h here here']

theorem isExecutable_of_absolute (h : p.isAbsolute = true) (here here' : Place) :
    files.isExecutable here p = files.isExecutable here' p := by
  unfold isExecutable
  rw [nodeAt_of_absolute files h here here']

end FileTree

end LintRunner
