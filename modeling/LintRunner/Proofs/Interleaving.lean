import LintRunner.Proofs.ExitCode

/-!
# Two streams in one pipe

A command writes whole lines to its two streams, and the pipe holds the writes
in some order that keeps the order of each stream. The lines that are relayed
are then those of the two streams, merged in the same way, and the exit code is
the same for every such order: a line is found wherever it stands.
-/

namespace LintRunner

/-- The third list is made of the other two, each of them in its own order. -/
inductive Interleaves {α : Type} : List α → List α → List α → Prop
  | nil : Interleaves [] [] []
  | left {a : α} {as bs cs : List α} : Interleaves as bs cs → Interleaves (a :: as) bs (a :: cs)
  | right {b : α} {as bs cs : List α} : Interleaves as bs cs → Interleaves as (b :: bs) (b :: cs)

namespace Interleaves

variable {α β : Type} {as bs cs : List α}

theorem append_left (h : Interleaves as bs cs) (front : List α) :
    Interleaves (front ++ as) bs (front ++ cs) := by
  induction front with
  | nil => exact h
  | cons a front ih => exact .left ih

theorem append_right (h : Interleaves as bs cs) (front : List α) :
    Interleaves as (front ++ bs) (front ++ cs) := by
  induction front with
  | nil => exact h
  | cons b front ih => exact .right ih

/-- Pieces that are cut up further stay interleaved. -/
theorem flatMap (h : Interleaves as bs cs) (f : α → List β) :
    Interleaves (as.flatMap f) (bs.flatMap f) (cs.flatMap f) := by
  induction h with
  | nil => exact .nil
  | left _ ih =>
      simp only [List.flatMap_cons]
      exact ih.append_left _
  | right _ ih =>
      simp only [List.flatMap_cons]
      exact ih.append_right _

theorem mem_iff (h : Interleaves as bs cs) {a : α} : a ∈ cs ↔ a ∈ as ∨ a ∈ bs := by
  induction h with
  | nil => simp
  | left _ ih => rw [List.mem_cons, List.mem_cons, ih, or_assoc]
  | right _ ih =>
      rw [List.mem_cons, List.mem_cons, ih]
      exact or_left_comm

/-- Whether something is found does not depend on how the lists are merged. -/
theorem any_eq (h : Interleaves as bs cs) (f : α → Bool) : cs.any f = (as.any f || bs.any f) := by
  rw [Bool.eq_iff_iff, Bool.or_eq_true]
  simp only [List.any_eq_true, h.mem_iff]
  constructor
  · rintro ⟨a, ha | ha, hf⟩
    · exact Or.inl ⟨a, ha, hf⟩
    · exact Or.inr ⟨a, ha, hf⟩
  · rintro (⟨a, ha, hf⟩ | ⟨a, ha, hf⟩)
    · exact ⟨a, Or.inl ha, hf⟩
    · exact ⟨a, Or.inr ha, hf⟩

end Interleaves

/-! ## Writes of whole lines -/

namespace Relay

/-- One line or more, each with its line feed. -/
def Whole (bytes : Bytes) : Prop :=
  bytes.getLast? = some lineFeed

/-- Behind whole lines a new line begins. -/
theorem linesOf_append_of_whole {start : Bytes} (hstart : Whole start) (rest : Bytes) :
    linesOf (start ++ rest) = linesOf start ++ linesOf rest := by
  induction start with
  | nil => cases hstart
  | cons b start ih =>
      -- only the last byte is known, so a single byte is the line feed
      cases start with
      | nil =>
          obtain rfl : b = lineFeed := Option.some.inj hstart
          rw [List.singleton_append, linesOf_lineFeed, linesOf_lineFeed]
          rfl
      | cons b' start =>
          have hwhole : Whole (b' :: start) := by
            unfold Whole at hstart ⊢
            rwa [List.getLast?_cons_cons] at hstart
          have hrest := ih hwhole
          by_cases hb : b = lineFeed
          · subst hb
            rw [List.cons_append, linesOf_lineFeed, hrest, linesOf_lineFeed]
            rfl
          · rcases linesOf_cons hb (b' :: start) with ⟨h, -⟩ | ⟨line, lines, h, h'⟩
            · exact absurd h linesOf_ne_nil
            · rw [h', List.cons_append, linesOf, if_neg (by simpa using hb), hrest, h]
              rfl

theorem linesOf_flatten_of_whole {writes : List Bytes} (hwhole : ∀ w ∈ writes, Whole w) :
    linesOf writes.flatten = writes.flatMap linesOf := by
  induction writes with
  | nil => rfl
  | cons w writes ih =>
      have hrest := ih fun w' hw' => hwhole w' (List.mem_cons_of_mem _ hw')
      rw [List.flatten_cons, linesOf_append_of_whole (hwhole w List.mem_cons_self), hrest,
        List.flatMap_cons]

end Relay

/-! ## The merged pipe -/

namespace Host

open Relay (Whole Willing Writer linesOf flushed)

/-- The command starts, writes these pieces to its streams in some order that
keeps the order of each stream, and ends so. -/
structure Writes (h : Host) (c : Command) (outs errs : List Bytes) (ending : Ending)
    (b : Behaviour) : Prop where
  behaves : h.launch c = .ok b
  writes : Interleaves (outs.map (Stream.output, ·)) (errs.map (Stream.error, ·)) b.writes
  ends : b.ending = ending
  ended : b.waitFailure = none

variable {h h' : Host} {c c' : Command} {outs errs : List Bytes} {ending : Ending}
  {b b' : Behaviour}

/-- The lines in the pipe are the lines of the streams, interleaved. -/
theorem Writes.interleaves (hrun : h.Writes c outs errs ending b)
    (houts : ∀ w ∈ outs, Whole w) (herrs : ∀ w ∈ errs, Whole w) :
    Interleaves (linesOf outs.flatten) (linesOf errs.flatten) (linesOf b.merged) := by
  have hwhole : ∀ w ∈ b.writes.map (·.2), Whole w := by
    intro w hw
    obtain ⟨write, hwrite, rfl⟩ := List.mem_map.mp hw
    rcases hrun.writes.mem_iff.mp hwrite with hmem | hmem
    · obtain ⟨piece, hpiece, rfl⟩ := List.mem_map.mp hmem
      exact houts piece hpiece
    · obtain ⟨piece, hpiece, rfl⟩ := List.mem_map.mp hmem
      exact herrs piece hpiece
  have hlines := hrun.writes.flatMap fun write => linesOf write.2
  have hmerged : linesOf b.merged = b.writes.flatMap fun write => linesOf write.2 := by
    rw [← b.flatten_writes, Relay.linesOf_flatten_of_whole hwhole, List.flatMap_map]
  rw [Relay.linesOf_flatten_of_whole houts, Relay.linesOf_flatten_of_whole herrs, hmerged]
  simpa only [List.flatMap_map] using hlines

theorem arrivalsOf_relayed (arrivals : List Relay.Arrival) :
    arrivalsOf (arrivals.map .relayed) = arrivals := by
  induction arrivals with
  | nil => rfl
  | cons arrival arrivals ih => exact congrArg (arrival :: ·) ih

variable {σ : Type} [Writer σ] {p : σ → Prop} {s s' : σ}

/-- A willing writer gets the lines of the two streams, merged as they were
written, and the code follows from the lines of both. -/
theorem Writes.checkOutput (hrun : h.Writes c outs errs ending b)
    (houts : ∀ w ∈ outs, Whole w) (herrs : ∀ w ∈ errs, Whole w) (hw : Willing p) (hs : p s) :
    (h.checkOutput s c).result =
        .ok (Relay.exitCode ending.code?
          ((linesOf outs.flatten).any (Relay.isDiagnostic ∘ Utf8.decodeLossy) ||
            (linesOf errs.flatten).any (Relay.isDiagnostic ∘ Utf8.decodeLossy))) ∧
      Interleaves (linesOf outs.flatten) (linesOf errs.flatten)
        (flushed [] (arrivalsOf (h.checkOutput s c).events)) := by
  have hinterleaves := hrun.interleaves houts herrs
  have hscan := Relay.scan_of_willing hw hs (b.writes.map (·.2))
  rw [← b.pieces_writes, b.flatten_writes] at hscan
  have hevents : arrivalsOf (h.checkOutput s c).events = Relay.arrivalsOf (linesOf b.merged) := by
    rw [checkOutput_eq hrun.behaves hrun.ended hscan]
    have hrelayed := arrivalsOf_relayed (Relay.arrivalsOf (linesOf b.merged))
    unfold arrivalsOf at hrelayed ⊢
    rw [List.filterMap_append, List.filterMap_append, hrelayed]
    simp [announced]
  refine ⟨?_, ?_⟩
  · rw [checkOutput_eq hrun.behaves hrun.ended hscan, hinterleaves.any_eq, hrun.ends]
  · rw [hevents, Relay.flushed_arrivalsOf]
    exact hinterleaves

/-- Two runs of a command that writes the same whole lines to its streams and ends
alike have the same exit code, whatever the order in which the writes of one
stream fall between those of the other. In both runs the relayed pieces are the
lines of the streams, every line once and in the order of its stream. How the
merged bytes are cut when they are read changes nothing of this. -/
theorem checkOutput_of_interleavings (hw : Willing p) (hs : p s) (hs' : p s')
    (houts : ∀ w ∈ outs, Whole w) (herrs : ∀ w ∈ errs, Whole w)
    (hrun : h.Writes c outs errs ending b) (hrun' : h'.Writes c' outs errs ending b') :
    (∃ code, (h.checkOutput s c).result = .ok code ∧ (h'.checkOutput s' c').result = .ok code) ∧
    Interleaves (linesOf outs.flatten) (linesOf errs.flatten)
      (flushed [] (arrivalsOf (h.checkOutput s c).events)) ∧
    Interleaves (linesOf outs.flatten) (linesOf errs.flatten)
      (flushed [] (arrivalsOf (h'.checkOutput s' c').events)) ∧
    ∀ (capacity : Nat) (cuts : List Bytes), 0 < capacity → cuts.flatten = b.merged →
      Relay.scan s (cuts.flatMap (Relay.reads capacity none)) =
        Relay.scan s (b.writes.map fun (_, bytes) => .piece bytes) := by
  obtain ⟨hresult, hlines⟩ := hrun.checkOutput houts herrs hw hs
  obtain ⟨hresult', hlines'⟩ := hrun'.checkOutput houts herrs hw hs'
  refine ⟨⟨_, hresult, hresult'⟩, hlines, hlines', ?_⟩
  intro capacity cuts hcapacity hcuts
  obtain ⟨cuts', hreads, hflatten⟩ := Relay.buffered_cuts hcapacity cuts
  rw [hreads, b.pieces_writes, Relay.scan_of_willing hw hs, Relay.scan_of_willing hw hs, hflatten,
    hcuts, b.flatten_writes]

/-! One write to the output and two to the errors, in two orders. -/

def toOutput : List Bytes :=
  [Bytes.ofText "a.c\nb.c\n"]

def toErrors : List Bytes :=
  [Bytes.ofText "a.c:1: error: x\n", Bytes.ofText "1 error\n"]

def outputFirst : Behaviour where
  writes := toOutput.map (Stream.output, ·) ++ toErrors.map (Stream.error, ·)
  ending := .exited 0

def outputBetween : Behaviour where
  writes := [(.error, Bytes.ofText "a.c:1: error: x\n"), (.output, Bytes.ofText "a.c\nb.c\n"),
    (.error, Bytes.ofText "1 error\n")]
  ending := .exited 0

theorem checkOutput_two_orders :
    (∃ code, ((noisy outputFirst).checkOutput Relay.narrow noisyCommand).result = .ok code ∧
      ((noisy outputBetween).checkOutput Relay.narrow noisyCommand).result = .ok code) ∧
    Interleaves [Bytes.ofText "a.c\n", Bytes.ofText "b.c\n"] toErrors
      (flushed [] (arrivalsOf
        ((noisy outputBetween).checkOutput Relay.narrow noisyCommand).events)) := by
  have houts : ∀ w ∈ toOutput, Whole w := by
    intro w hw
    obtain rfl := List.mem_singleton.mp hw
    rfl
  have herrs : ∀ w ∈ toErrors, Whole w := by
    intro w hw
    rcases List.mem_cons.mp hw with rfl | hw
    · rfl
    · obtain rfl := List.mem_singleton.mp hw
      rfl
  have hfirst : (noisy outputFirst).Writes noisyCommand toOutput toErrors (.exited 0) outputFirst :=
    ⟨rfl, .left (.right (.right .nil)), rfl, rfl⟩
  have hbetween :
      (noisy outputBetween).Writes noisyCommand toOutput toErrors (.exited 0) outputBetween :=
    ⟨rfl, .right (.left (.right .nil)), rfl, rfl⟩
  obtain ⟨hcode, -, hlines, -⟩ := checkOutput_of_interleavings Relay.narrow_willing rfl rfl houts
    herrs hfirst hbetween
  have hsplit : linesOf toOutput.flatten = [Bytes.ofText "a.c\n", Bytes.ofText "b.c\n"] := by
    decide
  have hsplit' : linesOf toErrors.flatten = toErrors := by decide
  rw [hsplit, hsplit'] at hlines
  exact ⟨hcode, hlines⟩

end Host

end LintRunner
