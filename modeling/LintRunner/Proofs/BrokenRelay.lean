import LintRunner.Proofs.Interleaving

/-!
# What a relay that fails leaves behind

Reading may fail after any number of bytes, and the writer may refuse any write
or flush. What has arrived by then is a beginning of the data, cut where the
writer stopped or, if only reading failed, behind the last line feed that was
read. The writer's side is told by what it is asked: the bytes of each line and
then a flush, up to the first refusal.
-/

namespace LintRunner.Relay

/-! ## The lines in front of a failed read -/

/-- The part of the bytes that consists of whole lines. -/
structure WholePart (bytes part : Bytes) : Prop where
  begins : part <+: bytes
  whole : part = [] ∨ Whole part
  longest : ∀ other, other <+: bytes → other = [] ∨ Whole other → other <+: part

/-- What follows the whole lines holds no line feed. -/
theorem wholePart_append {part rest : Bytes} (hpart : part = [] ∨ Whole part)
    (hrest : lineFeed ∉ rest) : WholePart (part ++ rest) part := by
  refine ⟨List.prefix_append part rest, hpart, ?_⟩
  intro other hother hwhole
  rcases List.prefix_or_prefix_of_prefix hother (List.prefix_append part rest) with h | ⟨more, rfl⟩
  · exact h
  · -- a line feed at the end of what goes further would stand in the rest
    have hmore : more <+: rest := (List.prefix_append_right_inj part).mp hother
    rcases List.eq_nil_or_concat more with rfl | ⟨more, b, rfl⟩
    · simp
    · rw [List.concat_eq_append] at hwhole hmore
      rcases hwhole with hnil | hwhole
      · simp at hnil
      · have hb : b = lineFeed := by
          unfold Whole at hwhole
          rw [← List.append_assoc, List.getLast?_concat] at hwhole
          exact Option.some.inj hwhole
        have hmem : b ∈ rest := hmore.subset (by simp)
        exact absurd (hb ▸ hmem) hrest

theorem WholePart.unique {bytes part part' : Bytes} (h : WholePart bytes part)
    (h' : WholePart bytes part') : part = part' :=
  (h'.longest part h.begins h.whole).eq_of_length_le
    (h.longest part' h'.begins h'.whole).length_le

theorem whole_of_mem_completed (bytes : Bytes) : ∀ {line l : Bytes},
    l ∈ (completed line bytes).1 → Whole l := by
  induction bytes with
  | nil =>
      intro line l hl
      cases hl
  | cons b bytes ih =>
      intro line l hl
      rw [completed] at hl
      split at hl
      · rename_i hb
        rcases List.mem_cons.mp hl with rfl | hl
        · rw [Whole, List.reverse_cons, List.getLast?_concat, beq_iff_eq.mp hb]
        · exact ih hl
      · exact ih hl

/-- Lines that are read in front of a failure are whole, and the line that is open
then is lost. -/
theorem linesFrom_failure (e : IoError) (more : List Read) (cuts : List Bytes) :
    ∀ {line : Bytes}, lineFeed ∉ line →
      ∃ lines rest, linesFrom line (cuts.map .piece ++ .failure e :: more) = (lines, some e) ∧
        (∀ l ∈ lines, Whole l) ∧ lineFeed ∉ rest ∧
        linesOf (line.reverse ++ cuts.flatten) = lines ++ linesOf rest := by
  induction cuts with
  | nil =>
      intro line hline
      refine ⟨[], line.reverse, rfl, ?_, by simpa using hline, ?_⟩
      · intro l hl
        cases hl
      · rw [List.flatten_nil, List.append_nil, List.nil_append]
  | cons cut cuts ih =>
      intro line hline
      obtain ⟨hopen, hlines⟩ := completed_spec cut hline
      obtain ⟨lines, rest, hfrom, hwhole, hrest, hsplit⟩ := ih hopen
      refine ⟨(completed line cut).1 ++ lines, rest, ?_, ?_, hrest, ?_⟩
      · rw [List.map_cons, List.cons_append, linesFrom]
        simp only [hfrom]
      · intro l hl
        rcases List.mem_append.mp hl with hl | hl
        · exact whole_of_mem_completed cut hl
        · exact hwhole l hl
      · rw [List.flatten_cons, hlines, hsplit, List.append_assoc]

theorem whole_flatten {lines : List Bytes} (hlines : ∀ l ∈ lines, Whole l) :
    lines.flatten = [] ∨ Whole lines.flatten := by
  rcases List.eq_nil_or_concat lines with rfl | ⟨lines, l, rfl⟩
  · exact Or.inl rfl
  · have hl : Whole l := hlines l (by simp)
    refine Or.inr ?_
    unfold Whole at hl ⊢
    rw [List.concat_eq_append, List.flatten_append, List.flatten_singleton,
      List.getLast?_append, hl]
    rfl

/-- In front of a failure the lines of the whole part are read. -/
theorem lines_failure (e : IoError) (more : List Read) (cuts : List Bytes) :
    ∃ part, WholePart cuts.flatten part ∧
      lines (cuts.map .piece ++ .failure e :: more) = (linesOf part, some e) := by
  obtain ⟨lines, rest, hfrom, hwhole, hrest, hsplit⟩ :=
    linesFrom_failure e more cuts (List.not_mem_nil (a := lineFeed))
  rw [List.reverse_nil, List.nil_append] at hsplit
  have hbytes : cuts.flatten = lines.flatten ++ rest := by
    have hflatten := congrArg List.flatten hsplit
    rwa [List.flatten_append, linesOf_flatten, linesOf_flatten] at hflatten
  have hlines : linesOf lines.flatten = lines := by
    rcases whole_flatten hwhole with hnil | hlast
    · -- no line is empty
      cases lines with
      | nil => rfl
      | cons l lines =>
          have hl : Whole l := hwhole l List.mem_cons_self
          rw [List.flatten_cons, List.append_eq_nil_iff] at hnil
          rw [hnil.1] at hl
          cases hl
    · rw [hbytes, linesOf_append_of_whole hlast] at hsplit
      exact List.append_cancel_right hsplit
  refine ⟨lines.flatten, ?_, ?_⟩
  · rw [hbytes]
    exact wholePart_append (whole_flatten hwhole) hrest
  · rw [hlines]
    exact hfrom

/-! ## What a writer does when it is asked -/

variable {σ : Type} [Writer σ]

/-- The writer is asked to take these arrivals in turn. It takes what is marked and
comes to a state, or refuses to go on. Bytes may be taken in several writes, each of
which offers all that is left of them. -/
inductive Serves : σ → List Arrival → List (Option UInt8) → Except IoError σ → Prop
  | done {s : σ} : Serves s [] [] (.ok s)
  | taken {s : σ} {asked marks outcome} : Serves s asked marks outcome →
      Serves s (.bytes [] :: asked) marks outcome
  | write {s s' : σ} {bytes : Bytes} {n asked marks outcome} : bytes ≠ [] → 0 < n →
      Writer.write s bytes = .ok (n, s') →
      Serves s' (.bytes (bytes.drop n) :: asked) marks outcome →
      Serves s (.bytes bytes :: asked) ((bytes.take n).map some ++ marks) outcome
  | refused {s : σ} {bytes : Bytes} {e asked} : bytes ≠ [] → Writer.write s bytes = .error e →
      Serves s (.bytes bytes :: asked) [] (.error e)
  | nothing {s s' : σ} {bytes : Bytes} {asked} : bytes ≠ [] → Writer.write s bytes = .ok (0, s') →
      Serves s (.bytes bytes :: asked) [] (.error .nothingWritten)
  | flush {s s' : σ} {asked marks outcome} : Writer.flush s = .ok s' →
      Serves s' asked marks outcome → Serves s (.flush :: asked) (none :: marks) outcome
  | unflushed {s : σ} {e asked} : Writer.flush s = .error e →
      Serves s (.flush :: asked) [] (.error e)

namespace Serves

variable {s : σ} {asked : List Arrival} {marks marks' : List (Option UInt8)}
  {outcome outcome' : Except IoError σ}

/-- What is taken is a beginning of what was asked, and all of it without a refusal. -/
theorem begins (h : Serves s asked marks outcome) :
    marks <+: marksOf asked ∧ ∀ s', outcome = .ok s' → marks = marksOf asked := by
  induction h with
  | done => exact ⟨List.prefix_rfl, fun _ _ => rfl⟩
  | taken _ ih => exact ih
  | @write s s' bytes n asked marks outcome _ _ _ _ ih =>
      have hsplit : marksOf (.bytes bytes :: asked) =
          (bytes.take n).map some ++ marksOf (.bytes (bytes.drop n) :: asked) := by
        simp only [marksOf, List.flatMap_cons, Arrival.marks]
        rw [← List.append_assoc, ← List.map_append, List.take_append_drop]
      rw [hsplit]
      refine ⟨(List.prefix_append_right_inj _).mpr ih.1, ?_⟩
      intro s'' hs''
      rw [ih.2 s'' hs'']
  | refused _ _ => exact ⟨List.nil_prefix, fun _ h => by cases h⟩
  | nothing _ _ => exact ⟨List.nil_prefix, fun _ h => by cases h⟩
  | @flush s s' asked marks outcome _ _ ih =>
      have hsplit : marksOf (.flush :: asked) = none :: marksOf asked := rfl
      rw [hsplit]
      refine ⟨List.cons_prefix_cons.mpr ⟨rfl, ih.1⟩, ?_⟩
      intro s'' hs''
      rw [ih.2 s'' hs'']
  | unflushed _ => exact ⟨List.nil_prefix, fun _ h => by cases h⟩

/-- A writer does one thing only. -/
theorem unique (h : Serves s asked marks outcome) (h' : Serves s asked marks' outcome') :
    marks = marks' ∧ outcome = outcome' := by
  induction h generalizing marks' outcome' with
  | done =>
      cases h'
      exact ⟨rfl, rfl⟩
  | taken _ ih =>
      cases h' with
      | taken h' => exact ih h'
      | write hne => exact absurd rfl hne
      | refused hne => exact absurd rfl hne
      | nothing hne => exact absurd rfl hne
  | write hne hpos hwrite _ ih =>
      cases h' with
      | taken => exact absurd rfl hne
      | write _ _ hwrite' h' =>
          rw [hwrite] at hwrite'
          cases hwrite'
          obtain ⟨rfl, rfl⟩ := ih h'
          exact ⟨rfl, rfl⟩
      | refused _ hwrite' =>
          rw [hwrite] at hwrite'
          cases hwrite'
      | nothing _ hwrite' =>
          rw [hwrite] at hwrite'
          cases hwrite'
          exact absurd hpos (Nat.lt_irrefl 0)
  | refused hne hwrite =>
      cases h' with
      | taken => exact absurd rfl hne
      | write _ _ hwrite' =>
          rw [hwrite] at hwrite'
          cases hwrite'
      | refused _ hwrite' =>
          rw [hwrite] at hwrite'
          cases hwrite'
          exact ⟨rfl, rfl⟩
      | nothing _ hwrite' =>
          rw [hwrite] at hwrite'
          cases hwrite'
  | nothing hne hwrite =>
      cases h' with
      | taken => exact absurd rfl hne
      | write _ hpos hwrite' =>
          rw [hwrite] at hwrite'
          cases hwrite'
          exact absurd hpos (Nat.lt_irrefl 0)
      | refused _ hwrite' =>
          rw [hwrite] at hwrite'
          cases hwrite'
      | nothing _ hwrite' =>
          rw [hwrite] at hwrite'
          cases hwrite'
          exact ⟨rfl, rfl⟩
  | flush hflush _ ih =>
      cases h' with
      | flush hflush' h' =>
          rw [hflush] at hflush'
          cases hflush'
          obtain ⟨rfl, rfl⟩ := ih h'
          exact ⟨rfl, rfl⟩
      | unflushed hflush' =>
          rw [hflush] at hflush'
          cases hflush'
  | unflushed hflush =>
      cases h' with
      | flush hflush' =>
          rw [hflush] at hflush'
          cases hflush'
      | unflushed hflush' =>
          rw [hflush] at hflush'
          cases hflush'
          exact ⟨rfl, rfl⟩

end Serves

/-- Writing all of some bytes is to be asked for them: either all are taken and
the writer goes on from there, or a write is refused. -/
theorem serves_writeAll (writes : Nat) : ∀ {s : σ} {bytes : Bytes}, bytes.length ≤ writes →
    ∀ asked : List Arrival,
      (∃ s', Writer.writeAll s bytes writes = (bytes, .ok s') ∧
        ∀ {marks outcome}, Serves s' asked marks outcome →
          Serves s (.bytes bytes :: asked) (bytes.map some ++ marks) outcome) ∨
      ∃ part e, Writer.writeAll s bytes writes = (part, .error e) ∧
        Serves s (.bytes bytes :: asked) (part.map some) (.error e) := by
  induction writes with
  | zero =>
      intro s bytes hlength asked
      obtain rfl : bytes = [] := List.length_eq_zero_iff.mp (Nat.le_zero.mp hlength)
      exact Or.inl ⟨s, rfl, fun h => .taken h⟩
  | succ writes ih =>
      intro s bytes hlength asked
      by_cases hne : bytes = []
      · subst hne
        exact Or.inl ⟨s, rfl, fun h => .taken h⟩
      · have hempty : bytes.isEmpty = false := by simpa using hne
        rw [Writer.writeAll, hempty, if_neg Bool.false_ne_true]
        split
        · rename_i e hwrite
          exact Or.inr ⟨[], e, rfl, .refused hne hwrite⟩
        · rename_i s' hwrite
          exact Or.inr ⟨[], .nothingWritten, rfl, .nothing hne hwrite⟩
        · rename_i n s' hzero hwrite
          have hpos : 0 < n := Nat.pos_of_ne_zero fun h => hzero h
          have hshorter : (bytes.drop n).length ≤ writes := by
            rw [List.length_drop]
            omega
          rcases ih (s := s') hshorter asked with ⟨s'', hall, hserves⟩ | ⟨part, e, hall, hserves⟩
          · refine Or.inl ⟨s'', ?_, ?_⟩
            · rw [hall]
              exact congrArg (·, Except.ok s'') (List.take_append_drop n bytes)
            · intro marks outcome h
              have hwhole := Serves.write hne hpos hwrite (hserves h)
              rwa [← List.append_assoc, ← List.map_append, List.take_append_drop] at hwhole
          · refine Or.inr ⟨bytes.take n ++ part, e, ?_, ?_⟩
            · rw [hall]
            · rw [List.map_append]
              exact .write hne hpos hwrite hserves

theorem marksOf_ofTaken (taken : Bytes) : marksOf (Arrival.ofTaken taken) = taken.map some := by
  cases taken <;> simp [marksOf, Arrival.ofTaken, Arrival.marks]

/-- A relay asks the writer for the lines. Its result is the refusal, and without one
it depends on what ended the lines. -/
theorem relay_serves (failure : Option IoError) (lines : List Bytes) : ∀ (s : σ) (found : Bool),
    ∃ arrivals result outcome, relay s found failure lines = (arrivals, result) ∧
      Serves s (arrivalsOf lines) (marksOf arrivals) outcome ∧
      (∀ e, outcome = .error e → result = .error e) ∧
      ∀ s', outcome = .ok s' → match failure with
        | none => ∃ found', result = .ok found'
        | some e => result = .error e := by
  induction lines with
  | nil =>
      intro s found
      have hok : ∀ {result : Except IoError Bool} (e : IoError),
          (Except.ok s : Except IoError σ) = .error e → result = .error e := by
        intro result e h
        cases h
      cases failure with
      | none => exact ⟨[], .ok found, .ok s, rfl, .done, hok, fun _ _ => ⟨found, rfl⟩⟩
      | some e => exact ⟨[], .error e, .ok s, rfl, .done, hok, fun _ _ => rfl⟩
  | cons line lines ih =>
      intro s found
      have herror : ∀ {e e' : IoError}, (Except.error e : Except IoError σ) = .error e' →
          (Except.error e : Except IoError Bool) = .error e' := by
        intro e e' h
        cases h
        rfl
      have hasked : arrivalsOf (line :: lines) = .bytes line :: .flush :: arrivalsOf lines := rfl
      rw [hasked, relay]
      rcases serves_writeAll line.length (s := s) Nat.le.refl (.flush :: arrivalsOf lines) with
        ⟨s', hall, hserves⟩ | ⟨part, e, hall, hserves⟩
      · rw [hall]
        cases hflush : Writer.flush s' with
        | error e =>
            have hstop : Serves s' (.flush :: arrivalsOf lines) [] (.error e) := .unflushed hflush
            have hrefused := hserves hstop
            rw [List.append_nil] at hrefused
            refine ⟨Arrival.ofTaken line, .error e, .error e, by simp only [hflush], ?_,
              fun _ => herror, ?_⟩
            · rw [marksOf_ofTaken]
              exact hrefused
            · intro s'' h
              cases h
        | ok s'' =>
            obtain ⟨arrivals, result, outcome, hrelay, hrest, hresult⟩ :=
              ih s'' (found || isDiagnostic (Utf8.decodeLossy line))
            refine ⟨Arrival.ofTaken line ++ .flush :: arrivals, result, outcome,
              by simp only [hflush, hrelay], ?_, hresult⟩
            have hmarks : marksOf (Arrival.ofTaken line ++ .flush :: arrivals) =
                line.map some ++ none :: marksOf arrivals := by
              rw [← marksOf_ofTaken]
              exact List.flatMap_append
            rw [hmarks]
            exact hserves (.flush hflush hrest)
      · rw [hall]
        refine ⟨Arrival.ofTaken part, .error e, .error e, rfl, ?_, fun _ => herror, ?_⟩
        · rw [marksOf_ofTaken]
          exact hserves
        · intro s'' h
          cases h

/-- A willing writer refuses nothing. -/
theorem serves_of_willing {p : σ → Prop} (hw : Willing p) {s : σ} (hs : p s) (bytes : Bytes) :
    ∃ marks s', Serves s (arrivalsOf (linesOf bytes)) marks (.ok s') := by
  obtain ⟨arrivals, result, outcome, hrelay, hserves, hrefused, -⟩ :=
    relay_serves none (linesOf bytes) s false
  rw [relay_of_willing hw (fun _ => ne_nil_of_mem_linesOf) false hs] at hrelay
  cases hrelay
  cases outcome with
  | error e => cases hrefused e rfl
  | ok s' => exact ⟨_, s', hserves⟩

/-! ## Where the flushes stand -/

theorem flushedBehindLines_append {part : Bytes} (hpart : part = [] ∨ Whole part) (rest : Bytes) :
    flushedBehindLines (part ++ rest) = flushedBehindLines part ++ flushedBehindLines rest := by
  rcases hpart with rfl | hpart
  · rfl
  · rw [← marksOf_linesOf, ← marksOf_linesOf, ← marksOf_linesOf, linesOf_append_of_whole hpart,
      arrivalsOf, List.flatMap_append]
    exact List.flatMap_append

/-- The thing right before a flush is a line feed, or the last of all the bytes. -/
theorem before_flush {data : Bytes} : ∀ {before after : List (Option UInt8)},
    before ++ none :: after = flushedBehindLines data →
      ∃ b, before.getLast? = some (some b) ∧ (b = lineFeed ∨ before.filterMap id = data) := by
  induction data with
  | nil =>
      intro before after h
      simp [flushedBehindLines] at h
  | cons b data ih =>
      intro before after h
      -- what comes before is more than the first byte, unless the flush follows that at once
      have hfurther : ∀ {before : List (Option UInt8)},
          before ++ none :: after = flushedBehindLines data →
            ∃ c, before.getLast? = some (some c) ∧
              (c = lineFeed ∨ b :: before.filterMap id = b :: data) := by
        intro before h
        obtain ⟨c, hlast, hc⟩ := ih h
        exact ⟨c, hlast, hc.imp_right (congrArg (b :: ·))⟩
      cases before with
      | nil =>
          rw [flushedBehindLines] at h
          split at h <;> cases h
      | cons first before =>
          rw [flushedBehindLines] at h
          split at h
          · rename_i hend
            rw [List.cons_append, List.cons.injEq] at h
            obtain ⟨rfl, h⟩ := h
            cases before with
            | nil => exact ⟨b, rfl, hend.imp_right fun hnil => by rw [hnil]; rfl⟩
            | cons second before =>
                rw [List.cons_append, List.cons.injEq] at h
                obtain ⟨rfl, h⟩ := h
                obtain ⟨c, hlast, hc⟩ := hfurther h
                refine ⟨c, ?_, hc⟩
                rw [List.getLast?_cons, List.getLast?_cons, hlast]
                rfl
          · rw [List.cons_append, List.cons.injEq] at h
            obtain ⟨rfl, h⟩ := h
            obtain ⟨c, hlast, hc⟩ := hfurther h
            refine ⟨c, ?_, hc⟩
            rw [List.getLast?_cons, hlast]
            rfl

theorem getLast?_flushedBehindLines {data : Bytes} (hdata : data ≠ []) :
    (flushedBehindLines data).getLast? = some none := by
  induction data with
  | nil => exact absurd rfl hdata
  | cons b data ih =>
      rw [flushedBehindLines]
      by_cases hrest : data = []
      · rw [if_pos (Or.inr hrest), hrest]
        rfl
      · split
        · rw [List.getLast?_cons, List.getLast?_cons, ih hrest]
          rfl
        · rw [List.getLast?_cons, ih hrest]
          rfl

/-! ## The scan as a whole -/

/-- A source hands out the bytes in these pieces. It may fail on the way or at the
end, and if it does not it hands out all of them. -/
structure HandsOut (data : Bytes) (cuts : List Bytes) (failure : Option IoError) : Prop where
  begins : cuts.flatten <+: data
  all : failure = none → cuts.flatten = data

/-- The reads of a buffer with some room, from a source that may fail. -/
def bufferedReads (capacity : Nat) (cuts : List Bytes) (failure : Option IoError) : List Read :=
  cuts.flatMap (reads capacity none) ++ (failure.map .failure).toList

/-- The lines that are read are those of all bytes, or of the whole part of those that
were handed out before the failure. -/
theorem lines_bufferedReads {capacity : Nat} (hcapacity : 0 < capacity) (cuts : List Bytes)
    (failure : Option IoError) :
    ∃ part, lines (bufferedReads capacity cuts failure) = (linesOf part, failure) ∧
      match failure with
      | none => part = cuts.flatten
      | some _ => WholePart cuts.flatten part := by
  obtain ⟨cuts', hreads, hflatten⟩ := buffered_cuts hcapacity cuts
  rw [bufferedReads, hreads, ← hflatten]
  cases failure with
  | none =>
      refine ⟨cuts'.flatten, ?_, rfl⟩
      rw [Option.map_none, Option.toList_none, List.append_nil, lines_pieces]
  | some e =>
      obtain ⟨part, hpart, hlines⟩ := lines_failure e [] cuts'
      exact ⟨part, hlines, hpart⟩

/-- Whatever fails, and wherever, a clean beginning of the data has arrived. Each flush
follows a line feed or the last of the data at once. Nothing is reported as relayed
that was not: without an error all of the data has arrived, with a flush behind it.
The writer has been asked for the lines that were read, one after the other, and
nothing else, and its refusal is the error. If it refuses nothing, a failed read is
the error, and exactly the whole lines of what was handed out have arrived. -/
theorem scan_delivers_prefix (s : σ) {capacity : Nat} (hcapacity : 0 < capacity) {data : Bytes}
    {cuts : List Bytes} {failure : Option IoError} (hsource : HandsOut data cuts failure) :
    ∃ arrivals result, scan s (bufferedReads capacity cuts failure) = (arrivals, result) ∧
      (marksOf arrivals).filterMap id <+: data ∧
      (∀ before after, marksOf arrivals = before ++ none :: after →
        ∃ b, before.getLast? = some (some b) ∧ (b = lineFeed ∨ before.filterMap id = data)) ∧
      (∀ found, result = .ok found →
        failure = none ∧ (marksOf arrivals).filterMap id = data ∧
          (data ≠ [] → (marksOf arrivals).getLast? = some none)) ∧
      ∃ part outcome, Serves s (arrivalsOf (linesOf part)) (marksOf arrivals) outcome ∧
        (∀ e, outcome = .error e → result = .error e) ∧
        (failure = none → part = data) ∧
        ∀ e, failure = some e → WholePart cuts.flatten part ∧
          ((∃ marks s', Serves s (arrivalsOf (linesOf part)) marks (.ok s')) →
            result = .error e ∧ (marksOf arrivals).filterMap id = part) := by
  obtain ⟨part, hlines, hpart⟩ := lines_bufferedReads hcapacity cuts failure
  obtain ⟨arrivals, result, outcome, hrelay, hserves, hrefused, hserved⟩ :=
    relay_serves failure (linesOf part) s false
  have hasked : marksOf (arrivalsOf (linesOf part)) = flushedBehindLines part :=
    marksOf_linesOf part
  -- the writer is asked for a beginning of what it would be asked for without failures
  have hwhole : flushedBehindLines part <+: flushedBehindLines data := by
    cases failure with
    | none =>
        have hall : part = data := by rw [hpart, hsource.all rfl]
        exact hall ▸ List.prefix_rfl
    | some e =>
        obtain ⟨rest, hdata⟩ := hpart.begins.trans hsource.begins
        rw [← hdata, flushedBehindLines_append hpart.whole]
        exact List.prefix_append _ _
  have hbegins : marksOf arrivals <+: flushedBehindLines data := by
    refine List.IsPrefix.trans ?_ hwhole
    rw [← hasked]
    exact hserves.begins.1
  have hall : ∀ s', outcome = .ok s' → marksOf arrivals = flushedBehindLines part := by
    intro s' hs'
    rw [← hasked]
    exact hserves.begins.2 s' hs'
  refine ⟨arrivals, result, ?_, ?_, ?_, ?_, part, outcome, hserves, hrefused, ?_, ?_⟩
  · rw [scan, hlines]
    exact hrelay
  · have hbytes := hbegins.filterMap id
    rwa [received_flushedBehindLines] at hbytes
  · intro before after hmarks
    obtain ⟨rest, hrest⟩ := hbegins
    rw [hmarks, List.append_assoc, List.cons_append] at hrest
    exact before_flush hrest
  · rintro found rfl
    cases outcome with
    | error e => cases hrefused e rfl
    | ok s' =>
        cases failure with
        | some e => cases hserved s' rfl
        | none =>
            have hdata : part = data := hpart.trans (hsource.all rfl)
            rw [hall s' rfl, hdata]
            exact ⟨rfl, received_flushedBehindLines data, getLast?_flushedBehindLines⟩
  · rintro rfl
    exact hpart.trans (hsource.all rfl)
  · rintro e rfl
    refine ⟨hpart, ?_⟩
    rintro ⟨marks, s', hok⟩
    have hs' : outcome = .ok s' := (hserves.unique hok).2
    refine ⟨hserved s' hs', ?_⟩
    rw [hall s' hs', received_flushedBehindLines]

/-! A source fails in the middle of a line, behind two whole ones that it handed out
in pieces. -/

def severed : List Bytes :=
  [Bytes.ofText "one\ntw", Bytes.ofText "o\nthr"]

theorem scan_of_severed :
    ∃ arrivals, scan narrow (bufferedReads 4 severed (some .connectionReset)) =
        (arrivals, .error .connectionReset) ∧
      (marksOf arrivals).filterMap id = Bytes.ofText "one\ntwo\n" := by
  have hsource : HandsOut (Bytes.ofText "one\ntwo\nthree\n") severed (some .connectionReset) :=
    ⟨⟨Bytes.ofText "ee\n", by decide⟩, fun h => by cases h⟩
  obtain ⟨arrivals, result, hscan, -, -, -, part, outcome, -, -, -, hfailed⟩ :=
    scan_delivers_prefix narrow (by decide : 0 < 4) hsource
  obtain ⟨hpart, hserved⟩ := hfailed .connectionReset rfl
  have hwhole : WholePart (Bytes.ofText "one\ntwo\n" ++ Bytes.ofText "thr")
      (Bytes.ofText "one\ntwo\n") :=
    wholePart_append (Or.inr rfl) (by decide)
  obtain ⟨rfl, hreceived⟩ := hserved (serves_of_willing narrow_willing rfl part)
  exact ⟨arrivals, hscan, hreceived.trans (hpart.unique hwhole)⟩

end LintRunner.Relay
