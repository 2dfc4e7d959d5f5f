import LintRunner.Proofs.Utf8
import LintRunner.Relay.Scan
import LintRunner.Relay.Writer

/-!
# The relay is exact

Whatever pieces a source hands out, and however little a writer takes at once,
the writer gets the bytes of the source in order, with a flush behind each line,
and the scan finds a diagnostic exactly if one of the markers stands among the
bytes. Lines are the whole interface between the two sides: the reads only
matter through the lines that they make up, and no marker holds a line feed.
-/

namespace LintRunner.Relay

/-! ## The lines of some bytes -/

/-- The bytes cut behind every line feed. -/
def linesOf : Bytes → List Bytes
  | [] => []
  | b :: rest =>
    if b == lineFeed then [b] :: linesOf rest
    else
      match linesOf rest with
      | [] => [[b]]
      | line :: lines => (b :: line) :: lines

theorem linesOf_lineFeed (rest : Bytes) :
    linesOf (lineFeed :: rest) = [lineFeed] :: linesOf rest := by
  rw [linesOf, if_pos (beq_self_eq_true _)]

theorem linesOf_cons {b : UInt8} (hb : b ≠ lineFeed) (rest : Bytes) :
    (linesOf rest = [] ∧ linesOf (b :: rest) = [[b]]) ∨
      ∃ line lines, linesOf rest = line :: lines ∧ linesOf (b :: rest) = (b :: line) :: lines := by
  rw [linesOf, if_neg (by simpa using hb)]
  cases h : linesOf rest with
  | nil => exact Or.inl ⟨rfl, rfl⟩
  | cons line lines => exact Or.inr ⟨line, lines, rfl, rfl⟩

theorem linesOf_ne_nil {b : UInt8} {rest : Bytes} : linesOf (b :: rest) ≠ [] := by
  by_cases hb : b = lineFeed
  · rw [hb, linesOf_lineFeed]
    exact List.cons_ne_nil _ _
  · rcases linesOf_cons hb rest with ⟨-, h⟩ | ⟨line, lines, -, h⟩
    · rw [h]
      exact List.cons_ne_nil _ _
    · rw [h]
      exact List.cons_ne_nil _ _

theorem linesOf_flatten (data : Bytes) : (linesOf data).flatten = data := by
  induction data with
  | nil => rfl
  | cons b rest ih =>
      by_cases hb : b = lineFeed
      · rw [hb, linesOf_lineFeed, List.flatten_cons, ih]
        rfl
      · rcases linesOf_cons hb rest with ⟨hrest, h⟩ | ⟨line, lines, hrest, h⟩
        · rw [hrest] at ih
          rw [h, ← ih]
          rfl
        · rw [hrest, List.flatten_cons] at ih
          rw [h, List.flatten_cons, List.cons_append, ih]

theorem ne_nil_of_mem_linesOf {data line : Bytes} (h : line ∈ linesOf data) : line ≠ [] := by
  induction data generalizing line with
  | nil => cases h
  | cons b rest ih =>
      by_cases hb : b = lineFeed
      · rw [hb, linesOf_lineFeed] at h
        rcases List.mem_cons.mp h with rfl | h
        · exact List.cons_ne_nil _ _
        · exact ih h
      · rcases linesOf_cons hb rest with ⟨-, h'⟩ | ⟨first, lines, hrest, h'⟩
        · rw [h', List.mem_singleton] at h
          rw [h]
          exact List.cons_ne_nil _ _
        · rw [h'] at h
          rcases List.mem_cons.mp h with rfl | h
          · exact List.cons_ne_nil _ _
          · exact ih (by rw [hrest]; exact List.mem_cons_of_mem _ h)

/-- A line goes up to its line feed. -/
theorem linesOf_append {start : Bytes} (hstart : lineFeed ∉ start) (rest : Bytes) :
    linesOf (start ++ lineFeed :: rest) = (start ++ [lineFeed]) :: linesOf rest := by
  induction start with
  | nil => exact linesOf_lineFeed rest
  | cons b start ih =>
      have hb : b ≠ lineFeed := by
        rintro rfl
        exact hstart List.mem_cons_self
      have hlines := ih fun h => hstart (List.mem_cons_of_mem _ h)
      rcases linesOf_cons hb (start ++ lineFeed :: rest) with ⟨h, -⟩ | ⟨line, lines, h, h'⟩
      · rw [h] at hlines
        cases hlines
      · rw [h, List.cons.injEq] at hlines
        obtain ⟨rfl, rfl⟩ := hlines
        exact h'

/-- Bytes without a line feed are one line. -/
theorem linesOf_open {line : Bytes} (hline : lineFeed ∉ line) :
    linesOf line = if line.isEmpty then [] else [line] := by
  induction line with
  | nil => rfl
  | cons b line ih =>
      have hb : b ≠ lineFeed := by
        rintro rfl
        exact hline List.mem_cons_self
      have hlines := ih fun h => hline (List.mem_cons_of_mem _ h)
      rcases linesOf_cons hb line with ⟨h, h'⟩ | ⟨first, lines, h, h'⟩
      · cases line with
        | nil => exact h'
        | cons c line => exact absurd h linesOf_ne_nil
      · cases line with
        | nil => cases h
        | cons c line =>
            rw [h] at hlines
            simp only [List.isEmpty_cons, Bool.false_eq_true, if_false, List.cons.injEq] at hlines
            obtain ⟨rfl, rfl⟩ := hlines
            exact h'

/-! ## The reads only matter through their lines -/

/-- A piece completes the lines up to its last line feed; what follows stays
open and holds none. -/
theorem completed_spec (bytes : Bytes) : ∀ {line : Bytes}, lineFeed ∉ line →
    lineFeed ∉ (completed line bytes).2 ∧
      ∀ more, linesOf (line.reverse ++ (bytes ++ more)) =
        (completed line bytes).1 ++ linesOf ((completed line bytes).2.reverse ++ more) := by
  induction bytes with
  | nil =>
      intro line hline
      exact ⟨hline, fun more => rfl⟩
  | cons b bytes ih =>
      intro line hline
      rw [completed]
      split
      · rename_i hb
        obtain rfl : b = lineFeed := by simpa using hb
        obtain ⟨hopen, hlines⟩ := ih List.not_mem_nil
        refine ⟨hopen, ?_⟩
        intro more
        rw [List.cons_append, linesOf_append (by simpa using hline)]
        have := hlines more
        simp only [List.reverse_nil, List.nil_append] at this
        simp [this]
      · rename_i hb
        have hline' : lineFeed ∉ b :: line := by
          intro h
          rcases List.mem_cons.mp h with rfl | h
          · exact hb (beq_self_eq_true _)
          · exact hline h
        obtain ⟨hopen, hlines⟩ := ih hline'
        refine ⟨hopen, ?_⟩
        intro more
        have := hlines more
        simpa using this

theorem linesFrom_pieces (cuts : List Bytes) : ∀ {line : Bytes}, lineFeed ∉ line →
    linesFrom line (cuts.map .piece) = (linesOf (line.reverse ++ cuts.flatten), none) := by
  induction cuts with
  | nil =>
      intro line hline
      rw [List.map_nil, linesFrom, List.flatten_nil, List.append_nil,
        linesOf_open (by simpa using hline)]
      simp
  | cons cut cuts ih =>
      intro line hline
      obtain ⟨hopen, hlines⟩ := completed_spec cut hline
      show ((completed line cut).1 ++ (linesFrom (completed line cut).2 (cuts.map .piece)).1,
        (linesFrom (completed line cut).2 (cuts.map .piece)).2) = _
      rw [ih hopen, List.flatten_cons, hlines]

/-- However bytes are cut into pieces, their lines are the same. -/
theorem lines_pieces (cuts : List Bytes) :
    lines (cuts.map .piece) = (linesOf cuts.flatten, none) :=
  linesFrom_pieces cuts List.not_mem_nil

theorem piecesFrom_flatten (size : Nat) (bytes : Bytes) : ∀ (room : Nat) (piece : Bytes),
    (piecesFrom size room piece bytes).flatten = piece.reverse ++ bytes := by
  induction bytes with
  | nil =>
      intro room piece
      cases piece <;> simp [piecesFrom]
  | cons b rest ih =>
      intro room piece
      match room with
      | 0 | 1 => simp [piecesFrom, ih]
      | room + 2 => simp [piecesFrom, ih]

/-- A buffer of some size hands on what it gets. -/
theorem pieces_flatten (size : Nat) (bytes : Bytes) : (pieces size bytes).flatten = bytes :=
  piecesFrom_flatten size bytes size []

/-! ## Writers that take all they are offered -/

variable {σ : Type} [Writer σ]

/-- From a state with `p` on, a writer takes at least one byte of each offer and
never fails. How much it takes may differ from one write to the next. -/
structure Willing (p : σ → Prop) : Prop where
  write : ∀ {s}, p s → ∀ {bytes : Bytes}, bytes ≠ [] →
    ∃ n s', Writer.write s bytes = .ok (n, s') ∧ 0 < n ∧ n ≤ bytes.length ∧ p s'
  flush : ∀ {s}, p s → ∃ s', Writer.flush s = .ok s' ∧ p s'

theorem writeAll_of_willing {p : σ → Prop} (hw : Willing p) (writes : Nat) :
    ∀ {s : σ} (bytes : Bytes), p s → bytes.length ≤ writes →
      ∃ s', Writer.writeAll s bytes writes = (bytes, .ok s') ∧ p s' := by
  induction writes with
  | zero =>
      intro s bytes hs hlength
      obtain rfl : bytes = [] := List.length_eq_zero_iff.mp (Nat.le_zero.mp hlength)
      exact ⟨s, rfl, hs⟩
  | succ writes ih =>
      intro s bytes hs hlength
      cases bytes with
      | nil => exact ⟨s, rfl, hs⟩
      | cons b bytes =>
          obtain ⟨n, s', hwrite, hpos, hle, hs'⟩ := hw.write hs (List.cons_ne_nil b bytes)
          obtain ⟨m, rfl⟩ : ∃ m, n = m + 1 := ⟨n - 1, by omega⟩
          simp only [List.length_cons] at hlength
          obtain ⟨s'', hrest, hs''⟩ := ih ((b :: bytes).drop (m + 1)) hs'
            (by simp only [List.length_drop, List.length_cons]; omega)
          refine ⟨s'', ?_, hs''⟩
          rw [Writer.writeAll, if_neg (by simp), hwrite]
          simp only [hrest, List.take_append_drop]

/-- What a writer sees of some lines: the bytes of each, and a flush. -/
def arrivalsOf (lines : List Bytes) : List Arrival :=
  lines.flatMap fun line => [.bytes line, .flush]

theorem relay_of_willing {p : σ → Prop} (hw : Willing p) {lines : List Bytes}
    (hlines : ∀ line ∈ lines, line ≠ []) : ∀ {s : σ} (found : Bool), p s →
      relay s found none lines =
        (arrivalsOf lines, .ok (found || lines.any (isDiagnostic ∘ Utf8.decodeLossy))) := by
  induction lines with
  | nil =>
      intro s found _
      simp [relay, arrivalsOf]
  | cons line lines ih =>
      intro s found hs
      have hne := hlines line List.mem_cons_self
      obtain ⟨s', hwrite, hs'⟩ := writeAll_of_willing hw line.length line hs Nat.le.refl
      obtain ⟨s'', hflush, hs''⟩ := hw.flush hs'
      have hrest := ih (fun l hl => hlines l (List.mem_cons_of_mem _ hl))
        (found || isDiagnostic (Utf8.decodeLossy line)) hs''
      simp only [relay, hwrite, hflush, hrest]
      simp [arrivalsOf, Arrival.ofTaken, hne, Bool.or_assoc]

/-! ## What arrives

Each byte that arrives is marked, and so is each flush, by `none`. -/

def Arrival.marks : Arrival → List (Option UInt8)
  | .bytes taken => taken.map some
  | .flush => [none]

def marksOf (arrivals : List Arrival) : List (Option UInt8) :=
  arrivals.flatMap (·.marks)

/-- Some bytes with a flush behind each line feed and behind the last byte. -/
def flushedBehindLines : Bytes → List (Option UInt8)
  | [] => []
  | b :: rest =>
    if b = lineFeed ∨ rest = [] then some b :: none :: flushedBehindLines rest
    else some b :: flushedBehindLines rest

theorem marksOf_linesOf (data : Bytes) :
    marksOf (arrivalsOf (linesOf data)) = flushedBehindLines data := by
  induction data with
  | nil => rfl
  | cons b rest ih =>
      rw [flushedBehindLines, ← ih]
      by_cases hb : b = lineFeed
      · rw [if_pos (Or.inl hb), hb, linesOf_lineFeed]
        simp [marksOf, arrivalsOf, Arrival.marks]
      · rcases linesOf_cons hb rest with ⟨hrest, h⟩ | ⟨line, lines, hrest, h⟩
        · have hnil : rest = [] := by rw [← linesOf_flatten rest, hrest]; rfl
          rw [if_pos (Or.inr hnil), h, hrest]
          simp [marksOf, arrivalsOf, Arrival.marks]
        · have hne : rest ≠ [] := by
            rintro rfl
            cases hrest
          rw [if_neg (by simp [hb, hne]), h, hrest]
          simp [marksOf, arrivalsOf, Arrival.marks]

theorem flushed_arrivalsOf (lines : List Bytes) : flushed [] (arrivalsOf lines) = lines := by
  induction lines with
  | nil => rfl
  | cons line lines ih =>
      rw [arrivalsOf] at ih ⊢
      simpa [flushed] using ih

/-! ## Where a diagnostic stands -/

theorem holds_iff {α : Type} [BEq α] [LawfulBEq α] {piece text : List α} :
    holds piece text = true ↔ piece <:+: text := by
  induction text with
  | nil => simp [holds]
  | cons a text ih => simp [holds, ih, List.infix_cons_iff]

theorem isDiagnostic_iff (bytes : Bytes) :
    isDiagnostic (Utf8.decodeLossy bytes) = true ↔
      Bytes.ofText "warning:" <:+: bytes ∨ Bytes.ofText "error:" <:+: bytes := by
  have hwarning : "warning:".toList <:+: Utf8.decodeLossy bytes ↔ _ :=
    Utf8.infix_decodeLossy_iff (Utf8.plain_of_all (by decide)) (by decide) bytes
  have herror : "error:".toList <:+: Utf8.decodeLossy bytes ↔ _ :=
    Utf8.infix_decodeLossy_iff (Utf8.plain_of_all (by decide)) (by decide) bytes
  simp only [isDiagnostic, markers, List.any_cons, List.any_nil, Bool.or_false, Bool.or_eq_true,
    holds_iff, hwarning, herror]
  rfl

/-- A text without a line feed that begins some bytes begins their first line. -/
theorem begins_first_line {text : Bytes} (htext : lineFeed ∉ text) :
    ∀ {data line : Bytes} {lines : List Bytes}, linesOf data = line :: lines → text <+: data →
      text <+: line := by
  induction text with
  | nil => intros; exact List.nil_prefix
  | cons a text ih =>
      intro data line lines hdata hbegin
      cases data with
      | nil => cases hdata
      | cons b rest =>
          obtain ⟨rfl, hbehind⟩ := List.cons_prefix_cons.mp hbegin
          have ha : a ≠ lineFeed := by
            rintro rfl
            exact htext List.mem_cons_self
          rcases linesOf_cons ha rest with ⟨hrest, h⟩ | ⟨first, more, hrest, h⟩
          · rw [← linesOf_flatten rest, hrest] at hbehind
            obtain rfl : text = [] := List.prefix_nil.mp hbehind
            rw [h, List.cons.injEq] at hdata
            obtain ⟨rfl, -⟩ := hdata
            exact List.prefix_rfl
          · rw [h, List.cons.injEq] at hdata
            rw [← hdata.1]
            exact List.cons_prefix_cons.mpr
              ⟨rfl, ih (fun h => htext (List.mem_cons_of_mem _ h)) hrest hbehind⟩

/-- A text without a line feed stands in some bytes exactly if it stands in one
of their lines. -/
theorem infix_line_iff (text : Bytes) (htext : lineFeed ∉ text) (hne : text ≠ [])
    (data : Bytes) : (∃ line ∈ linesOf data, text <:+: line) ↔ text <:+: data := by
  constructor
  · rintro ⟨line, hline, h⟩
    rw [← linesOf_flatten data]
    exact h.trans (List.infix_of_mem_flatten hline)
  · intro h
    induction data with
    | nil => exact absurd (List.infix_nil.mp h) hne
    | cons b rest ih =>
        rcases List.infix_cons_iff.mp h with hbegin | h
        · cases hlines : linesOf (b :: rest) with
          | nil => exact absurd hlines linesOf_ne_nil
          | cons line lines =>
              exact ⟨line, List.mem_cons_self, (begins_first_line htext hlines hbegin).isInfix⟩
        · obtain ⟨line, hline, hinfix⟩ := ih h
          by_cases hb : b = lineFeed
          · rw [hb, linesOf_lineFeed]
            exact ⟨line, List.mem_cons_of_mem _ hline, hinfix⟩
          · rcases linesOf_cons hb rest with ⟨hrest, -⟩ | ⟨first, more, hrest, h'⟩
            · rw [hrest] at hline
              cases hline
            · rw [hrest] at hline
              rw [h']
              rcases List.mem_cons.mp hline with rfl | hline
              · exact ⟨b :: line, List.mem_cons_self, hinfix.trans (List.suffix_cons _ _).isInfix⟩
              · exact ⟨line, List.mem_cons_of_mem _ hline, hinfix⟩

theorem any_isDiagnostic_iff (data : Bytes) :
    (linesOf data).any (isDiagnostic ∘ Utf8.decodeLossy) = true ↔
      Bytes.ofText "warning:" <:+: data ∨ Bytes.ofText "error:" <:+: data := by
  rw [List.any_eq_true, ← infix_line_iff (Bytes.ofText "warning:") (by decide) (by decide),
    ← infix_line_iff (Bytes.ofText "error:") (by decide) (by decide)]
  simp only [Function.comp_apply, isDiagnostic_iff]
  constructor
  · rintro ⟨line, hline, h | h⟩
    · exact Or.inl ⟨line, hline, h⟩
    · exact Or.inr ⟨line, hline, h⟩
  · rintro (⟨line, hline, h⟩ | ⟨line, hline, h⟩)
    · exact ⟨line, hline, Or.inl h⟩
    · exact ⟨line, hline, Or.inr h⟩

/-! ## The scan as a whole -/

/-- What a scan of some reads does depends on the bytes that they make up. -/
theorem scan_of_willing {p : σ → Prop} (hw : Willing p) {s : σ} (hs : p s) (cuts : List Bytes) :
    scan s (cuts.map .piece) = (arrivalsOf (linesOf cuts.flatten),
      .ok ((linesOf cuts.flatten).any (isDiagnostic ∘ Utf8.decodeLossy))) := by
  rw [scan, lines_pieces]
  show relay s false none (linesOf cuts.flatten) = _
  rw [relay_of_willing hw (fun _ => ne_nil_of_mem_linesOf) false hs, Bool.false_or]

/-- A buffer of any size but none hands on what a source gives it, however
little the source gives at once. -/
theorem buffered_cuts {capacity : Nat} (hcapacity : 0 < capacity) (cuts : List Bytes) :
    ∃ cuts' : List Bytes,
      cuts.flatMap (reads capacity none) = cuts'.map .piece ∧ cuts'.flatten = cuts.flatten := by
  have hne : (capacity == 0) = false := by simpa using Nat.ne_of_gt hcapacity
  induction cuts with
  | nil => exact ⟨[], rfl, rfl⟩
  | cons cut cuts ih =>
      obtain ⟨cuts', hreads, hflatten⟩ := ih
      refine ⟨pieces capacity cut ++ cuts', ?_, ?_⟩
      · rw [List.flatMap_cons, hreads, List.map_append, reads, hne]
        rfl
      · rw [List.flatten_append, pieces_flatten, hflatten, List.flatten_cons]

theorem received_flushedBehindLines (data : Bytes) :
    (flushedBehindLines data).filterMap id = data := by
  induction data with
  | nil => rfl
  | cons b rest ih =>
      rw [flushedBehindLines]
      split
      · exact congrArg (b :: ·) ih
      · exact congrArg (b :: ·) ih

/-- A scan is exact: it ends well, the writer has received the bytes and a flush
behind each line feed and behind an unterminated rest, so that they arrive line
by line, and a diagnostic is found exactly if a marker stands somewhere among
them. How the source cuts the bytes, how many of them a buffer holds and how many
the writer takes at once have no part in it. -/
theorem scan_exact {p : σ → Prop} (hw : Willing p) {s : σ} (hs : p s) (data : Bytes) :
    ∃ arrivals found,
      (∀ (capacity : Nat) (cuts : List Bytes), 0 < capacity → cuts.flatten = data →
        scan s (cuts.flatMap (reads capacity none)) = (arrivals, .ok found)) ∧
      (marksOf arrivals).filterMap id = data ∧
      marksOf arrivals = flushedBehindLines data ∧
      flushed [] arrivals = linesOf data ∧
      (found = true ↔ Bytes.ofText "warning:" <:+: data ∨ Bytes.ofText "error:" <:+: data) := by
  refine ⟨arrivalsOf (linesOf data), (linesOf data).any (isDiagnostic ∘ Utf8.decodeLossy),
    ?_, ?_, marksOf_linesOf data, flushed_arrivalsOf _, any_isDiagnostic_iff data⟩
  · intro capacity cuts hcapacity hcuts
    obtain ⟨cuts', hreads, hflatten⟩ := buffered_cuts hcapacity cuts
    rw [hreads, scan_of_willing hw hs, hflatten, hcuts]
  · rw [marksOf_linesOf, received_flushedBehindLines]

/-! A writer that takes three bytes at once gets two lines, one of which is not
UTF-8, out of a buffer of four bytes and reads that part a marker. -/

def narrow : Sink :=
  { perWrite := some 3 }

theorem narrow_willing : Willing (· = narrow) := by
  constructor
  · rintro s rfl bytes hne
    have hlength : 0 < bytes.length := List.length_pos_iff.mpr hne
    exact ⟨min bytes.length 3, narrow, rfl, by omega, by omega, rfl⟩
  · rintro s rfl
    exact ⟨narrow, rfl, rfl⟩

def crumbled : List Bytes :=
  [[0xFF, 0x77, 0x61, 0x72, 0x6E, 0x69], [0x6E, 0x67, 0x3A, 10], [0x6F, 0x6B]]

theorem scan_crumbled :
    ∃ arrivals, scan narrow (crumbled.flatMap (reads 4 none)) = (arrivals, .ok true) ∧
      flushed [] arrivals =
        [[0xFF, 0x77, 0x61, 0x72, 0x6E, 0x69, 0x6E, 0x67, 0x3A, 10], [0x6F, 0x6B]] := by
  obtain ⟨arrivals, found, hscan, -, -, hlines, hfound⟩ :=
    scan_exact narrow_willing (rfl : narrow = narrow) crumbled.flatten
  have hmark : found = true := hfound.mpr (Or.inl ⟨[0xFF], [10, 0x6F, 0x6B], by decide⟩)
  refine ⟨arrivals, ?_, ?_⟩
  · rw [hscan 4 crumbled (by decide) rfl, hmark]
  · rw [hlines]
    decide

end LintRunner.Relay
