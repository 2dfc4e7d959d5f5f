import LintRunner.Proofs.Lexical
import LintRunner.Proofs.Selection

/-!
# An ignore file is the union of its lines

A line of an ignore file stands for itself: what the file ignores is what some
line of it ignores as a file of its own. Neither the order of the lines nor how
often they stand there counts for anything, nor do blank lines and comments, nor
the way that a line ends.
-/

namespace LintRunner

namespace Text

/-- The lines of a text. A line feed ends a line, and so does a carriage return
with a line feed behind it; there is no line behind the last of them unless
something is written there. -/
def lines : List Char → List (List Char)
  | [] => []
  | '\n' :: rest => [] :: lines rest
  | '\r' :: '\n' :: rest => [] :: lines rest
  | c :: rest =>
    match lines rest with
    | [] => [[c]]
    | line :: more => (c :: line) :: more

/-- The second text is the first one with a carriage return in front of some
line feeds. -/
inductive Respelled : List Char → List Char → Prop
  | nil : Respelled [] []
  | keep (c : Char) {a b : List Char} : Respelled a b → Respelled (c :: a) (c :: b)
  | withReturn {a b : List Char} : Respelled a b → Respelled ('\n' :: a) ('\r' :: '\n' :: b)

theorem not_mem_of_mem_lines {text line : List Char} (h : line ∈ lines text) : '\n' ∉ line := by
  fun_induction lines text generalizing line
  case case1 => cases h
  case case2 ih | case3 ih =>
    rcases List.mem_cons.mp h with rfl | h
    · exact List.not_mem_nil
    · exact ih h
  case case4 c rest hfeed _ hlines _ =>
    obtain rfl := List.mem_singleton.mp h
    simpa [eq_comm] using hfeed
  case case5 c rest hfeed _ first more hlines ih =>
    rw [hlines] at ih
    rcases List.mem_cons.mp h with rfl | h
    · simpa [eq_comm, ih List.mem_cons_self] using hfeed
    · exact ih (List.mem_cons_of_mem _ h)

/-! ## Lines and pieces between line feeds -/

/-- Two spellings of a line: the second one may have kept a carriage return. -/
def UpToReturn (line piece : List Char) : Prop :=
  piece = line ∨ piece = line ++ ['\r']

theorem UpToReturn.cons {line piece : List Char} (c : Char) (h : UpToReturn line piece) :
    UpToReturn (c :: line) (c :: piece) := by
  rcases h with rfl | rfl
  · exact Or.inl rfl
  · exact Or.inr rfl

theorem trim_append_blank {c : Char} (hc : isBlank c = true) (text : List Char) :
    trim (text ++ [c]) = trim text := by
  rw [trim, trim, List.dropWhile_append]
  by_cases hempty : (text.dropWhile isBlank).isEmpty = true
  · rw [if_pos hempty, List.isEmpty_iff.mp hempty]
    simp [hc]
  · rw [if_neg hempty, List.reverse_append]
    simp [hc]

theorem UpToReturn.trim_eq {line piece : List Char} (h : UpToReturn line piece) :
    trim piece = trim line := by
  rcases h with rfl | rfl
  · rfl
  · exact trim_append_blank (by decide) line

theorem map_trim_eq {lines pieces : List (List Char)} (h : List.Forall₂ UpToReturn lines pieces) :
    pieces.map trim = lines.map trim := by
  induction h with
  | nil => rfl
  | cons hline _ ih => rw [List.map_cons, List.map_cons, hline.trim_eq, ih]

theorem splitOn_cons_of_ne {c : Char} (hc : c ≠ '\n') {text piece : List Char}
    {pieces : List (List Char)} (h : splitOn '\n' text = piece :: pieces) :
    splitOn '\n' (c :: text) = (c :: piece) :: pieces := by
  rw [splitOn, if_neg (by simpa using hc), h]

/-- Between the line feeds stand the lines, and behind the last one nothing else
stands but a line. -/
theorem splitOn_lines (text : List Char) :
    ∃ pieces, List.Forall₂ UpToReturn (lines text) pieces ∧
      (splitOn '\n' text = pieces ∨ splitOn '\n' text = pieces ++ [[]]) := by
  fun_induction lines text
  case case1 => exact ⟨[], .nil, Or.inr rfl⟩
  case case2 rest ih =>
    obtain ⟨pieces, hlines, hsplit⟩ := ih
    refine ⟨[] :: pieces, .cons (Or.inl rfl) hlines, ?_⟩
    exact hsplit.imp (congrArg ([] :: ·)) (congrArg ([] :: ·))
  case case3 rest ih =>
    obtain ⟨pieces, hlines, hsplit⟩ := ih
    refine ⟨['\r'] :: pieces, .cons (Or.inr rfl) hlines, ?_⟩
    exact hsplit.imp (congrArg (['\r'] :: ·)) (congrArg (['\r'] :: ·))
  case case4 c rest hfeed _ hnone ih =>
    obtain ⟨pieces, hlines, hsplit⟩ := ih
    rw [hnone] at hlines
    cases hlines
    have hrest : splitOn '\n' rest = [[]] :=
      hsplit.resolve_left fun h => splitOn_ne_nil '\n' rest h
    exact ⟨[[c]], .cons (Or.inl rfl) .nil, Or.inl (splitOn_cons_of_ne hfeed hrest)⟩
  case case5 c rest hfeed _ line more hlines' ih =>
    obtain ⟨pieces, hlines, hsplit⟩ := ih
    rw [hlines'] at hlines
    cases hlines with
    | cons hline hmore =>
        refine ⟨_, .cons (hline.cons c) hmore, ?_⟩
        exact hsplit.imp (splitOn_cons_of_ne hfeed) (splitOn_cons_of_ne hfeed)

/-- A text and its other spelling are cut into the same pieces, up to a carriage
return at the end of each. -/
theorem Respelled.splitOn {text text' : List Char} (h : Respelled text text') :
    List.Forall₂ UpToReturn (splitOn '\n' text) (splitOn '\n' text') := by
  induction h with
  | nil => exact .cons (Or.inl rfl) .nil
  | withReturn _ ih => exact .cons (Or.inr rfl) ih
  | @keep c a b _ ih =>
      by_cases hc : c = '\n'
      · subst hc
        exact .cons (Or.inl rfl) ih
      · cases ha : Text.splitOn '\n' a with
        | nil => exact absurd ha (splitOn_ne_nil '\n' a)
        | cons piece pieces =>
            cases hb : Text.splitOn '\n' b with
            | nil => exact absurd hb (splitOn_ne_nil '\n' b)
            | cons piece' pieces' =>
                rw [ha, hb] at ih
                rw [splitOn_cons_of_ne hc ha, splitOn_cons_of_ne hc hb]
                cases ih with
                | cons hpiece hpieces => exact .cons (hpiece.cons c) hpieces

end Text

namespace IgnoreList

/-- The list of an ignore file with these contents. -/
def ofContents (contents : List Char) : IgnoreList :=
  ofPatterns (patternsOf contents)

/-! ## The lines that are patterns -/

/-- What is left of a line is a pattern unless it is nothing or a comment. -/
def isPattern (trimmed : List Char) : Bool :=
  !trimmed.isEmpty && trimmed.head? != some '#'

/-- The lines that are patterns, trimmed, in order. -/
def patternLines (contents : List Char) : List (List Char) :=
  ((Text.lines contents).map Text.trim).filter isPattern

theorem patternsOf_eq_of_split {contents contents' : List Char}
    (h : (Text.splitOn '\n' contents).map Text.trim = (Text.splitOn '\n' contents').map Text.trim) :
    patternsOf contents = patternsOf contents' := by
  rw [patternsOf, patternsOf, h]

theorem patternsOf_eq (contents : List Char) :
    patternsOf contents = (patternLines contents).map String.ofList := by
  obtain ⟨pieces, hlines, hsplit⟩ := Text.splitOn_lines contents
  rw [patternLines, ← Text.map_trim_eq hlines]
  rcases hsplit with h | h
  · rw [patternsOf, h]
    rfl
  · -- the piece behind the last line feed is blank
    rw [patternsOf, h, List.map_append, List.filter_append, List.map_append]
    exact List.append_nil _

theorem patternsOf_append (a b : List Char) :
    patternsOf (a ++ '\n' :: b) = patternsOf a ++ patternsOf b := by
  rw [patternsOf, Text.splitOn_append, List.map_append, List.filter_append, List.map_append]
  rfl

theorem patternsOf_of_line {line : List Char} (h : '\n' ∉ line) :
    patternsOf line = if isPattern (Text.trim line) then [String.ofList (Text.trim line)] else [] := by
  rw [patternsOf, Text.splitOn_of_not_mem h, List.map_singleton, List.filter_singleton]
  show List.map _ (bif isPattern (Text.trim line) then [Text.trim line] else []) = _
  cases isPattern (Text.trim line) <;> rfl

/-! ## What the lines ignore -/

theorem isIgnored_ofContents_iff (contents : List Char) (name : String) :
    (ofContents contents).isIgnored name = true ↔
      ∃ line ∈ patternLines contents, (ofPatterns [String.ofList line]).isIgnored name = true := by
  rw [ofContents, isIgnored_iff_alone, patternsOf_eq]
  simp

theorem isIgnored_ofContents_line {line : List Char} (h : '\n' ∉ line) (name : String) :
    (ofContents line).isIgnored name = true ↔ isPattern (Text.trim line) = true ∧
      (ofPatterns [String.ofList (Text.trim line)]).isIgnored name = true := by
  rw [ofContents, patternsOf_of_line h]
  cases isPattern (Text.trim line) with
  | true => simp
  | false => simp [isIgnored_eq]

theorem isIgnored_mono {contents contents' : List Char} {name : String}
    (h : patternLines contents ⊆ patternLines contents')
    (hignored : (ofContents contents).isIgnored name = true) :
    (ofContents contents').isIgnored name = true := by
  obtain ⟨line, hline, halone⟩ := (isIgnored_ofContents_iff contents name).mp hignored
  exact (isIgnored_ofContents_iff contents' name).mpr ⟨line, h hline, halone⟩

/-- The patterns of an ignore file are its trimmed lines that are neither empty nor
begin with `#`, and it ignores what one of its lines ignores as a file of its own.
So two files one below the other ignore what either of them does; it makes no
difference which line feeds have a carriage return in front; a file whose pattern
lines are all in another one ignores nothing that the other does not; and files
with the same pattern lines, in any order, each as often as it may be, and with
anything else on the other lines, ignore the same names. -/
theorem ofContents_eq_union (contents : List Char) :
    (ofContents contents).patterns =
      (((Text.lines contents).map Text.trim).filter fun line =>
        !line.isEmpty && line.head? != some '#').map String.ofList ∧
    (∀ name, (ofContents contents).isIgnored name = true ↔
      ∃ line ∈ Text.lines contents, (ofContents line).isIgnored name = true) ∧
    (∀ below, (ofContents (contents ++ '\n' :: below)).patterns =
        (ofContents contents).patterns ++ (ofContents below).patterns ∧
      ∀ name, (ofContents (contents ++ '\n' :: below)).isIgnored name = true ↔
        (ofContents contents).isIgnored name = true ∨ (ofContents below).isIgnored name = true) ∧
    (∀ respelled, Text.Respelled contents respelled →
      (ofContents respelled).patterns = (ofContents contents).patterns ∧
      ∀ name, (ofContents respelled).isIgnored name = (ofContents contents).isIgnored name) ∧
    (∀ larger, patternLines contents ⊆ patternLines larger → ∀ name,
      (ofContents contents).isIgnored name = true → (ofContents larger).isIgnored name = true) ∧
    ∀ other, (∀ line, line ∈ patternLines contents ↔ line ∈ patternLines other) → ∀ name,
      (ofContents other).isIgnored name = (ofContents contents).isIgnored name := by
  refine ⟨patternsOf_eq contents, ?_, ?_, ?_, ?_, ?_⟩
  · intro name
    rw [isIgnored_ofContents_iff]
    constructor
    · rintro ⟨trimmed, htrimmed, halone⟩
      obtain ⟨hmem, hpattern⟩ := List.mem_filter.mp htrimmed
      obtain ⟨line, hline, rfl⟩ := List.mem_map.mp hmem
      exact ⟨line, hline,
        (isIgnored_ofContents_line (Text.not_mem_of_mem_lines hline) name).mpr ⟨hpattern, halone⟩⟩
    · rintro ⟨line, hline, hignored⟩
      obtain ⟨hpattern, halone⟩ :=
        (isIgnored_ofContents_line (Text.not_mem_of_mem_lines hline) name).mp hignored
      exact ⟨_, List.mem_filter.mpr ⟨List.mem_map_of_mem hline, hpattern⟩, halone⟩
  · intro below
    refine ⟨patternsOf_append contents below, fun name => ?_⟩
    simp only [ofContents, patternsOf_append, isIgnored_eq, List.any_append, Bool.or_eq_true]
  · intro respelled h
    have hpatterns : patternsOf respelled = patternsOf contents :=
      patternsOf_eq_of_split (Text.map_trim_eq h.splitOn)
    exact ⟨hpatterns, fun name => by rw [ofContents, hpatterns, ofContents]⟩
  · intro larger h name
    exact isIgnored_mono h
  · intro other h name
    rw [Bool.eq_iff_iff]
    exact ⟨isIgnored_mono fun line => (h line).mpr, isIgnored_mono fun line => (h line).mp⟩

/-- A pattern that is skipped, a comment, a blank line, a pattern that is taken as
text, and a wildcard. -/
def mixedLines : List Char :=
  ['[', 'z', '-', 'a', ']', '\\'] ++ '\n' :: "# *\n\n [z-a]\n*.c".toList

/-- The mixed lines, with a carriage return in front of the first line feed. -/
def returnedLines : List Char :=
  ['[', 'z', '-', 'a', ']', '\\'] ++ '\r' :: '\n' :: "# *\n\n [z-a]\n*.c".toList

/-- The same patterns upwards, with one of them twice and other comments. -/
def reorderedLines : List Char :=
  "*.c\n[z-a]\n#\n[z-a]\n[z-a]\\\n#".toList

theorem patternLines_mixedLines :
    patternLines mixedLines = [['[', 'z', '-', 'a', ']', '\\'], ['[', 'z', '-', 'a', ']'],
      ['*', '.', 'c']] := by
  decide +kernel

theorem patternLines_reorderedLines :
    patternLines reorderedLines = [['*', '.', 'c'], ['[', 'z', '-', 'a', ']'],
      ['[', 'z', '-', 'a', ']'], ['[', 'z', '-', 'a', ']', '\\']] := by
  decide +kernel

theorem ofContents_mixedLines :
    (ofContents mixedLines).patterns = ["[z-a]\\", "[z-a]", "*.c"] ∧
      (ofContents mixedLines).isIgnored "a.c" = true ∧
      (ofContents (mixedLines ++ '\n' :: ['b'])).isIgnored "b" = true ∧
      (ofContents returnedLines).isIgnored "a.c" = true ∧
      (ofContents reorderedLines).isIgnored "[z-a]" = true := by
  obtain ⟨hpatterns, hlines, hbelow, hrespelled, hlarger, hother⟩ := ofContents_eq_union mixedLines
  have hignored : (ofContents mixedLines).isIgnored "a.c" = true :=
    (hlines "a.c").mpr ⟨['*', '.', 'c'], by decide +kernel, by decide +kernel⟩
  have hreturned : Text.Respelled mixedLines returnedLines := by
    have hsame : ∀ text, Text.Respelled text text := by
      intro text
      induction text with
      | nil => exact .nil
      | cons c text ih => exact .keep c ih
    exact .keep _ (.keep _ (.keep _ (.keep _ (.keep _ (.keep _ (.withReturn (hsame _)))))))
  have hreordered : ∀ line,
      line ∈ patternLines mixedLines ↔ line ∈ patternLines reorderedLines := by
    intro line
    rw [patternLines_mixedLines, patternLines_reorderedLines]
    simp only [List.mem_cons, List.not_mem_nil]
    tauto
  refine ⟨hpatterns.trans (by decide +kernel), hignored, ?_, ?_, ?_⟩
  · exact ((hbelow ['b']).2 "b").mpr (Or.inr (by decide +kernel))
  · exact ((hrespelled _ hreturned).2 "a.c").trans hignored
  · exact (hother _ hreordered "[z-a]").trans (by decide +kernel)

end IgnoreList

end LintRunner
