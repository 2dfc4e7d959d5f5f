import LintRunner.Proofs.ClassBounds

/-!
# Spelling out a glob once more

By its own class rule a pattern comes apart into whole classes and characters by
themselves. Spelling it out puts brackets around the characters by themselves that
could be taken for a mark, and leaves the other parts alone. The glob comes apart at
the same places again, and has no such character left: spelled out once more it stays
as it is.
-/

namespace LintRunner

namespace Wildcard

/-- The parts of a pattern behind `copied` characters of a class already taken. A `[`
that nothing closes is a character by itself. -/
def partsFrom (copied : Nat) : List Char → List Piece
  | [] => []
  | c :: rest =>
    match copied with
    | copied + 1 => partsFrom copied rest
    | 0 =>
      if c == '[' then
        match classLength rest with
        | some length => .cls (rest.take (length - 1)) :: partsFrom length rest
        | none => .char c :: partsFrom 0 rest
      else .char c :: partsFrom 0 rest

def parts (pattern : List Char) : List Piece :=
  partsFrom 0 pattern

/-- The characters that are spelled as classes where they stand by themselves. -/
def marks : List Char :=
  ['[', '\x7b', '\x7d']

end Wildcard

namespace Piece

/-- How a part of a pattern is spelled. -/
def spelled : Piece → Piece
  | .char c => if c ∈ Wildcard.marks then .cls [c] else .char c
  | .cls inner => .cls inner

/-- A character by itself is no mark. In a class stand a `!` or nothing, then any first
character, be it a `]`, and no further `]`. -/
def Bracketed : Piece → Prop
  | .char c => c ∉ Wildcard.marks
  | .cls inner => ∃ sign first others, inner = sign ++ first :: others ∧
      (sign = ['!'] ∨ sign = [] ∧ first ≠ '!') ∧ ']' ∉ others

theorem spelled_of_bracketed {piece : Piece} (h : piece.Bracketed) : piece.spelled = piece := by
  cases piece with
  | char c => exact if_neg h
  | cls inner => rfl

theorem bracketed_single {c : Char} (hc : c ∈ Wildcard.marks) : (cls [c]).Bracketed := by
  refine ⟨[], c, [], rfl, Or.inr ⟨rfl, ?_⟩, List.not_mem_nil⟩
  rintro rfl
  exact absurd hc (by decide)

theorem bracketed_spelled_char (c : Char) : (char c).spelled.Bracketed := by
  rw [spelled]
  split
  · rename_i hc
    exact bracketed_single hc
  · rename_i hc
    exact hc

end Piece

namespace Wildcard

/-! ## Where a class ends -/

theorem classBody_append {others : List Char} (h : ']' ∉ others) (first : Char)
    (tail : List Char) :
    Fnmatch.classBody (first :: others ++ ']' :: tail) = some (first :: others, tail) := by
  have hclose : Fnmatch.upToClose (others ++ ']' :: tail) = some (others, tail) := by
    induction others with
    | nil => rfl
    | cons c others ih =>
        rw [List.mem_cons, not_or] at h
        rw [List.cons_append, Fnmatch.upToClose, if_neg (Ne.symm h.1), ih h.2]
        rfl
  rw [List.cons_append, Fnmatch.classBody, hclose]
  rfl

/-- Whatever follows, a bracketed class ends at its own `]`. -/
theorem classLength_of_bracketed {inner : List Char} (h : (Piece.cls inner).Bracketed)
    (tail : List Char) : classLength (inner ++ ']' :: tail) = some (inner.length + 1) := by
  obtain ⟨sign, first, others, rfl, hsign, hclose⟩ := h
  have hbody := classBody_append hclose first tail
  rcases hsign with rfl | ⟨rfl, hbang⟩
  · have hrest : ['!'] ++ first :: others ++ ']' :: tail =
        '!' :: (first :: others ++ ']' :: tail) := rfl
    rw [hrest, Fnmatch.classLength_bang, hbody]
    rfl
  · have hunsigned : (first :: others ++ ']' :: tail).head? ≠ some '!' := by simpa using hbang
    rw [List.nil_append, Fnmatch.classLength_of_ne_bang hunsigned, hbody]
    rfl

/-- Every class that is closed is a bracketed one. -/
theorem bracketed_of_classLength {rest : List Char} {length : Nat}
    (h : classLength rest = some length) :
    ∃ inner more, rest = inner ++ ']' :: more ∧ (Piece.cls inner).Bracketed := by
  rw [Fnmatch.classLength_eq] at h
  obtain ⟨⟨e, more⟩, hopen, -⟩ := Option.map_eq_some_iff.mp h
  obtain ⟨negated, first, others, -, rfl, hclose, hbang⟩ := Fnmatch.openClass_spec hopen
  cases negated with
  | true =>
      exact ⟨'!' :: first :: others, more, by simp [Fnmatch.written],
        ['!'], first, others, rfl, Or.inl rfl, hclose⟩
  | false =>
      exact ⟨first :: others, more, by simp [Fnmatch.written],
        [], first, others, rfl, Or.inr ⟨rfl, hbang rfl⟩, hclose⟩

/-! ## The parts of a pattern -/

theorem partsFrom_copied (front rest : List Char) :
    partsFrom front.length (front ++ rest) = partsFrom 0 rest := by
  induction front with
  | nil => rfl
  | cons c front ih => exact ih

theorem parts_char {c : Char} (hc : c ≠ '[') (rest : List Char) :
    parts (c :: rest) = .char c :: parts rest := by
  rw [parts, partsFrom, if_neg (by simpa using hc)]
  rfl

theorem parts_class {inner : List Char} (h : (Piece.cls inner).Bracketed) (tail : List Char) :
    parts ((Piece.cls inner).text ++ tail) = .cls inner :: parts tail := by
  have htext : (Piece.cls inner).text ++ tail = '[' :: (inner ++ ']' :: tail) := by
    simp [Piece.text]
  have hskip := partsFrom_copied (inner ++ [']']) tail
  rw [List.length_append, List.length_singleton, List.append_assoc] at hskip
  rw [htext, parts, partsFrom, if_pos (beq_self_eq_true _), classLength_of_bracketed h tail]
  simp only [Nat.add_sub_cancel, List.take_left]
  exact congrArg (.cls inner :: ·) hskip

theorem partsFrom_spec (copied : Nat) (pattern : List Char) :
    (partsFrom copied pattern).flatMap Piece.text = pattern.drop copied ∧
      ∀ part ∈ partsFrom copied pattern, part.spelled.Bracketed := by
  fun_induction partsFrom copied pattern
  case case1 => exact ⟨List.drop_nil.symm, nofun⟩
  case case2 ih => exact ih
  -- a class, which the recursion leaves behind by its length only
  case case3 c rest hc length hlength ih =>
    obtain rfl : c = '[' := by simpa using hc
    obtain ⟨inner, more, rfl, hinner⟩ := bracketed_of_classLength hlength
    obtain rfl : inner.length + 1 = length :=
      Option.some.inj ((classLength_of_bracketed hinner more).symm.trans hlength)
    obtain ⟨htext, hparts⟩ := ih
    rw [Nat.add_sub_cancel, List.take_left]
    refine ⟨?_, List.forall_mem_cons.mpr ⟨hinner, hparts⟩⟩
    rw [List.flatMap_cons, htext]
    simp [Piece.text]
  -- a character by itself
  case case4 ih | case5 ih =>
    obtain ⟨htext, hparts⟩ := ih
    exact ⟨congrArg (_ :: ·) htext,
      List.forall_mem_cons.mpr ⟨Piece.bracketed_spelled_char _, hparts⟩⟩

/-- The parts make up the pattern, and each is bracketed once it is spelled. -/
theorem parts_spec (pattern : List Char) :
    (parts pattern).flatMap Piece.text = pattern ∧
      ∀ part ∈ parts pattern, part.spelled.Bracketed :=
  partsFrom_spec 0 pattern

/-- Bracketed pieces that are put together come apart again at the same places. -/
theorem parts_flatMap_text {ps : List Piece} (h : ∀ piece ∈ ps, piece.Bracketed) :
    parts (ps.flatMap Piece.text) = ps := by
  induction ps with
  | nil => rfl
  | cons piece ps ih =>
      obtain ⟨hpiece, hrest⟩ := List.forall_mem_cons.mp h
      rw [List.flatMap_cons]
      cases piece with
      | char c =>
          have hc : c ≠ '[' := by
            rintro rfl
            exact hpiece (by decide)
          exact (parts_char hc _).trans (congrArg (.char c :: ·) (ih hrest))
      | cls inner => rw [parts_class hpiece, ih hrest]

/-! ## The parts of a glob -/

theorem piecesFrom_eq (copied : Nat) (pattern : List Char) :
    piecesFrom copied pattern = (partsFrom copied pattern).map Piece.spelled := by
  fun_induction partsFrom copied pattern
  case case1 => rfl
  case case2 ih => exact ih
  -- a class, and a `[` that nothing closes
  case case3 c rest hc length hlength ih =>
    obtain rfl : c = '[' := by simpa using hc
    rw [List.map_cons, ← ih, piecesFrom, hlength]
    rfl
  case case4 c rest hc hlength ih =>
    obtain rfl : c = '[' := by simpa using hc
    rw [List.map_cons, ← ih, piecesFrom, hlength]
    rfl
  case case5 c rest hc ih =>
    have hmark : c ∈ marks ↔ (c == '\x7b' || c == '\x7d') = true := by
      simp only [marks, List.mem_cons, List.not_mem_nil, or_false, Bool.or_eq_true, beq_iff_eq]
      exact or_iff_right (by simpa using hc)
    rw [List.map_cons, ← ih, piecesFrom, if_neg hc, Piece.spelled]
    simp only [hmark]
    split
    · rfl
    · rfl

/-- A pattern is spelled out part by part. -/
theorem toGlob_eq (pattern : List Char) :
    toGlob pattern = ((parts pattern).map Piece.spelled).flatMap Piece.text := by
  rw [← (pieces_spec pattern).1, pieces, piecesFrom_eq, parts]

/-- The parts of the glob are those of the pattern, spelled. -/
theorem parts_toGlob (pattern : List Char) :
    parts (toGlob pattern) = (parts pattern).map Piece.spelled := by
  rw [toGlob_eq]
  exact parts_flatMap_text (List.forall_mem_map.mpr (parts_spec pattern).2)

theorem bracketed_of_mem_parts_toGlob {pattern : List Char} :
    ∀ part ∈ parts (toGlob pattern), part.Bracketed := by
  rw [parts_toGlob]
  exact List.forall_mem_map.mpr (parts_spec pattern).2

/-- The patterns that stay as they are when they are spelled out. -/
theorem toGlob_eq_self_iff (pattern : List Char) :
    toGlob pattern = pattern ↔ ∀ part ∈ parts pattern, part.Bracketed := by
  constructor
  · intro h
    rw [← h]
    exact bracketed_of_mem_parts_toGlob
  · intro h
    have hspelled : (parts pattern).map Piece.spelled = parts pattern := by
      refine (List.map_congr_left fun part hpart => ?_).trans (List.map_id _)
      exact Piece.spelled_of_bracketed (h part hpart)
    rw [toGlob_eq, hspelled, (parts_spec pattern).1]

/-- A glob that is spelled out once more stays as it is. By the class rule of patterns
it comes apart at the places where the pattern does, into bracketed pieces: every class
is closed, and neither a brace nor a `[` stands outside a class. -/
theorem toGlob_settles (pattern : List Char) :
    toGlob (toGlob pattern) = toGlob pattern ∧
    (parts (toGlob pattern)).flatMap Piece.text = toGlob pattern ∧
    (∀ part ∈ parts (toGlob pattern), part.Bracketed) ∧
    parts (toGlob pattern) = (parts pattern).map Piece.spelled :=
  ⟨(toGlob_eq_self_iff _).mpr bracketed_of_mem_parts_toGlob, (parts_spec _).1,
    bracketed_of_mem_parts_toGlob, parts_toGlob pattern⟩

/-- Spelled out, classes that were not there stand next to a `]` that closes nothing and a
`!` that is no sign. -/
def looseMarks : List Char :=
  "[]\x7b[!".toList

theorem parts_of_looseMarks :
    parts (toGlob looseMarks) =
        [.cls ['['], .char ']', .cls ['\x7b'], .cls ['['], .char '!'] ∧
      (Piece.cls ['\x7b']).Bracketed ∧ (Piece.char '!').Bracketed ∧
      toGlob (toGlob looseMarks) = toGlob looseMarks := by
  have hparts : parts (toGlob looseMarks) =
      [.cls ['['], .char ']', .cls ['\x7b'], .cls ['['], .char '!'] := by
    decide
  obtain ⟨hsettled, -, hbracketed, -⟩ := toGlob_settles looseMarks
  rw [hparts] at hbracketed
  exact ⟨hparts, hbracketed _ (by decide), hbracketed _ (by decide), hsettled⟩

end Wildcard

end LintRunner
