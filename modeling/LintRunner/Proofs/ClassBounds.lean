import LintRunner.Proofs.Fnmatch

/-!
# Where the classes of a glob begin and end

A pattern is spelled out in pieces, each a character by itself or a whole class,
and the glob is cut into pieces again by rules of its own. The two agree on every
class except one: in `[^]` a pattern has a class with one member, and a glob has
the beginning of a longer one. Without such a class no brace is the mark of a
group, every class is closed, and only a range the wrong way round keeps the glob
from being read.
-/

namespace LintRunner

/-- A piece of a glob: a character by itself, or a class with what stands between
its `[` and its `]`. -/
inductive Piece
  | char (c : Char)
  | cls (inner : List Char)
deriving DecidableEq, Repr

def Piece.text : Piece → List Char
  | .char c => [c]
  | .cls inner => '[' :: (inner ++ [']'])

namespace Wildcard

/-- The pieces that a pattern is spelled out in, behind `copied` characters of a
class already taken. -/
def piecesFrom (copied : Nat) : List Char → List Piece
  | [] => []
  | c :: rest =>
    match copied with
    | copied + 1 => piecesFrom copied rest
    | 0 =>
      if c == '\x7b' || c == '\x7d' then .cls [c] :: piecesFrom 0 rest
      else if c == '[' then
        match classLength rest with
        | some length => .cls (rest.take (length - 1)) :: piecesFrom length rest
        | none => .cls ['['] :: piecesFrom 0 rest
      else .char c :: piecesFrom 0 rest

def pieces (pattern : List Char) : List Piece :=
  piecesFrom 0 pattern

end Wildcard

namespace Glob

/-- How many characters behind a `[` belong to its class by the rules of globs. A
`!` or a `^` is the sign of the class, the first member may be any character, and
the next `]` closes the class. -/
def classLength (rest : List Char) : Option Nat :=
  let sign := if rest.head? == some '!' || rest.head? == some '^' then 1 else 0
  match rest.drop sign with
  | [] => none
  | _ :: others => (others.findIdx? (· == ']')).map (sign + 2 + ·)

/-- The pieces of a glob behind `skip` characters of a class already read. After
one class that nothing closes every `[` is a character by itself. -/
def piecesFrom (skip : Nat) (classes : Bool) : List Char → List Piece
  | [] => []
  | c :: rest =>
    match skip with
    | skip + 1 => piecesFrom skip classes rest
    | 0 =>
      if classes && c == '[' then
        match classLength rest with
        | some length => .cls (rest.take (length - 1)) :: piecesFrom length classes rest
        | none => .char c :: piecesFrom 0 false rest
      else .char c :: piecesFrom 0 classes rest

def pieces (glob : List Char) : List Piece :=
  piecesFrom 0 true glob

/-! ## The pieces are read one by one -/

def charGlyph : Char → Glyph
  | '?' => .anyOne
  | '*' => .star
  | '\x7b' => .openGroup
  | '\x7d' => .closeGroup
  | ',' => .comma
  | c => .char c

/-- A glyph is read from each piece, up to the first class with a range the wrong
way round. -/
inductive ReadAs : List Piece → List Glyph → Prop
  | nil : ReadAs [] []
  | reversed {first last : Char} (piece : Piece) (pieces : List Piece) :
      last < first → ReadAs (piece :: pieces) [.broken (.reversedRange first last)]
  | char (c : Char) {pieces : List Piece} {glyphs : List Glyph} :
      ReadAs pieces glyphs → ReadAs (.char c :: pieces) (charGlyph c :: glyphs)
  | cls (inner : List Char) (negated : Bool) (members : List Span) {pieces : List Piece}
      {glyphs : List Glyph} :
      ReadAs pieces glyphs → ReadAs (.cls inner :: pieces) (.cls negated members :: glyphs)

/-- Reading the members of a class comes to a range the wrong way round, or takes
everything up to the next `]`. -/
def ReadsToClose (taken : Nat) (text : List Char)
    (read : Except Fault (Option (List Span × Nat))) : Prop :=
  (∃ first last, last < first ∧ read = .error (.reversedRange first last)) ∨
    ∃ members, read = .ok ((text.findIdx? (· == ']')).map fun i => (members, taken + i + 1))

namespace ReadsToClose

variable {taken : Nat} {c : Char} {text : List Char}
  {read : Except Fault (Option (List Span × Nat))}

theorem close (hc : (c == ']') = true) (members : List Span) :
    ReadsToClose taken (c :: text) (.ok (some (members, taken + 1))) :=
  Or.inr ⟨members, by simp [List.findIdx?_cons, hc]⟩

theorem further (hc : ¬ (c == ']') = true) (h : ReadsToClose (taken + 1) text read) :
    ReadsToClose taken (c :: text) read := by
  refine h.imp id ?_
  rintro ⟨members, rfl⟩
  refine ⟨members, ?_⟩
  rw [List.findIdx?_cons, if_neg hc, Option.map_map]
  simp only [Function.comp_def, Nat.add_assoc, Nat.add_comm 1]

end ReadsToClose

theorem readMembers_readsToClose {place : ClassPlace} (hplace : place ≠ .first)
    (before : List Span) (taken : Nat) (text : List Char) :
    ReadsToClose taken text (readMembers place before taken text) := by
  fun_induction readMembers place before taken text
  case case1 => exact Or.inr ⟨[], rfl⟩
  case case2 => exact absurd rfl hplace
  -- behind a dash that may join two characters
  case case3 hclose => exact .close hclose _
  case case4 a last _ _ hreversed => exact Or.inl ⟨a, _, hreversed, rfl⟩
  case case5 hopen _ ih => exact .further hopen (ih nofun)
  -- behind a member
  case case6 hclose _ _ => exact .close hclose _
  case case7 hopen _ _ _ ih => exact .further hopen (ih nofun)
  case case8 hopen _ _ _ ih => exact .further hopen (ih nofun)

/-- The reader finds the class that the rules give, unless a range in it is the
wrong way round. -/
theorem readClass_eq (rest : List Char) :
    (∃ first last, last < first ∧ readClass rest = .error (.reversedRange first last)) ∨
      ∃ negated members,
        readClass rest = .ok ((classLength rest).map fun n => (.cls negated members, n)) := by
  unfold readClass classLength
  generalize (rest.head? == some '!' || rest.head? == some '^') = negated
  cases hrest : rest.drop (if negated = true then 1 else 0) with
  | nil => exact Or.inr ⟨negated, [], by simp [hrest, readMembers]⟩
  | cons first others =>
      simp only [hrest, readMembers]
      have hbehind : ClassPlace.after ≠ .first := by
        intro h
        cases h
      obtain ⟨first, last, hlt, hread⟩ | ⟨members, hread⟩ :=
        readMembers_readsToClose hbehind [⟨first, first⟩]
          ((if negated = true then 1 else 0) + 1) others
      · exact Or.inl ⟨first, last, hlt, by rw [hread]⟩
      · refine Or.inr ⟨negated, members, ?_⟩
        rw [hread]
        cases others.findIdx? (· == ']') with
        | none => rfl
        | some i =>
            simp only [Option.map_some]
            congr 3
            omega

theorem readFrom_char {c : Char} (hc : c ≠ '[') (classes : Bool) (rest : List Char) :
    readFrom Wildcard.dialect 0 classes (c :: rest) =
      charGlyph c :: readFrom Wildcard.dialect 0 classes rest := by
  by_cases hmark : c = '?' ∨ c = '*' ∨ c = '\x7b' ∨ c = '\x7d' ∨ c = ',' ∨ c = '\\'
  · rcases hmark with rfl | rfl | rfl | rfl | rfl | rfl <;> rfl
  · simp only [not_or] at hmark
    obtain ⟨hone, hstar, hopen, hclose, hcomma, hescape⟩ := hmark
    rw [readFrom, charGlyph]
    all_goals assumption

/-- The reader takes the pieces of a glob one by one. -/
theorem readFrom_pieces (text : List Char) : ∀ (skip : Nat) (classes : Bool),
    ReadAs (piecesFrom skip classes text) (readFrom Wildcard.dialect skip classes text) := by
  induction text with
  | nil => exact fun _ _ => .nil
  | cons c rest ih =>
      intro skip classes
      cases skip with
      | succ skip => exact ih skip classes
      | zero =>
          by_cases hc : c = '['
          · subst hc
            cases classes with
            | false => exact .char '[' (ih 0 false)
            | true =>
                simp only [piecesFrom, readFrom, Bool.true_and, beq_self_eq_true, if_true,
                  Bool.not_true, Bool.false_eq_true, if_false]
                obtain ⟨first, last, hlt, hread⟩ | ⟨negated, members, hread⟩ := readClass_eq rest
                · rw [hread]
                  cases classLength rest with
                  | none => exact .reversed _ _ hlt
                  | some length => exact .reversed _ _ hlt
                · rw [hread]
                  cases classLength rest with
                  | none => exact .char '[' (ih 0 false)
                  | some length => exact .cls _ negated members (ih length true)
          · rw [readFrom_char hc, piecesFrom, beq_eq_false_iff_ne.mpr hc, Bool.and_false]
            exact .char c (ih 0 classes)

theorem glyphs_readAs (glob : List Char) :
    ReadAs (pieces glob) (glyphs Wildcard.dialect glob) :=
  readFrom_pieces glob 0 true

/-! ## What is read from pieces without marks -/

namespace ReadAs

variable {pieces : List Piece} {glyphs : List Glyph}

/-- A fault comes from a range the wrong way round. -/
theorem reversed_of_broken {fault : Fault} (h : ReadAs pieces glyphs)
    (hfault : .broken fault ∈ glyphs) :
    ∃ first last, last < first ∧ fault = .reversedRange first last := by
  induction h with
  | nil => cases hfault
  | @reversed first last _ _ hlt =>
      obtain rfl : fault = .reversedRange first last := by simpa using hfault
      exact ⟨first, last, hlt, rfl⟩
  | char c _ ih =>
      refine ih ((List.mem_cons.mp hfault).resolve_left ?_)
      unfold charGlyph
      split <;> nofun
  | cls inner negated members _ ih =>
      exact ih ((List.mem_cons.mp hfault).resolve_left nofun)

end ReadAs

/-! ## Pieces that are read as they are spelled -/

theorem piecesFrom_skipped (classes : Bool) (front rest : List Char) :
    piecesFrom front.length classes (front ++ rest) = piecesFrom 0 classes rest := by
  induction front with
  | nil => rfl
  | cons c front ih => exact ih

theorem pieces_char {c : Char} (hc : c ≠ '[') (rest : List Char) :
    pieces (c :: rest) = .char c :: pieces rest := by
  rw [pieces, piecesFrom, beq_eq_false_iff_ne.mpr hc]
  rfl

theorem pieces_class {inner tail : List Char}
    (h : classLength (inner ++ ']' :: tail) = some (inner.length + 1)) :
    pieces ('[' :: (inner ++ ']' :: tail)) = .cls inner :: pieces tail := by
  have hfront : inner ++ ']' :: tail = (inner ++ [']']) ++ tail := by simp
  have hskip := piecesFrom_skipped true (inner ++ [']']) tail
  rw [List.length_append, List.length_singleton, ← hfront] at hskip
  rw [pieces, piecesFrom]
  simp only [Bool.true_and, beq_self_eq_true, if_true, h, hskip, Nat.add_sub_cancel,
    List.take_left]
  rfl

theorem findIdx?_close_append {others : List Char} (h : ']' ∉ others) (tail : List Char) :
    (others ++ ']' :: tail).findIdx? (· == ']') = some others.length := by
  have hnone : others.findIdx? (· == ']') = none := by
    rw [List.findIdx?_eq_none_iff]
    intro c hc
    rw [beq_eq_false_iff_ne]
    rintro rfl
    exact h hc
  rw [List.findIdx?_append, hnone]
  simp [List.findIdx?_cons]

end Glob

/-- Wherever it stands, the piece is read as itself: a character opens no class
and marks no group, and a class ends at its own `]`. -/
def Piece.Tight : Piece → Prop
  | .char c => c ≠ '[' ∧ c ≠ '\x7b' ∧ c ≠ '\x7d'
  | .cls inner => ∀ tail, Glob.classLength (inner ++ ']' :: tail) = some (inner.length + 1)

/-- The class that a pattern ends behind the `^`, and a glob does not. -/
def Piece.bareCaret : Piece :=
  .cls ['^']

namespace Piece

theorem tight_unsigned {first : Char} {others : List Char} (hbang : first ≠ '!')
    (hcaret : first ≠ '^') (h : ']' ∉ others) : (cls (first :: others)).Tight := by
  intro tail
  simp [Glob.classLength, hbang, hcaret, Glob.findIdx?_close_append h]
  omega

theorem tight_signed {sign first : Char} {others : List Char} (hsign : sign = '!' ∨ sign = '^')
    (h : ']' ∉ others) : (cls (sign :: first :: others)).Tight := by
  intro tail
  rcases hsign with rfl | rfl
  all_goals
    simp [Glob.classLength, Glob.findIdx?_close_append h]
    omega

/-- What a pattern has as a class is read as this class, unless it is `[^]`. -/
theorem tight_of_openClass {rest more : List Char} {e : Fnmatch.Element}
    (hopen : Fnmatch.openClass rest = some (e, more)) :
    ∃ inner, rest = inner ++ ']' :: more ∧
      Wildcard.classLength rest = some (inner.length + 1) ∧
      (cls inner = bareCaret ∨ (cls inner).Tight) := by
  obtain ⟨negated, first, others, -, hrest, hclose, hbang⟩ := Fnmatch.openClass_spec hopen
  have hlength : ∀ inner : List Char, rest = inner ++ ']' :: more →
      Wildcard.classLength rest = some (inner.length + 1) := by
    rintro inner rfl
    rw [Fnmatch.classLength_eq, hopen]
    simp only [Option.map_some, List.length_append, List.length_cons, Option.some.injEq]
    omega
  cases negated with
  | true =>
      have hinner : rest = '!' :: first :: others ++ ']' :: more := by
        simp [hrest, Fnmatch.written]
      exact ⟨_, hinner, hlength _ hinner, Or.inr (tight_signed (Or.inl rfl) hclose)⟩
  | false =>
      have hinner : rest = first :: others ++ ']' :: more := by
        simp [hrest, Fnmatch.written]
      refine ⟨_, hinner, hlength _ hinner, ?_⟩
      by_cases hcaret : first = '^'
      · subst hcaret
        cases others with
        | nil => exact Or.inl rfl
        | cons second others =>
            exact Or.inr (tight_signed (Or.inr rfl) fun h => hclose (List.mem_cons_of_mem _ h))
      · exact Or.inr (tight_unsigned (hbang rfl) hcaret hclose)

end Piece

namespace Wildcard

theorem piecesFrom_copied (front rest : List Char) :
    piecesFrom front.length (front ++ rest) = piecesFrom 0 rest := by
  induction front with
  | nil => rfl
  | cons c front ih => exact ih

/-- One piece is taken from a pattern at a time. -/
theorem pieces_cons (c : Char) (rest : List Char) :
    ∃ piece more, pieces (c :: rest) = piece :: pieces more ∧
      toGlob (c :: rest) = piece.text ++ toGlob more ∧
      (piece = .bareCaret ∨ piece.Tight) ∧ more.length ≤ rest.length := by
  by_cases hclass : c = '['
  · subst hclass
    cases hopen : Fnmatch.openClass rest with
    | none =>
        have hlength : classLength rest = none := by rw [Fnmatch.classLength_eq, hopen]; rfl
        refine ⟨.cls ['['], rest, ?_, ?_, Or.inr ?_, Nat.le_refl _⟩
        · rw [pieces, piecesFrom, hlength]
          rfl
        · rw [toGlob, spellFrom, hlength]
          rfl
        · exact Piece.tight_unsigned (by decide) (by decide) List.not_mem_nil
    | some opened =>
        obtain ⟨e, more⟩ := opened
        obtain ⟨inner, rfl, hlength, htight⟩ := Piece.tight_of_openClass hopen
        have hfront : inner ++ ']' :: more = (inner ++ [']']) ++ more := by simp
        have hcount : (inner ++ [']']).length = inner.length + 1 := by simp
        refine ⟨.cls inner, more, ?_, ?_, htight, by simp; omega⟩
        · have hskip := piecesFrom_copied (inner ++ [']']) more
          rw [hcount, ← hfront] at hskip
          rw [pieces, piecesFrom, hlength]
          simp [hskip, pieces]
        · have hcopied := Fnmatch.spellFrom_copied (inner ++ [']']) more
          rw [hcount, ← hfront] at hcopied
          rw [toGlob, spellFrom, hlength]
          simp [hcopied, Piece.text, toGlob]
  · by_cases hbrace : c = '\x7b' ∨ c = '\x7d'
    · refine ⟨.cls [c], rest, ?_, ?_, Or.inr ?_, Nat.le_refl _⟩
      · rw [pieces, piecesFrom, if_pos (by simpa using hbrace)]
        rfl
      · rw [toGlob, spellFrom, if_pos (by simpa using hbrace)]
        rfl
      · refine Piece.tight_unsigned ?_ ?_ List.not_mem_nil
        · rcases hbrace with rfl | rfl <;> decide
        · rcases hbrace with rfl | rfl <;> decide
    · refine ⟨.char c, rest, ?_, ?_, Or.inr ⟨hclass, not_or.mp hbrace⟩, Nat.le_refl _⟩
      · rw [pieces, piecesFrom, if_neg (by simpa using hbrace), if_neg (by simpa using hclass)]
        rfl
      · rw [toGlob, spellFrom, if_neg (by simpa using hbrace), if_neg (by simpa using hclass)]
        rfl

/-- The pieces are spelled out one behind the other, and all but `[^]` are read as
they are spelled. -/
theorem pieces_spec (pattern : List Char) :
    (pieces pattern).flatMap Piece.text = toGlob pattern ∧
      ∀ piece ∈ pieces pattern, piece = .bareCaret ∨ piece.Tight := by
  induction hlength : pattern.length using Nat.strongRecOn generalizing pattern with
  | ind n ih =>
      cases pattern with
      | nil => exact ⟨rfl, nofun⟩
      | cons c rest =>
          obtain ⟨piece, more, hpieces, hglob, hpiece, hmore⟩ := pieces_cons c rest
          obtain ⟨htext, htight⟩ := ih more.length (hlength ▸ Nat.lt_succ_of_le hmore) more rfl
          rw [hpieces, hglob, List.flatMap_cons, htext]
          exact ⟨rfl, List.forall_mem_cons.mpr ⟨hpiece, htight⟩⟩

end Wildcard

namespace Glob

/-- A glob takes the `]` of `[^]` for the first member of a class, and reads on. -/
theorem pieces_bareCaret_ne (tail : List Char) (ps : List Piece) :
    pieces (Piece.bareCaret.text ++ tail) ≠ .bareCaret :: ps := by
  have htext : Piece.bareCaret.text ++ tail = '[' :: '^' :: ']' :: tail := rfl
  have hlength : classLength ('^' :: ']' :: tail) = (tail.findIdx? (· == ']')).map (3 + ·) := rfl
  rw [htext, pieces, piecesFrom, hlength]
  cases tail.findIdx? (· == ']') with
  | none => nofun
  | some i =>
      have htake : ('^' :: ']' :: tail).take (3 + i - 1) = '^' :: ']' :: tail.take i := by
        rw [show 3 + i - 1 = i + 2 by omega]
        rfl
      intro h
      have hinner := Piece.cls.inj (List.cons.inj h).1
      rw [htake] at hinner
      cases hinner

/-- Spelled pieces are read again piece by piece exactly if `[^]` is not among them. -/
theorem pieces_flatMap_iff {ps : List Piece} (h : ∀ piece ∈ ps, piece = .bareCaret ∨ piece.Tight) :
    pieces (ps.flatMap Piece.text) = ps ↔ .bareCaret ∉ ps := by
  induction ps with
  | nil => exact iff_of_true rfl List.not_mem_nil
  | cons piece ps ih =>
      obtain ⟨hpiece, hrest⟩ := List.forall_mem_cons.mp h
      rw [List.flatMap_cons]
      by_cases hcaret : piece = .bareCaret
      · subst hcaret
        exact iff_of_false (pieces_bareCaret_ne _ _) (not_not.mpr List.mem_cons_self)
      · have htight := hpiece.resolve_left hcaret
        have hstep : pieces (piece.text ++ ps.flatMap Piece.text) =
            piece :: pieces (ps.flatMap Piece.text) := by
          cases piece with
          | char c => exact pieces_char htight.1 _
          | cls inner =>
              have htext : (Piece.cls inner).text ++ ps.flatMap Piece.text =
                  '[' :: (inner ++ ']' :: ps.flatMap Piece.text) := by
                simp [Piece.text]
              rw [htext, pieces_class (htight _)]
        rw [hstep, List.cons_inj_right, ih hrest, List.mem_cons, not_or]
        exact (and_iff_right (Ne.symm hcaret)).symm

/-! ## What keeps a glob from being read -/

/-- Without marks of groups a glob is read unless a glyph of it is a fault. -/
theorem broken_mem_of_readBranch {groups : List OpenGroup} {here : Branch} {afterSlash : Bool}
    {glyphs : List Glyph} {fault : Fault} (hgroups : groups = [])
    (hmarks : ∀ g ∈ glyphs, g ≠ .openGroup ∧ g ≠ .closeGroup)
    (h : readBranch groups here afterSlash glyphs = .error fault) : .broken fault ∈ glyphs := by
  fun_induction readBranch groups here afterSlash glyphs
  -- the end of the glyphs, and a fault
  case case1 => cases h
  case case2 hopen => simp [hgroups] at hopen
  case case3 =>
    cases h
    exact List.mem_cons_self
  -- the marks of groups
  case case14 => exact absurd rfl (hmarks _ List.mem_cons_self).1
  case case15 | case16 => exact absurd rfl (hmarks _ List.mem_cons_self).2
  case case18 => cases hgroups
  -- two stars, with a slash behind them and without
  case case4 ih | case5 ih | case6 ih =>
    have hrest := ih hgroups (fun g hg => hmarks g (by simp [hg])) h
    simp [hrest]
  case case7 ih | case8 ih | case9 ih =>
    have hrest := ih hgroups (fun g hg => hmarks g (by simp [hg])) h
    simp [hrest]
  -- everything else stands for itself
  case case10 ih | case11 ih | case12 ih | case13 ih =>
    exact List.mem_cons_of_mem _ (ih hgroups (fun g hg => hmarks g (List.mem_cons_of_mem _ hg)) h)
  case case17 ih =>
    exact List.mem_cons_of_mem _ (ih rfl (fun g hg => hmarks g (List.mem_cons_of_mem _ hg)) h)

theorem charGlyph_ne_mark {c : Char} (h : (Piece.char c).Tight) :
    charGlyph c ≠ .openGroup ∧ charGlyph c ≠ .closeGroup ∧ charGlyph c ≠ .char '[' := by
  obtain ⟨hclass, hopen, hclose⟩ := h
  unfold charGlyph
  split
  case h_3 => exact absurd rfl hopen
  case h_4 => exact absurd rfl hclose
  case h_6 => simpa using hclass
  all_goals decide

/-- No mark of a group and no lone `[` is read from pieces like those of a pattern. -/
theorem ReadAs.unmarked {ps : List Piece} {glyphs : List Glyph} (h : ReadAs ps glyphs)
    (htight : ∀ piece ∈ ps, piece = .bareCaret ∨ piece.Tight) :
    ∀ g ∈ glyphs, g ≠ .openGroup ∧ g ≠ .closeGroup ∧ g ≠ .char '[' := by
  induction h with
  | nil => exact nofun
  | reversed => exact List.forall_mem_singleton.mpr ⟨nofun, nofun, nofun⟩
  | char c _ ih =>
      obtain ⟨hc, hrest⟩ := List.forall_mem_cons.mp htight
      exact List.forall_mem_cons.mpr ⟨charGlyph_ne_mark (hc.resolve_left nofun), ih hrest⟩
  | cls inner negated members _ ih =>
      exact List.forall_mem_cons.mpr
        ⟨⟨nofun, nofun, nofun⟩, ih (List.forall_mem_cons.mp htight).2⟩

end Glob

namespace Wildcard

/-- The pieces that a pattern is spelled out in are the pieces of the glob exactly
if `[^]` is not among them. Then each of them is read as one glyph, up to the first
class with a range the wrong way round: no brace is the mark of a group, no `[` is
left open, and nothing but such a range keeps the glob from being read. -/
theorem pieces_toGlob_iff (pattern : List Char) :
    (pieces pattern).flatMap Piece.text = toGlob pattern ∧
    (Glob.pieces (toGlob pattern) = pieces pattern ↔ .cls ['^'] ∉ pieces pattern) ∧
    (.cls ['^'] ∉ pieces pattern →
      Glob.ReadAs (pieces pattern) (Glob.glyphs dialect (toGlob pattern)) ∧
      (∀ g ∈ Glob.glyphs dialect (toGlob pattern),
        g ≠ .openGroup ∧ g ≠ .closeGroup ∧ g ≠ .char '[') ∧
      ∀ fault, Glob.ofText dialect (toGlob pattern) = .error fault →
        ∃ first last, last < first ∧ fault = .reversedRange first last) := by
  obtain ⟨htext, htight⟩ := pieces_spec pattern
  have hiff : Glob.pieces (toGlob pattern) = pieces pattern ↔ .cls ['^'] ∉ pieces pattern := by
    rw [← htext]
    exact Glob.pieces_flatMap_iff htight
  refine ⟨htext, hiff, fun hcaret => ?_⟩
  have hread : Glob.ReadAs (pieces pattern) (Glob.glyphs dialect (toGlob pattern)) := by
    rw [← hiff.mpr hcaret]
    exact Glob.glyphs_readAs _
  have hmarks := hread.unmarked htight
  refine ⟨hread, hmarks, fun fault hfault => ?_⟩
  have hbranch : Glob.readBranch [] {} false (Glob.glyphs dialect (toGlob pattern)) =
      .error fault := by
    rw [Glob.ofText] at hfault
    cases hbranch : Glob.readBranch [] {} false (Glob.glyphs dialect (toGlob pattern)) with
    | ok b => rw [hbranch] at hfault; cases hfault
    | error fault' => rw [hbranch] at hfault; cases hfault; rfl
  exact hread.reversed_of_broken (Glob.broken_mem_of_readBranch rfl
    (fun g hg => ⟨(hmarks g hg).1, (hmarks g hg).2.1⟩) hbranch)

/-- A class with a `]` in it, a brace, a class behind a `^`, and a `[` that nothing
closes. -/
def nestedClasses : List Char :=
  "[!]a]\x7b[^x][\x7b".toList

theorem pieces_nestedClasses :
    Glob.pieces (toGlob nestedClasses) = [.cls ['!', ']', 'a'], .cls ['\x7b'], .cls ['^', 'x'],
        .cls ['['], .cls ['\x7b']] ∧
      .openGroup ∉ Glob.glyphs dialect (toGlob nestedClasses) ∧
      ∀ fault, Glob.ofText dialect (toGlob nestedClasses) = .error fault →
        ∃ first last, last < first ∧ fault = .reversedRange first last := by
  obtain ⟨-, hiff, hread⟩ := pieces_toGlob_iff nestedClasses
  have hpieces : pieces nestedClasses = [.cls ['!', ']', 'a'], .cls ['\x7b'], .cls ['^', 'x'],
      .cls ['['], .cls ['\x7b']] := by
    decide +kernel
  have hcaret : .cls ['^'] ∉ pieces nestedClasses := by
    rw [hpieces]
    decide
  obtain ⟨-, hmarks, hfault⟩ := hread hcaret
  exact ⟨(hiff.mpr hcaret).trans hpieces, fun h => (hmarks _ h).1 rfl, hfault⟩

/-- The class `[^]` in front of another one: the glob has a longer class, and behind
it a group. -/
theorem pieces_of_bareCaret :
    pieces "[^][]\x7ba,b\x7d]".toList =
        [.cls ['^'], .cls [']', '\x7b', 'a', ',', 'b', '\x7d']] ∧
      Glob.pieces (toGlob "[^][]\x7ba,b\x7d]".toList) = [.cls ['^', ']', '['], .char '\x7b',
        .char 'a', .char ',', .char 'b', .char '\x7d', .char ']'] ∧
      .openGroup ∈ Glob.glyphs dialect (toGlob "[^][]\x7ba,b\x7d]".toList) ∧
      (IgnoreList.ofPatterns ["[^][]\x7ba,b\x7d]"]).isIgnored "xa]" = true ∧
      Glob.ofText dialect (toGlob "[^][]\x7b]".toList) = .error .unclosedGroup := by
  decide +kernel

end Wildcard

end LintRunner
