import LintRunner.Proofs.Fnmatch

/-!
# Patterns taken as text

A pattern that is no wildcard pattern is spelled once more, as a glob in which
every character with a meaning of its own stands in brackets, and only its own
text should match that glob. A backslash is put in no brackets, but globs of
texts are read with escapes: where the pattern has one, the glob goes apart from
it, and does not match the text of the pattern any more.
-/

namespace LintRunner.Glob

open Bytes (slash dot)

/-! ## Glyphs that write a character -/

/-- The glyph takes the character and nothing else. -/
def Glyph.Writes (g : Glyph) (c : Char) : Prop :=
  ∀ piece, g.Takes piece ↔ piece = Utf8.encode [c]

namespace Glyph.Writes

variable {g : Glyph} {c : Char}

theorem isPlain (h : g.Writes c) : g.isPlain = true := by
  have htakes : g.Takes (Utf8.encode [c]) := (h _).mpr rfl
  cases g with
  | openGroup => exact htakes.elim
  | closeGroup => exact htakes.elim
  | broken fault => exact htakes.elim
  | _ => rfl

theorem ne_star (h : g.Writes c) : g ≠ .star := by
  rintro rfl
  have hnone : [] = Utf8.encode [c] := (h []).mp trivial
  have hsome : [0] = Utf8.encode [c] := (h [0]).mp trivial
  cases hnone.trans hsome.symm

theorem cut_tokens_iff (h : g.Writes c) (piece : Bytes) :
    Cut Token.Takes g.tokens piece ↔ piece = Utf8.encode [c] :=
  (Glob.cut_tokens_iff h.isPlain piece).trans (h piece)

end Glyph.Writes

theorem readBranch_cons_of_writes {g : Glyph} {c : Char} (h : g.Writes c) (here : Branch)
    (afterSlash : Bool) (rest : List Glyph) :
    ∃ afterSlash', readBranch [] here afterSlash (g :: rest) =
      readBranch [] { here with tail := g.tokens.reverse ++ here.tail } afterSlash' rest := by
  have hplain := h.isPlain
  cases g with
  | char c' =>
      refine ⟨c' == '/', ?_⟩
      rw [readBranch, foldl_push_bytes]
      rfl
  | comma => exact ⟨false, by rw [readBranch]; rfl⟩
  | anyOne => exact ⟨false, by rw [readBranch]; rfl⟩
  | star => exact absurd rfl h.ne_star
  | cls negated members => exact ⟨false, by rw [readBranch]; rfl⟩
  | openGroup => cases hplain
  | closeGroup => cases hplain
  | broken fault => cases hplain

/-! ## What stands in front stays in front -/

/-- Everything that the second branch stands for begins with something that the
first one stands for. -/
def Branch.Extends (b b' : Branch) : Prop :=
  ∀ choice' ∈ b'.choices, ∃ choice ∈ b.choices, choice <+: choice'

namespace Branch.Extends

variable {b b' b'' : Branch}

theorem refl (b : Branch) : b.Extends b :=
  fun choice hchoice => ⟨choice, hchoice, List.prefix_refl _⟩

theorem trans (h : b.Extends b') (h' : b'.Extends b'') : b.Extends b'' := by
  intro choice'' hchoice''
  obtain ⟨choice', hchoice', hprefix'⟩ := h' choice'' hchoice''
  obtain ⟨choice, hchoice, hprefix⟩ := h choice' hchoice'
  exact ⟨choice, hchoice, hprefix.trans hprefix'⟩

theorem pushed (b : Branch) (tokens : List Token) :
    b.Extends { b with tail := tokens ++ b.tail } := by
  intro choice' hchoice'
  obtain ⟨start, hstart, rfl⟩ := List.mem_map.mp hchoice'
  refine ⟨start ++ b.tail.reverse, List.mem_map_of_mem hstart, tokens.reverse, ?_⟩
  simp

theorem behindGroup (b : Branch) (inner : List (List Token)) : b.Extends (b.behindGroup inner) := by
  intro choice' hchoice'
  simp only [Branch.behindGroup, Branch.choices, Option.getD_some, List.reverse_nil,
    List.append_nil, List.map_id'] at hchoice'
  split at hchoice'
  · exact ⟨choice', hchoice', List.prefix_refl _⟩
  · obtain ⟨start, hstart, hmore⟩ := List.mem_flatMap.mp hchoice'
    obtain ⟨more, -, rfl⟩ := List.mem_map.mp hmore
    exact ⟨start, hstart, List.prefix_append _ _⟩

end Branch.Extends

/-- The branch that stands in no group. -/
def outermost : List OpenGroup → Branch → Branch
  | [], here => here
  | group :: groups, _ => outermost groups group.outer

theorem outermost_extends (groups : List OpenGroup) {here here' : Branch}
    (h : here.Extends here') : (outermost groups here).Extends (outermost groups here') := by
  cases groups with
  | nil => exact h
  | cons group groups => exact .refl _

/-- Where no two stars meet, reading on takes nothing back. -/
theorem readBranch_extends {groups : List OpenGroup} {here b : Branch} {afterSlash : Bool}
    {glyphs : List Glyph} (hapart : ¬ [.star, .star] <:+: glyphs)
    (hread : readBranch groups here afterSlash glyphs = .ok b) :
    (outermost groups here).Extends b := by
  have hstars : ∀ rest : List Glyph, [.star, .star] <:+: Glyph.star :: Glyph.star :: rest :=
    fun rest => ⟨[], rest, rfl⟩
  fun_induction readBranch groups here afterSlash glyphs
  -- the end of the glyphs
  case case1 hclosed =>
    obtain rfl := Except.ok.inj hread
    rw [List.isEmpty_iff.mp hclosed]
    exact .refl _
  -- two stars, and what cannot be read
  case case4 | case5 | case6 | case7 | case8 | case9 => exact absurd (hstars _) hapart
  case case2 | case3 | case15 => cases hread
  -- one star, `?`, a class and a character
  case case10 ih | case11 ih | case12 ih =>
    have hrest := ih (fun h => hapart (List.infix_cons h)) hread
    exact (outermost_extends _ (.pushed _ [_])).trans hrest
  case case13 ih =>
    have hrest := ih (fun h => hapart (List.infix_cons h)) hread
    rw [foldl_push_bytes] at hrest
    exact (outermost_extends _ (.pushed _ _)).trans hrest
  -- the marks of groups
  case case14 ih => exact ih (fun h => hapart (List.infix_cons h)) hread
  case case16 ih =>
    have hrest := ih (fun h => hapart (List.infix_cons h)) hread
    refine Branch.Extends.trans ?_ hrest
    exact outermost_extends _ (.behindGroup _ _)
  case case17 ih =>
    have hrest := ih (fun h => hapart (List.infix_cons h)) hread
    exact Branch.Extends.trans (.pushed _ [_]) hrest
  case case18 ih => exact ih (fun h => hapart (List.infix_cons h)) hread

/-- Outside groups every choice begins with the tokens that were read before. -/
theorem prefix_of_readBranch {tail : List Token} {afterSlash : Bool} {glyphs : List Glyph}
    {b : Branch} (hapart : ¬ [.star, .star] <:+: glyphs)
    (hread : readBranch [] ⟨none, tail⟩ afterSlash glyphs = .ok b) :
    ∀ choice ∈ b.choices, tail.reverse <+: choice := by
  intro choice hchoice
  obtain ⟨front, hfront, hprefix⟩ := readBranch_extends hapart hread choice hchoice
  obtain rfl : front = tail.reverse := by simpa [outermost, Branch.choices] using hfront
  exact hprefix

/-! ## Glyphs that go apart from a text -/

/-- Glyph by glyph the text is written, up to a place where the text goes on with
another character, or the glyphs end before it, or they cannot be read on. -/
inductive Misses : List Glyph → List Char → Prop
  | short (c : Char) (text : List Char) : Misses [] (c :: text)
  | broken (fault : Fault) (glyphs : List Glyph) (text : List Char) :
      Misses (.broken fault :: glyphs) text
  | other {g : Glyph} {c d : Char} (glyphs : List Glyph) (text : List Char) :
      g.Writes c → c ≠ d → Misses (g :: glyphs) (d :: text)
  | later {g : Glyph} {c : Char} {glyphs : List Glyph} {text : List Char} :
      g.Writes c → Misses glyphs text → Misses (g :: glyphs) (c :: text)

/-- The tokens, last first, take the bytes and nothing else. -/
def Spell (tail : List Token) (bytes : Bytes) : Prop :=
  ∀ piece, Cut Token.Takes tail.reverse piece ↔ piece = bytes

namespace Spell

variable {tail : List Token} {bytes : Bytes}

theorem nil : Spell [] [] :=
  fun _ => cut_nil_iff

theorem push {g : Glyph} {c : Char} (h : Spell tail bytes) (hg : g.Writes c) :
    Spell (g.tokens.reverse ++ tail) (bytes ++ Utf8.encode [c]) := by
  intro piece
  rw [List.reverse_append, List.reverse_reverse, cut_append_iff]
  constructor
  · rintro ⟨start, rest, rfl, hstart, hrest⟩
    rw [(h start).mp hstart, (hg.cut_tokens_iff rest).mp hrest]
  · rintro rfl
    exact ⟨bytes, _, rfl, (h _).mpr rfl, (hg.cut_tokens_iff _).mpr rfl⟩

theorem ne_leading (h : Spell tail bytes) : tail ≠ [.leadingDirectories] := by
  rintro rfl
  have hnone : [] = bytes := (h []).mp (cut_singleton_iff.mpr (Or.inl rfl))
  have hslash : [slash] = bytes := (h [slash]).mp (cut_singleton_iff.mpr (Or.inr ⟨[], rfl⟩))
  cases hnone.trans hslash.symm

theorem not_prefix_leading (h : Spell tail bytes) (hbytes : bytes ≠ []) :
    ¬ tail.reverse <+: [.leadingDirectories] := by
  intro hprefix
  rcases List.prefix_cons_iff.mp hprefix with hnil | ⟨more, hmore, hrest⟩
  · have hempty : Cut Token.Takes tail.reverse [] := hnil ▸ Cut.nil
    exact hbytes ((h []).mp hempty).symm
  · obtain rfl := List.prefix_nil.mp hrest
    exact h.ne_leading (List.reverse_eq_iff.mp hmore)

/-- Of two texts that go on with different characters neither begins the other. -/
theorem eq_of_prefix {start rest : Bytes} {c d : Char} {choice : List Token}
    (h : Spell tail (start ++ Utf8.encode [c])) (hbegin : tail.reverse <+: choice)
    (hcut : Cut Token.Takes choice (start ++ Utf8.encode [d] ++ rest)) : c = d := by
  obtain ⟨more, rfl⟩ := hbegin
  obtain ⟨piece, rest', hpieces, hpiece, -⟩ := cut_append_iff.mp hcut
  rw [(h piece).mp hpiece, List.append_assoc, List.append_assoc] at hpieces
  exact (Utf8.eq_of_encode_append (List.append_cancel_left hpieces)).symm

end Spell

/-- What is read from glyphs that go apart from a text does not take the text. -/
theorem Misses.not_cut {glyphs : List Glyph} {text : List Char} (h : Misses glyphs text) :
    ∀ {tail : List Token} {start : Bytes} {afterSlash : Bool} {b : Branch},
      Spell tail start → ¬ [.star, .star] <:+: glyphs →
      readBranch [] ⟨none, tail⟩ afterSlash glyphs = .ok b →
      b ≠ ⟨none, [.leadingDirectories]⟩ ∧
        ∀ choice ∈ b.choices, ¬ Cut Token.Takes choice (start ++ Utf8.encode text) := by
  induction h with
  | short c text =>
      intro tail start afterSlash b htail _ hread
      obtain rfl : ⟨none, tail⟩ = b := by simpa [readBranch] using hread
      refine ⟨fun h => htail.ne_leading (Branch.mk.inj h).2, ?_⟩
      intro choice hchoice hcut
      obtain rfl : choice = tail.reverse := by simpa [Branch.choices] using hchoice
      have hempty := List.append_right_eq_self.mp ((htail _).mp hcut)
      exact Utf8.encode_ne_nil c text hempty
  | broken fault glyphs text =>
      intro tail start afterSlash b _ _ hread
      rw [readBranch] at hread
      cases hread
  | @other g c d glyphs text hg hne =>
      intro tail start afterSlash b htail hapart hread
      obtain ⟨afterSlash', hstep⟩ := readBranch_cons_of_writes hg ⟨none, tail⟩ afterSlash glyphs
      rw [hstep] at hread
      have hspell := htail.push hg
      -- whatever comes behind the glyph, it stands behind the wrong character
      have hbegin := prefix_of_readBranch (fun h => hapart (List.infix_cons h)) hread
      constructor
      · rintro rfl
        have hbytes : start ++ Utf8.encode [c] ≠ [] :=
          fun h => Utf8.encode_ne_nil c [] (List.append_eq_nil_iff.mp h).2
        exact hspell.not_prefix_leading hbytes (hbegin _ (by simp [Branch.choices]))
      · intro choice hchoice hcut
        rw [Utf8.encode_cons, ← List.append_assoc] at hcut
        exact hne (hspell.eq_of_prefix (hbegin choice hchoice) hcut)
  | @later g c glyphs text hg _ ih =>
      intro tail start afterSlash b htail hapart hread
      obtain ⟨afterSlash', hstep⟩ := readBranch_cons_of_writes hg ⟨none, tail⟩ afterSlash glyphs
      rw [hstep] at hread
      have hrest := ih (htail.push hg) (fun h => hapart (List.infix_cons h)) hread
      rwa [List.append_assoc, ← Utf8.encode_cons] at hrest

/-! ## Names that end in `..` -/

theorem lastSegment_of_endsInParent {name : Bytes} (h : EndsInParent name) :
    lastSegment name = [dot, dot] := by
  rcases h with rfl | ⟨front, rfl⟩
  · decide
  · simp [lastSegment, slash, dot]

theorem ends_in_dot {text : List Char} (h : EndsInParent (Utf8.encode text)) :
    ∃ front, text = front ++ ['.'] := by
  obtain ⟨front, hfront⟩ : ∃ front, Utf8.encode text = front ++ [dot] := by
    rcases h with h | ⟨front, h⟩
    · exact ⟨[dot], h⟩
    · exact ⟨front ++ [slash, dot], by rw [← h]; simp⟩
  have hdecode := Utf8.decode_append_of_lt (b := dot) (by decide) front []
  rw [← hfront, Utf8.decode_encode] at hdecode
  obtain ⟨before, last, rfl, -, hlast⟩ := List.map_eq_append_iff.mp hdecode
  obtain ⟨c, rfl, hc⟩ := List.map_eq_singleton_iff.mp hlast
  obtain rfl : c = '.' := Option.some.inj hc
  exact ⟨before, rfl⟩

/-- A class and a dot at the end, and nothing that takes any run of bytes: the file
name decides. -/
theorem decidedByName_of_dot {front : List Token}
    (hplain : ∀ t ∈ front, t ≠ .anything ∧ t ≠ .leadingDirectories)
    (hclass : ∃ t ∈ front, t.isText = false) : decidedByName (front ++ [.byte dot]) = true := by
  have hmixed : (front ++ [Token.byte dot]).all Token.isText = false := by
    obtain ⟨t, ht, htext⟩ := hclass
    rw [List.all_eq_false]
    exact ⟨t, List.mem_append_left _ ht, by simp [htext]⟩
  have hprefix : isPrefixText (front ++ [.byte dot]) = false := by
    simp [isPrefixText]
  have hsuffix : isSuffixText (front ++ [.byte dot]) = false := by
    cases front with
    | nil => rfl
    | cons t front =>
        obtain ⟨hany, hleading⟩ := hplain t List.mem_cons_self
        cases t with
        | anything => exact absurd rfl hany
        | leadingDirectories => exact absurd rfl hleading
        | _ => rfl
  have hextension : endsInExtension (front ++ [.byte dot]) = true := by
    simp [endsInExtension]
  rw [decidedByName, hmixed, hprefix, hsuffix, hextension]
  simp

theorem exists_choice_of_isMatch {b : Branch} (halone : b ≠ ⟨none, [.leadingDirectories]⟩)
    {name : String} (h : (ofBranch b).isMatch name = true) :
    ∃ choice ∈ b.choices, Cut Token.Takes choice (Bytes.ofText name) := by
  have hne : (b == ⟨none, [.leadingDirectories]⟩) = false := beq_eq_false_iff_ne.mpr halone
  rw [ofBranch, hne, isMatch, Bool.and_eq_true, List.any_eq_true] at h
  obtain ⟨choice, hchoice, htable⟩ := h.2
  exact ⟨choice, hchoice, (headD_table_iff choice _).mp htable⟩

/-! ## Stars that meet -/

theorem ne_star_of_readClass {rest : List Char} {g : Glyph} {taken : Nat}
    (h : readClass rest = .ok (some (g, taken))) : g ≠ .star := by
  rw [readClass] at h
  split at h
  · cases h
  · cases h
  · cases h
    intro hstar
    cases hstar

theorem pair_infix_of_cons {α : Type} {a b : α} {l : List α} (h : [a, a] <:+: b :: l)
    (hb : b ≠ a) : [a, a] <:+: l := by
  rcases List.infix_cons_iff.mp h with hbegin | h
  · exact absurd (List.cons_prefix_cons.mp hbegin).1.symm hb
  · exact h

theorem begins_with_star {d : Dialect} {skip : Nat} {classes : Bool} {text : List Char}
    {more : List Glyph} (hskip : skip = 0) (h : readFrom d skip classes text = .star :: more) :
    ∃ rest, text = '*' :: rest := by
  fun_induction readFrom d skip classes text
  case case2 => cases hskip
  case case4 rest _ => exact ⟨rest, rfl⟩
  case case13 hclass _ => exact absurd (List.cons.inj h).1 (ne_star_of_readClass hclass)
  all_goals cases h

/-- Stars that meet are written as stars that meet. -/
theorem stars_of_readFrom {d : Dialect} {skip : Nat} {classes : Bool} {text : List Char}
    (h : [.star, .star] <:+: readFrom d skip classes text) : ['*', '*'] <:+: text := by
  fun_induction readFrom d skip classes text
  case case1 => cases List.infix_nil.mp h
  case case2 ih => exact List.infix_cons (ih h)
  -- one star
  case case4 rest ih =>
    rcases List.infix_cons_iff.mp h with hbegin | h
    · obtain ⟨more, hmore⟩ := (List.cons_prefix_cons.mp hbegin).2
      obtain ⟨rest', rfl⟩ := begins_with_star rfl hmore.symm
      exact ⟨[], rest', rfl⟩
    · exact List.infix_cons (ih h)
  -- a class
  case case13 hclass ih =>
    exact List.infix_cons (ih (pair_infix_of_cons h (ne_star_of_readClass hclass)))
  -- what cannot be read on
  case case8 | case12 | case15 => cases List.infix_nil.mp (pair_infix_of_cons h nofun)
  -- everything else
  all_goals
    rename_i ih
    exact List.infix_cons (ih (pair_infix_of_cons h nofun))

end LintRunner.Glob

namespace LintRunner.Wildcard

open Glob (Cut Glyph Token)

/-! ## The glob of a text -/

/-- The characters that are put in brackets. -/
def bracketed : List Char :=
  ['?', '*', '[', ']', '\x7b', '\x7d']

theorem mem_bracketed {c : Char} :
    c ∈ bracketed ↔ c = '?' ∨ c = '*' ∨ c = '[' ∨ c = ']' ∨ c = '\x7b' ∨ c = '\x7d' := by
  simp [bracketed]

theorem escape_cons_of_mem {c : Char} (h : c ∈ bracketed) (rest : List Char) :
    escape (c :: rest) = '[' :: c :: ']' :: escape rest := by
  show (if c ∈ bracketed then ['[', c, ']'] else [c]) ++ escape rest = _
  rw [if_pos h]
  rfl

theorem escape_cons_of_not_mem {c : Char} (h : c ∉ bracketed) (rest : List Char) :
    escape (c :: rest) = c :: escape rest := by
  show (if c ∈ bracketed then ['[', c, ']'] else [c]) ++ escape rest = _
  rw [if_neg h]
  rfl

/-- No stars meet in the glob of a text: every star stands in brackets. -/
theorem escape_apart (text : List Char) : ¬ ['*', '*'] <:+: escape text := by
  induction text with
  | nil => decide
  | cons c rest ih =>
      intro h
      by_cases hc : c ∈ bracketed
      · rw [escape_cons_of_mem hc] at h
        rcases List.infix_cons_iff.mp (Glob.pair_infix_of_cons h (by decide)) with hbegin | h
        · cases (List.cons_prefix_cons.mp (List.cons_prefix_cons.mp hbegin).2).1
        · exact ih (Glob.pair_infix_of_cons h (by decide))
      · rw [escape_cons_of_not_mem hc] at h
        refine ih (Glob.pair_infix_of_cons h ?_)
        rintro rfl
        exact hc (by decide)

/-- What a character of a text becomes. -/
def textGlyph (c : Char) : Glyph :=
  if c ∈ bracketed then .cls false [⟨c, c⟩]
  else if c = ',' then .comma
  else .char c

theorem readClass_bracketed {c : Char} (h : c ∈ bracketed) (rest : List Char) :
    Glob.readClass (c :: ']' :: rest) = .ok (some (.cls false [⟨c, c⟩], 2)) := by
  rcases mem_bracketed.mp h with rfl | rfl | rfl | rfl | rfl | rfl <;> rfl

theorem textGlyph_writes (c : Char) : (textGlyph c).Writes c := by
  intro piece
  rw [textGlyph]
  split
  · rename_i hmem
    refine Fnmatch.single_takes_iff ?_ piece
    rcases mem_bracketed.mp hmem with rfl | rfl | rfl | rfl | rfl | rfl <;> decide
  · split
    · rename_i hcomma
      rw [hcomma]
      exact Iff.rfl
    · exact Iff.rfl

/-- Every character but a backslash is read as itself. -/
theorem readFrom_escape_cons {c : Char} (hc : c ≠ '\\') (rest : List Char) :
    Glob.readFrom textDialect 0 true (escape (c :: rest)) =
      textGlyph c :: Glob.readFrom textDialect 0 true (escape rest) := by
  by_cases hmem : c ∈ bracketed
  · rw [escape_cons_of_mem hmem, textGlyph, if_pos hmem, Glob.readFrom]
    simp only [Bool.not_true, Bool.false_eq_true, if_false, readClass_bracketed hmem]
    rfl
  · rw [escape_cons_of_not_mem hmem, textGlyph, if_neg hmem]
    by_cases hcomma : c = ','
    · subst hcomma
      rfl
    · rw [if_neg hcomma]
      simp only [mem_bracketed, not_or] at hmem
      obtain ⟨hone, hstar, hclass, -, hopen, hclose⟩ := hmem
      rw [Glob.readFrom]
      all_goals assumption

theorem glyphs_escape {text : List Char} (h : '\\' ∉ text) :
    Glob.glyphs textDialect (escape text) = text.map textGlyph := by
  induction text with
  | nil => rfl
  | cons c rest ih =>
      rw [List.mem_cons, not_or] at h
      rw [Glob.glyphs, readFrom_escape_cons (Ne.symm h.1), List.map_cons, ← ih h.2, Glob.glyphs]

/-! ## A backslash in a text -/

theorem readFrom_escaped (e : Char) (more : List Char) :
    Glob.readFrom textDialect 0 true ('\\' :: e :: more) =
      .char e :: Glob.readFrom textDialect 0 true more :=
  rfl

theorem escape_cons_of_ne {d : Char} (hd : d ≠ '\\') (rest : List Char) :
    ∃ e more, escape (d :: rest) = e :: more ∧ e ≠ '\\' := by
  by_cases hmem : d ∈ bracketed
  · exact ⟨'[', _, escape_cons_of_mem hmem rest, by decide⟩
  · exact ⟨d, _, escape_cons_of_not_mem hmem rest, hd⟩

/-- Where a text has a backslash its glob goes apart from it. Of two backslashes
that meet the glob takes one, so it comes to stand some of them ahead. -/
theorem misses_escape (text : List Char) (ahead : Nat) (h : 0 < ahead ∨ '\\' ∈ text) :
    Glob.Misses (Glob.readFrom textDialect 0 true (escape text))
      (List.replicate ahead '\\' ++ text) := by
  have hfront : ∀ (n : Nat) (rest : List Char), List.replicate n '\\' ++ '\\' :: rest =
      '\\' :: (List.replicate n '\\' ++ rest) := by
    intro n rest
    rw [← List.cons_append, ← List.replicate_succ, List.replicate_succ', List.append_assoc]
    rfl
  -- a pair of backslashes is taken at once, so the induction is on the length
  induction hlength : text.length using Nat.strongRecOn generalizing text ahead with
  | ind n ih =>
      cases text with
      | nil =>
          cases ahead with
          | zero => simp at h
          | succ ahead => exact .short _ _
      | cons c rest =>
          by_cases hc : c = '\\'
          · subst hc
            rw [hfront]
            cases rest with
            | nil => exact .broken _ _ _
            | cons d rest =>
                rw [escape_cons_of_not_mem (by decide)]
                by_cases hd : d = '\\'
                · subst hd
                  rw [escape_cons_of_not_mem (by decide), readFrom_escaped, hfront]
                  refine .later (fun _ => Iff.rfl) ?_
                  exact ih rest.length (by simp only [← hlength, List.length_cons]; omega) rest
                    (ahead + 1) (Or.inl (Nat.succ_pos ahead)) rfl
                · obtain ⟨e, more, hescape, he⟩ := escape_cons_of_ne hd rest
                  rw [hescape, readFrom_escaped]
                  exact .other _ _ (fun _ => Iff.rfl) he
          · rw [readFrom_escape_cons hc]
            cases ahead with
            | zero =>
                have hrest : '\\' ∈ rest := by simpa [Ne.symm hc] using h
                refine .later (textGlyph_writes c) ?_
                exact ih rest.length (by simp [← hlength]) rest 0 (Or.inr hrest) rfl
            | succ ahead => exact .other _ _ (textGlyph_writes c) hc

/-- A glob that goes apart from the text does not match it. -/
theorem not_isMatch_of_backslash {text : String} (h : '\\' ∈ text.toList) {glob : Glob}
    (hread : Glob.ofText textDialect (escape text.toList) = .ok glob) :
    glob.isMatch text = false := by
  have hmisses := misses_escape text.toList 0 (Or.inr h)
  have hapart : ¬ [.star, .star] <:+: Glob.glyphs textDialect (escape text.toList) :=
    fun hstars => escape_apart _ (Glob.stars_of_readFrom hstars)
  rw [Glob.ofText] at hread
  cases hbranch : Glob.readBranch [] {} false (Glob.glyphs textDialect (escape text.toList)) with
  | error fault =>
      rw [hbranch] at hread
      cases hread
  | ok b =>
      rw [hbranch] at hread
      obtain rfl : Glob.ofBranch b = glob := Except.ok.inj hread
      obtain ⟨halone, hcut⟩ := hmisses.not_cut Glob.Spell.nil hapart hbranch
      rw [Bool.eq_false_iff]
      intro hmatch
      obtain ⟨choice, hchoice, htaken⟩ := Glob.exists_choice_of_isMatch halone hmatch
      exact hcut choice hchoice htaken

/-! ## A text without backslashes -/

/-- The tokens of a text. -/
def textTokens (text : List Char) : List Token :=
  (text.map textGlyph).flatMap Glyph.tokens

theorem cut_textTokens_iff {text : List Char} {piece : Bytes} :
    Cut Token.Takes (textTokens text) piece ↔ piece = Utf8.encode text := by
  induction text generalizing piece with
  | nil => exact Glob.cut_nil_iff
  | cons c rest ih =>
      have htokens : textTokens (c :: rest) = (textGlyph c).tokens ++ textTokens rest := rfl
      have hfirst := (textGlyph_writes c).cut_tokens_iff
      rw [htokens, Glob.cut_append_iff, Utf8.encode_cons]
      constructor
      · rintro ⟨first, more, rfl, hcut, hmore⟩
        rw [(hfirst first).mp hcut, ih.mp hmore]
      · rintro rfl
        exact ⟨_, _, rfl, (hfirst _).mpr rfl, ih.mpr rfl⟩

theorem ofText_escape {text : List Char} (h : '\\' ∉ text) :
    Glob.ofText textDialect (escape text) =
      .ok (Glob.ofBranch ⟨none, (textTokens text).reverse⟩) := by
  have hwrites : ∀ g ∈ text.map textGlyph, ∃ c, g.Writes c := by
    intro g hg
    obtain ⟨c, -, rfl⟩ := List.mem_map.mp hg
    exact ⟨c, textGlyph_writes c⟩
  have hplain : ∀ g ∈ text.map textGlyph, g.isPlain = true := by
    intro g hg
    obtain ⟨c, hc⟩ := hwrites g hg
    exact hc.isPlain
  have hapart : ¬ [.star, .star] <:+: text.map textGlyph := by
    intro hstars
    obtain ⟨c, hc⟩ := hwrites .star (hstars.subset List.mem_cons_self)
    exact hc.ne_star rfl
  rw [Glob.ofText, glyphs_escape h, Glob.readBranch_of_apart rfl hplain hapart, Except.map,
    List.append_nil, textTokens]

theorem mem_textTokens {text : List Char} {t : Token} (h : t ∈ textTokens text) :
    (∃ b, t = .byte b) ∨ ∃ negated ranges, t = .cls negated ranges := by
  obtain ⟨g, hg, ht⟩ := List.mem_flatMap.mp h
  obtain ⟨c, -, rfl⟩ := List.mem_map.mp hg
  rw [textGlyph] at ht
  split at ht
  · exact Or.inr ⟨_, _, List.mem_singleton.mp ht⟩
  · split at ht
    all_goals
      obtain ⟨b, -, rfl⟩ := List.mem_map.mp ht
      exact Or.inl ⟨b, rfl⟩

theorem class_mem_textTokens {text : List Char} (h : '[' ∈ text) :
    ∃ t ∈ textTokens text, t.isText = false :=
  ⟨.cls false ((Glob.Span.mk '[' '[').ranges),
    List.mem_flatMap.mpr ⟨textGlyph '[', List.mem_map_of_mem h, by decide⟩, rfl⟩

theorem textTokens_unbounded {text : List Char} {t : Token} (h : t ∈ textTokens text) :
    t ≠ .anything ∧ t ≠ .leadingDirectories := by
  rcases mem_textTokens h with ⟨b, rfl⟩ | ⟨negated, ranges, rfl⟩ <;> exact ⟨nofun, nofun⟩

theorem textTokens_dot (front : List Char) :
    textTokens (front ++ ['.']) = textTokens front ++ [.byte Bytes.dot] := by
  rw [textTokens, List.map_append, List.flatMap_append]
  rfl

theorem decidedByName_text {text : List Char} (hclass : '[' ∈ text)
    (hparent : Glob.EndsInParent (Utf8.encode text)) :
    (Glob.Branch.mk none (textTokens text).reverse).decidedByName = true := by
  obtain ⟨front, rfl⟩ := Glob.ends_in_dot hparent
  have hbefore : '[' ∈ front := by simpa using hclass
  have hname := Glob.decidedByName_of_dot (fun _ => textTokens_unbounded)
    (class_mem_textTokens hbefore)
  rw [textTokens_dot]
  simpa [Glob.Branch.decidedByName] using hname

/-- A text with a `[` matches itself and nothing else, and not even itself if it
ends in `..`. -/
theorem isMatch_text_iff {text : String} (hclass : '[' ∈ text.toList) (name : String) :
    (Glob.ofBranch ⟨none, (textTokens text.toList).reverse⟩).isMatch name = true ↔
      name = text ∧ ¬ Glob.EndsInParent (Bytes.ofText text) := by
  have halone : (textTokens text.toList).reverse ≠ [.leadingDirectories] := by
    intro h
    have hmem : .leadingDirectories ∈ textTokens text.toList :=
      List.mem_reverse.mp (h ▸ List.mem_singleton_self _)
    exact (textTokens_unbounded hmem).2 rfl
  have hcut : Cut Token.Takes (textTokens text.toList) (Bytes.ofText name) ↔ name = text := by
    rw [cut_textTokens_iff]
    exact ⟨fun h => Bytes.ofText_injective h, fun h => by rw [h, Bytes.ofText]⟩
  rw [Glob.isMatch_ofBranch halone, List.reverse_reverse, hcut]
  constructor
  · rintro ⟨hno, rfl⟩
    exact ⟨rfl, fun h => hno ⟨decidedByName_text hclass h, Glob.lastSegment_of_endsInParent h⟩⟩
  · rintro ⟨rfl, hno⟩
    exact ⟨fun h => hno (Glob.endsInParent_of_lastSegment h.2), rfl⟩

/-! ## Patterns that are no wildcard patterns -/

theorem proper_of_not_mem {pattern : List Char} (h : '[' ∉ pattern) :
    ∀ e ∈ Fnmatch.elements pattern, e.Proper := by
  fun_induction Fnmatch.elements pattern
  case case1 => exact List.forall_mem_nil _
  case case4 | case5 => exact absurd List.mem_cons_self h
  case case2 ih | case3 ih | case6 ih =>
    exact List.forall_mem_cons.mpr ⟨trivial, ih fun hmem => h (List.mem_cons_of_mem _ hmem)⟩

/-- Only a class can keep a pattern from being read. -/
theorem mem_of_refused {pattern : List Char} {why : Glob.Fault}
    (hrefused : Glob.ofText dialect (toGlob pattern) = .error why) : '[' ∈ pattern := by
  by_contra hno
  have hplain : ∀ g ∈ Glob.glyphs dialect (toGlob pattern), g.isPlain = true := by
    intro g hg
    rw [Fnmatch.glyphs_toGlob pattern (proper_of_not_mem hno)] at hg
    obtain ⟨e, -, rfl⟩ := List.mem_map.mp hg
    exact Fnmatch.isPlain_glyph e
  obtain ⟨glob, hread, -⟩ := Glob.ofText_of_plain hplain
  rw [hread] at hrefused
  cases hrefused

end LintRunner.Wildcard

namespace LintRunner.IgnoreList

variable {pattern : String} {why : Glob.Fault}

theorem isIgnored_of_backslash
    (hrefused : Glob.ofText Wildcard.dialect (Wildcard.toGlob pattern.toList) = .error why)
    (h : '\\' ∈ pattern.toList) : (ofPatterns [pattern]).isIgnored pattern = false := by
  rw [isIgnored_eq, List.any_cons, List.any_nil, Bool.or_false]
  cases hread : Glob.ofText Wildcard.textDialect (Wildcard.escape pattern.toList) with
  | ok glob =>
      rw [ofPattern_of_text hrefused hread]
      exact Wildcard.not_isMatch_of_backslash h hread
  | error fault =>
      rw [ofPattern_of_no_text hrefused hread]
      rfl

/-- A pattern without a backslash that is taken as text is never skipped. It ignores
the name with its own text and no other name, and none at all if it ends in `..`.
A pattern with a backslash does not ignore its own text. -/
theorem isIgnored_iff_same_text
    (hrefused : Glob.ofText Wildcard.dialect (Wildcard.toGlob pattern.toList) = .error why) :
    ('\\' ∉ pattern.toList →
      (∃ glob, Compiled.ofPattern pattern = .text glob why) ∧
      ∀ name, (ofPatterns [pattern]).isIgnored name = true ↔
        name = pattern ∧ ¬ Glob.EndsInParent (Bytes.ofText pattern)) ∧
    ('\\' ∈ pattern.toList → (ofPatterns [pattern]).isIgnored pattern = false) ∧
    ((∀ name, (ofPatterns [pattern]).isIgnored name = true ↔ name = pattern) ↔
      '\\' ∉ pattern.toList ∧ ¬ Glob.EndsInParent (Bytes.ofText pattern)) := by
  have htext : '\\' ∉ pattern.toList →
      (∃ glob, Compiled.ofPattern pattern = .text glob why) ∧
      ∀ name, (ofPatterns [pattern]).isIgnored name = true ↔
        name = pattern ∧ ¬ Glob.EndsInParent (Bytes.ofText pattern) := by
    intro h
    have hcompiled := ofPattern_of_text hrefused (Wildcard.ofText_escape h)
    refine ⟨⟨_, hcompiled⟩, fun name => ?_⟩
    rw [isIgnored_eq, List.any_cons, List.any_nil, Bool.or_false, hcompiled]
    exact Wildcard.isMatch_text_iff (Wildcard.mem_of_refused hrefused) name
  refine ⟨htext, isIgnored_of_backslash hrefused, ?_⟩
  constructor
  · intro hsame
    have hown := (hsame pattern).mpr rfl
    by_cases h : '\\' ∈ pattern.toList
    · rw [isIgnored_of_backslash hrefused h] at hown
      cases hown
    · exact ⟨h, (((htext h).2 pattern).mp hown).2⟩
  · rintro ⟨h, hparent⟩ name
    rw [(htext h).2 name]
    exact and_iff_left hparent

/-- A range the wrong way round, wildcards and a brace. -/
theorem isIgnored_of_reversedRange :
    Glob.ofText Wildcard.dialect (Wildcard.toGlob "[z-a]*\x7b?,.c".toList) =
        .error (.reversedRange 'z' 'a') ∧
      ∀ name, (ofPatterns ["[z-a]*\x7b?,.c"]).isIgnored name = true ↔
        name = "[z-a]*\x7b?,.c" := by
  have hrefused : Glob.ofText Wildcard.dialect (Wildcard.toGlob "[z-a]*\x7b?,.c".toList) =
      .error (.reversedRange 'z' 'a') := by
    decide +kernel
  exact ⟨hrefused, (isIgnored_iff_same_text hrefused).2.2.mpr ⟨by decide, by decide⟩⟩

/-- With a backslash another name is ignored, and with one at the end the pattern is
skipped; a text that ends in `..` ignores nothing. -/
theorem isIgnored_of_text_with_backslash :
    Glob.ofText Wildcard.dialect (Wildcard.toGlob "[z-a]\\x.c".toList) =
        .error (.reversedRange 'z' 'a') ∧
      (ofPatterns ["[z-a]\\x.c"]).isIgnored "[z-a]\\x.c" = false ∧
      (ofPatterns ["[z-a]\\x.c"]).isIgnored "[z-a]x.c" = true ∧
      (Compiled.ofPattern "[z-a]\\").glob? = none ∧
      (ofPatterns ["[z-a]/.."]).isIgnored "[z-a]/.." = false := by
  decide +kernel

end LintRunner.IgnoreList
