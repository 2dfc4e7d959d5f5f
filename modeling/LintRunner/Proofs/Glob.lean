import LintRunner.Glob.Match
import Mathlib.Data.List.Basic

/-!
# What a glob accepts

Tokens match a name if the name can be cut into one piece for each token, and
the table that a match runs through answers just this. Reading glyphs token by
token keeps what each of them stands for, up to the stars that are read as
directories: these match more names than two stars would.
-/

namespace LintRunner.Glob

open Bytes (slash dot)

/-! ## Cutting a name into pieces -/

section

variable {α β : Type} {takes : α → Bytes → Prop}

/-- Some bytes are cut into one piece for each of the parts. -/
inductive Cut (takes : α → Bytes → Prop) : List α → Bytes → Prop
  | nil : Cut takes [] []
  | cons {a : α} {parts : List α} {piece rest : Bytes} :
      takes a piece → Cut takes parts rest → Cut takes (a :: parts) (piece ++ rest)

theorem cut_nil_iff {name : Bytes} : Cut takes [] name ↔ name = [] := by
  constructor
  · rintro ⟨⟩
    rfl
  · rintro rfl
    exact Cut.nil

theorem cut_cons_iff {a : α} {parts : List α} {name : Bytes} :
    Cut takes (a :: parts) name ↔
      ∃ piece rest, name = piece ++ rest ∧ takes a piece ∧ Cut takes parts rest := by
  constructor
  · rintro (_ | ⟨hpiece, hrest⟩)
    exact ⟨_, _, rfl, hpiece, hrest⟩
  · rintro ⟨piece, rest, rfl, hpiece, hrest⟩
    exact Cut.cons hpiece hrest

theorem cut_singleton_iff {a : α} {name : Bytes} : Cut takes [a] name ↔ takes a name := by
  rw [cut_cons_iff]
  constructor
  · rintro ⟨piece, rest, rfl, hpiece, hrest⟩
    rw [cut_nil_iff.mp hrest, List.append_nil]
    exact hpiece
  · intro h
    exact ⟨name, [], (List.append_nil name).symm, h, Cut.nil⟩

theorem cut_append_iff {before behind : List α} {name : Bytes} :
    Cut takes (before ++ behind) name ↔
      ∃ start rest, name = start ++ rest ∧ Cut takes before start ∧ Cut takes behind rest := by
  induction before generalizing name with
  | nil =>
      constructor
      · intro h
        exact ⟨[], name, rfl, Cut.nil, h⟩
      · rintro ⟨start, rest, rfl, hstart, hrest⟩
        rw [cut_nil_iff.mp hstart]
        exact hrest
  | cons a before ih =>
      rw [List.cons_append, cut_cons_iff]
      constructor
      · rintro ⟨piece, rest, rfl, hpiece, hrest⟩
        obtain ⟨start, more, rfl, hstart, hmore⟩ := ih.mp hrest
        exact ⟨piece ++ start, more, (List.append_assoc ..).symm, Cut.cons hpiece hstart, hmore⟩
      · rintro ⟨start, more, rfl, hstart, hmore⟩
        obtain ⟨piece, rest, rfl, hpiece, hrest⟩ := cut_cons_iff.mp hstart
        exact ⟨piece, rest ++ more, List.append_assoc .., hpiece,
          ih.mpr ⟨rest, more, rfl, hrest, hmore⟩⟩

/-- Parts may be spelled out by several parts each. -/
theorem cut_flatMap_iff {takes' : β → Bytes → Prop} {spell : α → List β} {parts : List α}
    (hspell : ∀ a ∈ parts, ∀ piece, Cut takes' (spell a) piece ↔ takes a piece) {name : Bytes} :
    Cut takes' (parts.flatMap spell) name ↔ Cut takes parts name := by
  induction parts generalizing name with
  | nil => rw [List.flatMap_nil, cut_nil_iff, cut_nil_iff]
  | cons a parts ih =>
      rw [List.flatMap_cons, cut_append_iff, cut_cons_iff]
      have hrest : ∀ n : Bytes, Cut takes' (parts.flatMap spell) n ↔ Cut takes parts n :=
        fun _ => ih fun a ha => hspell a (List.mem_cons_of_mem _ ha)
      simp only [hspell a List.mem_cons_self, hrest]

theorem cut_map_iff {takes' : β → Bytes → Prop} {f : α → β} {parts : List α}
    (hf : ∀ a ∈ parts, ∀ piece, takes' (f a) piece ↔ takes a piece) {name : Bytes} :
    Cut takes' (parts.map f) name ↔ Cut takes parts name := by
  rw [List.map_eq_flatMap]
  exact cut_flatMap_iff fun a ha piece => cut_singleton_iff.trans (hf a ha piece)

end

/-! ## What a token takes -/

def Token.Takes : Token → Bytes → Prop
  | .byte b, piece => piece = [b]
  | .anyByte, piece => ∃ b, piece = [b]
  | .cls negated ranges, piece => ∃ b, piece = [b] ∧ inClass negated ranges b = true
  | .anything, _ => True
  | .leadingDirectories, piece => piece = [] ∨ ∃ path, piece = path ++ [slash]
  | .trailingDirectories, piece => ∃ path, piece = slash :: path
  | .middleDirectories, piece => piece = [slash] ∨ ∃ path, piece = slash :: (path ++ [slash])

theorem mem_suffixes {rest name : Bytes} :
    rest ∈ suffixes name ↔ ∃ piece, name = piece ++ rest := by
  induction name with
  | nil => simp [suffixes, eq_comm]
  | cons b name ih =>
      rw [suffixes, List.mem_cons, ih]
      constructor
      · rintro (rfl | ⟨piece, rfl⟩)
        · exact ⟨[], rfl⟩
        · exact ⟨b :: piece, rfl⟩
      · rintro ⟨_ | ⟨c, piece⟩, h⟩
        · exact Or.inl h.symm
        · exact Or.inr ⟨piece, (List.cons.inj h).2⟩

theorem mem_behindSlashes {rest name : Bytes} :
    rest ∈ behindSlashes name ↔ ∃ path, name = path ++ slash :: rest := by
  induction name with
  | nil => simp [behindSlashes]
  | cons b name ih =>
      have hstep : rest ∈ behindSlashes (b :: name) ↔
          (b = slash ∧ rest = name) ∨ rest ∈ behindSlashes name := by
        rw [behindSlashes]
        by_cases hb : b = slash <;> simp [hb]
      rw [hstep, ih]
      constructor
      · rintro (⟨rfl, rfl⟩ | ⟨path, rfl⟩)
        · exact ⟨[], rfl⟩
        · exact ⟨b :: path, rfl⟩
      · rintro ⟨_ | ⟨c, path⟩, h⟩
        · obtain ⟨hb, hname⟩ := List.cons.inj h
          exact Or.inl ⟨hb, hname.symm⟩
        · exact Or.inr ⟨path, (List.cons.inj h).2⟩

/-- What may be left of a name is what stands behind a piece that the token takes. -/
theorem mem_rests {t : Token} {name rest : Bytes} :
    rest ∈ t.rests name ↔ ∃ piece, name = piece ++ rest ∧ t.Takes piece := by
  cases t with
  | byte b =>
      cases name with
      | nil => simp [Token.rests, Token.Takes]
      | cons c name =>
          simp only [Token.rests, Token.Takes, List.mem_ite_nil_right, List.mem_singleton]
          constructor
          · rintro ⟨hc, rfl⟩
            exact ⟨[b], by rw [eq_of_beq hc]; rfl, rfl⟩
          · rintro ⟨_, h, rfl⟩
            obtain ⟨rfl, rfl⟩ := List.cons.inj h
            exact ⟨beq_self_eq_true _, rfl⟩
  | anyByte =>
      cases name with
      | nil => simp [Token.rests, Token.Takes]
      | cons c name =>
          simp only [Token.rests, Token.Takes, List.mem_singleton]
          constructor
          · rintro rfl
            exact ⟨[c], rfl, c, rfl⟩
          · rintro ⟨_, h, b, rfl⟩
            exact (List.cons.inj h).2.symm
  | cls negated ranges =>
      cases name with
      | nil => simp [Token.rests, Token.Takes]
      | cons c name =>
          simp only [Token.rests, Token.Takes, List.mem_ite_nil_right, List.mem_singleton]
          constructor
          · rintro ⟨hc, rfl⟩
            exact ⟨[c], rfl, c, rfl, hc⟩
          · rintro ⟨_, h, b, rfl, hb⟩
            obtain ⟨rfl, rfl⟩ := List.cons.inj h
            exact ⟨hb, rfl⟩
  | anything => simp [Token.rests, Token.Takes, mem_suffixes]
  | leadingDirectories =>
      simp only [Token.rests, Token.Takes, List.mem_cons, mem_behindSlashes]
      constructor
      · rintro (rfl | ⟨path, rfl⟩)
        · exact ⟨[], rfl, Or.inl rfl⟩
        · exact ⟨path ++ [slash], by simp, Or.inr ⟨path, rfl⟩⟩
      · rintro ⟨_, rfl, rfl | ⟨path, rfl⟩⟩
        · exact Or.inl rfl
        · exact Or.inr ⟨path, by simp⟩
  | trailingDirectories =>
      cases name with
      | nil => simp [Token.rests, Token.Takes]
      | cons c name =>
          simp only [Token.rests, Token.Takes, List.mem_ite_nil_right, mem_suffixes]
          constructor
          · rintro ⟨hc, path, rfl⟩
            exact ⟨slash :: path, by rw [eq_of_beq hc]; rfl, path, rfl⟩
          · rintro ⟨_, h, path, rfl⟩
            obtain ⟨rfl, rfl⟩ := List.cons.inj h
            exact ⟨beq_self_eq_true _, path, rfl⟩
  | middleDirectories =>
      cases name with
      | nil => simp [Token.rests, Token.Takes]
      | cons c name =>
          simp only [Token.rests, Token.Takes, List.mem_ite_nil_right, List.mem_cons,
            mem_behindSlashes]
          constructor
          · rintro ⟨hc, rfl | ⟨path, rfl⟩⟩
            · exact ⟨[slash], by rw [eq_of_beq hc]; rfl, Or.inl rfl⟩
            · exact ⟨slash :: (path ++ [slash]), by simp [eq_of_beq hc], Or.inr ⟨path, rfl⟩⟩
          · rintro ⟨_, h, rfl | ⟨path, rfl⟩⟩
            · obtain ⟨rfl, rfl⟩ := List.cons.inj h
              exact ⟨beq_self_eq_true _, Or.inl rfl⟩
            · obtain ⟨rfl, rfl⟩ := List.cons.inj h
              exact ⟨beq_self_eq_true _, Or.inr ⟨path, by simp⟩⟩

theorem accepts_iff {tokens : List Token} {name : Bytes} :
    accepts tokens name = true ↔ Cut Token.Takes tokens name := by
  induction tokens generalizing name with
  | nil => rw [accepts, List.isEmpty_iff, cut_nil_iff]
  | cons t tokens ih =>
      rw [accepts, List.any_eq_true, cut_cons_iff]
      simp only [mem_rests, ih]
      constructor
      · rintro ⟨rest, ⟨piece, hname, hpiece⟩, hrest⟩
        exact ⟨piece, rest, hname, hpiece, hrest⟩
      · rintro ⟨piece, rest, hname, hpiece, hrest⟩
        exact ⟨rest, ⟨piece, hname, hpiece⟩, hrest⟩

/-! ## The table answers for every end piece -/

section

variable (f : Bytes → Bool)

theorem headD_map_suffixes (name : Bytes) : ((suffixes name).map f).headD false = f name := by
  cases name <;> rfl

/-- The answer for a name by its first byte and by that of what follows. -/
def afterFirst (p : UInt8 → Bool) : Bytes → Bool
  | [] => false
  | b :: rest => p b && f rest

theorem firstThen_map (p : UInt8 → Bool) (name : Bytes) :
    firstThen p name ((suffixes name).map f) = (suffixes name).map (afterFirst f p) := by
  induction name with
  | nil => rfl
  | cons b name ih =>
      rw [suffixes, List.map_cons, List.map_cons, firstThen, ih, headD_map_suffixes]
      rfl

theorem anywhere_map (name : Bytes) :
    anywhere ((suffixes name).map f) = (suffixes name).map fun n => (suffixes n).any f := by
  induction name with
  | nil => simp [suffixes, anywhere]
  | cons b name ih =>
      rw [suffixes, List.map_cons, List.map_cons, anywhere, ih,
        headD_map_suffixes fun n => (suffixes n).any f, suffixes, List.any_cons]

theorem behindSlash_map (name : Bytes) :
    behindSlash name ((suffixes name).map f) =
      (suffixes name).map fun n => (behindSlashes n).any f := by
  induction name with
  | nil => rfl
  | cons b name ih =>
      rw [suffixes, List.map_cons, List.map_cons, behindSlash, ih, headD_map_suffixes,
        headD_map_suffixes fun n => (behindSlashes n).any f, behindSlashes]
      by_cases hb : b = slash <;> simp [hb]

theorem either_map (g : Bytes → Bool) (name : Bytes) :
    either ((suffixes name).map f) ((suffixes name).map g) =
      (suffixes name).map fun n => f n || g n := by
  rw [either, List.zipWith_map, List.zipWith_self]

/-- One token takes a column of answers to the next. -/
theorem column_map (t : Token) (name : Bytes) :
    t.column name ((suffixes name).map f) = (suffixes name).map fun n => (t.rests n).any f := by
  cases t with
  | byte b =>
      rw [Token.column, firstThen_map]
      congr 1
      funext n
      cases n with
      | nil => rfl
      | cons c n => by_cases hc : c = b <;> simp [afterFirst, Token.rests, hc]
  | anyByte =>
      rw [Token.column, firstThen_map]
      congr 1
      funext n
      cases n <;> simp [afterFirst, Token.rests]
  | cls negated ranges =>
      rw [Token.column, firstThen_map]
      congr 1
      funext n
      cases n with
      | nil => rfl
      | cons c n => by_cases hc : inClass negated ranges c <;> simp [afterFirst, Token.rests, hc]
  | anything => exact anywhere_map f name
  | leadingDirectories =>
      rw [Token.column, behindSlash_map, either_map]
      congr 1
  | trailingDirectories =>
      rw [Token.column, anywhere_map, firstThen_map]
      congr 1
      funext n
      cases n with
      | nil => rfl
      | cons c n => by_cases hc : c = slash <;> simp [afterFirst, Token.rests, hc]
  | middleDirectories =>
      rw [Token.column, behindSlash_map, either_map, firstThen_map]
      congr 1
      funext n
      cases n with
      | nil => rfl
      | cons c n => by_cases hc : c = slash <;> simp [afterFirst, Token.rests, hc]

end

theorem table_eq (tokens : List Token) (name : Bytes) :
    table tokens name = (suffixes name).map (accepts tokens) := by
  induction tokens with
  | nil => rfl
  | cons t tokens ih =>
      have hstep : table (t :: tokens) name = t.column name (table tokens name) := rfl
      rw [hstep, ih, column_map]
      rfl

theorem headD_table_iff (tokens : List Token) (name : Bytes) :
    (table tokens name).headD false = true ↔ Cut Token.Takes tokens name := by
  rw [table_eq, headD_map_suffixes, accepts_iff]

/-! ## What a glyph takes

A glyph is plain if it is no mark of a group and no fault. Outside a group a
comma is text. -/

def Glyph.isPlain : Glyph → Bool
  | .openGroup | .closeGroup | .broken _ => false
  | _ => true

def Glyph.Takes : Glyph → Bytes → Prop
  | .char c, piece => piece = Utf8.encode [c]
  | .comma, piece => piece = Utf8.encode [',']
  | .anyOne, piece => ∃ b, piece = [b]
  | .star, _ => True
  | .cls negated members, piece =>
    ∃ b, piece = [b] ∧ inClass negated (members.flatMap Span.ranges) b = true
  | .openGroup, _ | .closeGroup, _ | .broken _, _ => False

/-- The tokens that a glyph is read as by itself. -/
def Glyph.tokens : Glyph → List Token
  | .char c => (Utf8.encode [c]).map .byte
  | .comma => (Utf8.encode [',']).map .byte
  | .anyOne => [.anyByte]
  | .star => [.anything]
  | .cls negated members => [.cls negated (members.flatMap Span.ranges)]
  | .openGroup | .closeGroup | .broken _ => []

theorem cut_bytes_iff {bytes piece : Bytes} :
    Cut Token.Takes (bytes.map .byte) piece ↔ piece = bytes := by
  induction bytes generalizing piece with
  | nil => exact cut_nil_iff
  | cons b bytes ih =>
      rw [List.map_cons, cut_cons_iff]
      constructor
      · rintro ⟨_, rest, rfl, rfl, hrest⟩
        rw [ih.mp hrest]
        rfl
      · rintro rfl
        exact ⟨[b], bytes, rfl, rfl, ih.mpr rfl⟩

theorem cut_tokens_iff {g : Glyph} (hg : g.isPlain = true) (piece : Bytes) :
    Cut Token.Takes g.tokens piece ↔ g.Takes piece := by
  cases g with
  | char c => exact cut_bytes_iff
  | comma => exact cut_bytes_iff
  | anyOne => exact cut_singleton_iff
  | star => exact cut_singleton_iff
  | cls negated members => exact cut_singleton_iff
  | openGroup => cases hg
  | closeGroup => cases hg
  | broken fault => cases hg

theorem leadingDirectories_not_mem_tokens (g : Glyph) : Token.leadingDirectories ∉ g.tokens := by
  cases g <;> simp [Glyph.tokens]

theorem foldl_push_bytes (bytes : Bytes) : ∀ b : Branch,
    bytes.foldl (·.push <| .byte ·) b = { b with tail := (bytes.map .byte).reverse ++ b.tail } := by
  induction bytes with
  | nil => intro b; rfl
  | cons c bytes ih =>
      intro b
      rw [List.foldl_cons, ih]
      simp [Branch.push]

/-! ## Reading glyphs with no two stars side by side -/

/-- Where no two stars meet, every glyph is read as by itself. -/
theorem readBranch_of_apart {groups : List OpenGroup} {here : Branch} {afterSlash : Bool}
    {glyphs : List Glyph} (hgroups : groups = []) (hplain : ∀ g ∈ glyphs, g.isPlain = true)
    (hapart : ¬ [.star, .star] <:+: glyphs) :
    readBranch groups here afterSlash glyphs =
      .ok { here with tail := (glyphs.flatMap Glyph.tokens).reverse ++ here.tail } := by
  have hstars : ∀ rest : List Glyph, [.star, .star] <:+: Glyph.star :: Glyph.star :: rest :=
    fun rest => ⟨[], rest, rfl⟩
  fun_induction readBranch groups here afterSlash glyphs
  -- the end of the glyphs
  case case1 => simp
  case case2 hopen => simp [hgroups] at hopen
  -- two stars, a fault, and the marks of groups
  case case4 | case5 | case6 | case7 | case8 | case9 => exact absurd (hstars _) hapart
  case case3 | case14 | case15 | case16 => cases hplain _ List.mem_cons_self
  case case18 => cases hgroups
  -- one star, `?`, and a class
  case case10 ih | case11 ih | case12 ih =>
    rw [ih hgroups (fun g hg => hplain g (List.mem_cons_of_mem _ hg))
      (fun h => hapart (List.infix_cons h))]
    simp [Branch.push, Glyph.tokens]
  -- characters, and a comma among them
  case case13 ih =>
    rw [ih hgroups (fun g hg => hplain g (List.mem_cons_of_mem _ hg))
      (fun h => hapart (List.infix_cons h)), foldl_push_bytes]
    simp [Glyph.tokens]
  case case17 ih =>
    rw [ih rfl (fun g hg => hplain g (List.mem_cons_of_mem _ hg))
      (fun h => hapart (List.infix_cons h))]
    simp [Branch.push, Glyph.tokens]
    rfl

/-! ## Reading glyphs where stars meet

Two stars may be read as directories, and the token for these may take the place
of the slash before them. What is read still takes all that the glyphs take. -/

/-- The second tail takes what the first one takes, with what the glyphs take
behind it. -/
def Widens (tail tail' : List Token) (glyphs : List Glyph) : Prop :=
  ∀ start piece, Cut Token.Takes tail.reverse start → Cut Glyph.Takes glyphs piece →
    Cut Token.Takes tail'.reverse (start ++ piece)

namespace Widens

variable {tail tail' tail'' before : List Token} {front behind : List Glyph}

theorem refl : Widens tail tail [] := by
  intro start piece hstart hpiece
  rw [cut_nil_iff.mp hpiece, List.append_nil]
  exact hstart

theorem trans (h : Widens tail tail' front) (h' : Widens tail' tail'' behind) :
    Widens tail tail'' (front ++ behind) := by
  intro start piece hstart hpiece
  obtain ⟨first, more, rfl, hfirst, hmore⟩ := cut_append_iff.mp hpiece
  rw [← List.append_assoc]
  exact h' _ _ (h _ _ hstart hfirst) hmore

/-- Tokens that take what the glyphs take are pushed. -/
theorem push (tokens : List Token)
    (h : ∀ piece, Cut Glyph.Takes front piece → Cut Token.Takes tokens piece) :
    Widens tail (tokens.reverse ++ tail) front := by
  intro start piece hstart hpiece
  rw [List.reverse_append, List.reverse_reverse]
  exact cut_append_iff.mpr ⟨start, piece, rfl, hstart, h piece hpiece⟩

theorem push_glyph {g : Glyph} (hg : g.isPlain = true) :
    Widens tail (g.tokens.reverse ++ tail) [g] :=
  push _ fun piece hpiece => (cut_tokens_iff hg piece).mpr (cut_singleton_iff.mp hpiece)

/-- A token takes the place of the last one. -/
theorem replace {t t' : Token}
    (h : ∀ start piece, t.Takes start → Cut Glyph.Takes front piece → t'.Takes (start ++ piece)) :
    Widens (t :: before) (t' :: before) front := by
  intro start piece hstart hpiece
  rw [List.reverse_cons] at hstart ⊢
  obtain ⟨first, last, rfl, hfirst, hlast⟩ := cut_append_iff.mp hstart
  refine cut_append_iff.mpr ⟨first, last ++ piece, List.append_assoc .., hfirst, ?_⟩
  exact cut_singleton_iff.mpr (h last piece (cut_singleton_iff.mp hlast) hpiece)

end Widens

theorem ends_in_slash {piece : Bytes}
    (h : Cut Glyph.Takes [.star, .star, .char '/'] piece) : ∃ path, piece = path ++ [slash] := by
  obtain ⟨first, _, rfl, -, h⟩ := cut_cons_iff.mp h
  obtain ⟨second, last, rfl, -, h⟩ := cut_cons_iff.mp h
  have hlast : Glyph.Takes (.char '/') last := cut_singleton_iff.mp h
  have hslash : last = [slash] := hlast
  exact ⟨first ++ second, by rw [hslash, List.append_assoc]⟩

/-- The tokens behind which a slash has been read. -/
def Token.endsInSlash : Token → Prop
  | .byte b => b = slash
  | .leadingDirectories | .middleDirectories => True
  | _ => False

theorem Token.Takes.begins_with_slash {t : Token} (ht : t.endsInSlash)
    (hleading : t ≠ .leadingDirectories) {piece : Bytes} (h : t.Takes piece) :
    ∃ path, piece = slash :: path := by
  cases t with
  | byte b =>
      obtain rfl : b = slash := ht
      exact ⟨[], h⟩
  | middleDirectories =>
      rcases h with rfl | ⟨path, rfl⟩
      · exact ⟨[], rfl⟩
      · exact ⟨path ++ [slash], rfl⟩
  | leadingDirectories => exact absurd rfl hleading
  | anyByte => cases ht
  | cls negated ranges => cases ht
  | anything => cases ht
  | trailingDirectories => cases ht

/-- What a branch outside groups keeps while it is read: leading directories
stand alone or with tokens behind them that were read later, and behind a slash
there is a token that ends in one. -/
structure Branch.Fits (b : Branch) (afterSlash : Bool) : Prop where
  ungrouped : b.grouped = none
  leading : ∀ before, b.tail = .leadingDirectories :: before → before = []
  slashed : afterSlash = true → ∃ t before, b.tail = t :: before ∧ t.endsInSlash

namespace Branch.Fits

variable {b : Branch} {afterSlash : Bool}

theorem tail_of_fresh (h : b.Fits afterSlash) (hfresh : b.isFresh = true) : b.tail = [] := by
  rw [isFresh, h.ungrouped] at hfresh
  simpa using hfresh

theorem pushed (tokens : List Token) (h : b.Fits afterSlash)
    (htokens : .leadingDirectories ∉ tokens) :
    Branch.Fits { b with tail := tokens.reverse ++ b.tail } false := by
  refine ⟨h.ungrouped, ?_, fun hslash => by cases hslash⟩
  intro before htail
  cases hreverse : tokens.reverse with
  | nil =>
      rw [hreverse, List.nil_append] at htail
      exact h.leading before htail
  | cons t more =>
      rw [hreverse, List.cons_append] at htail
      have ht : t ∈ tokens := List.mem_reverse.mp (hreverse ▸ List.mem_cons_self)
      rw [(List.cons.inj htail).1] at ht
      exact absurd ht htokens

theorem pushed_slash (h : b.Fits afterSlash) : (b.push (.byte slash)).Fits true := by
  refine ⟨h.ungrouped, ?_, fun _ => ⟨_, _, rfl, rfl⟩⟩
  intro before htail
  cases (List.cons.inj htail).1

end Branch.Fits

/-- What is read behind some glyphs is read on from where these lead. -/
theorem widens_onward {tail₀ : List Token} {read : Except Fault Branch} {here : Branch}
    (front : List Glyph) {rest : List Glyph} (hplain : ∀ g ∈ front ++ rest, g.isPlain = true)
    (hwiden : Widens tail₀ here.tail front)
    (hread : (∀ g ∈ rest, g.isPlain = true) → ∃ tail, read = .ok ⟨none, tail⟩ ∧
      (tail = [.leadingDirectories] ∨ Widens here.tail tail rest)) :
    ∃ tail, read = .ok ⟨none, tail⟩ ∧
      (tail = [.leadingDirectories] ∨ Widens tail₀ tail (front ++ rest)) := by
  obtain ⟨tail, hok, halone | hrest⟩ := hread fun g hg => hplain g (List.mem_append_right front hg)
  · exact ⟨tail, hok, Or.inl halone⟩
  · exact ⟨tail, hok, Or.inr (hwiden.trans hrest)⟩

theorem pushDirectories_of_endsInSlash {grouped : Option (List (List Token))} {t : Token}
    {before : List Token} (ht : t.endsInSlash) (hleading : t ≠ .leadingDirectories) (t' : Token) :
    Branch.pushDirectories ⟨grouped, t :: before⟩ t' = ⟨grouped, t' :: before⟩ := by
  cases t with
  | leadingDirectories => exact absurd rfl hleading
  | trailingDirectories => cases ht
  | _ => rfl

/-- Two stars and a slash behind a slash: directories in the middle, or more of
the leading ones. -/
theorem pushDirectories_middle {b : Branch} (hfits : b.Fits true) :
    (b.pushDirectories .middleDirectories).Fits true ∧
      Widens b.tail (b.pushDirectories .middleDirectories).tail [.star, .star, .char '/'] := by
  obtain ⟨grouped, tail⟩ := b
  obtain ⟨t, before, htail, ht⟩ := hfits.slashed rfl
  obtain rfl : tail = t :: before := htail
  by_cases hleading : t = .leadingDirectories
  · subst hleading
    refine ⟨hfits, Widens.replace ?_⟩
    intro start piece hstart hpiece
    obtain ⟨path, rfl⟩ := ends_in_slash hpiece
    exact Or.inr ⟨start ++ path, (List.append_assoc ..).symm⟩
  · rw [pushDirectories_of_endsInSlash ht hleading]
    refine ⟨⟨hfits.ungrouped, ?_, fun _ => ⟨_, _, rfl, trivial⟩⟩, Widens.replace ?_⟩
    · intro before' h
      cases (List.cons.inj h).1
    · intro start piece hstart hpiece
      obtain ⟨path, rfl⟩ := hstart.begins_with_slash ht hleading
      obtain ⟨path', rfl⟩ := ends_in_slash hpiece
      exact Or.inr ⟨path ++ path', by simp⟩

/-- Two stars behind a slash at the end: directories at the end, unless the
branch has nothing but leading ones. -/
theorem pushDirectories_trailing {b : Branch} (hfits : b.Fits true) :
    (b.pushDirectories .trailingDirectories).Fits false ∧
      ((b.pushDirectories .trailingDirectories).tail = [.leadingDirectories] ∨
        Widens b.tail (b.pushDirectories .trailingDirectories).tail [.star, .star]) := by
  obtain ⟨grouped, tail⟩ := b
  obtain ⟨t, before, htail, ht⟩ := hfits.slashed rfl
  obtain rfl : tail = t :: before := htail
  by_cases hleading : t = .leadingDirectories
  · subst hleading
    obtain rfl : before = [] := hfits.leading before rfl
    exact ⟨⟨hfits.ungrouped, hfits.leading, fun h => by cases h⟩, Or.inl rfl⟩
  · rw [pushDirectories_of_endsInSlash ht hleading]
    refine ⟨⟨hfits.ungrouped, ?_, fun h => by cases h⟩, Or.inr (Widens.replace ?_)⟩
    · intro before' h
      cases (List.cons.inj h).1
    · intro start piece hstart _
      obtain ⟨path, rfl⟩ := hstart.begins_with_slash ht hleading
      exact ⟨path ++ piece, rfl⟩

theorem eq_nil_of_endsBranch {glyphs : List Glyph} (h : endsBranch [] glyphs = true) :
    glyphs = [] := by
  cases glyphs with
  | nil => rfl
  | cons g rest => cases g <;> cases h

/-- Whatever directories two stars are read as, a branch takes at least what its
glyphs take. The only exception are leading directories with nothing behind them. -/
theorem readBranch_widens {groups : List OpenGroup} {here : Branch} {afterSlash : Bool}
    {glyphs : List Glyph} (hgroups : groups = []) (hplain : ∀ g ∈ glyphs, g.isPlain = true)
    (hfits : here.Fits afterSlash) :
    ∃ tail, readBranch groups here afterSlash glyphs = .ok ⟨none, tail⟩ ∧
      (tail = [.leadingDirectories] ∨ Widens here.tail tail glyphs) := by
  fun_induction readBranch groups here afterSlash glyphs
  -- the end of the glyphs
  case case1 here afterSlash hopen =>
    exact ⟨here.tail, by rw [← hfits.ungrouped], Or.inr Widens.refl⟩
  case case2 hopen => simp [hgroups] at hopen
  -- a fault, and the marks of groups
  case case3 | case14 | case15 | case16 => cases hplain _ List.mem_cons_self
  case case18 => cases hgroups
  -- two stars and a slash: at the start, behind a slash, and elsewhere
  case case4 groups here afterSlash rest hfresh ih =>
    refine widens_onward [.star, .star, .char '/'] hplain ?_ fun hrest => ih hgroups hrest ?_
    · exact Widens.push [.leadingDirectories] fun piece hpiece =>
        cut_singleton_iff.mpr (Or.inr (ends_in_slash hpiece))
    · refine ⟨hfits.ungrouped, ?_, fun _ => ⟨_, _, rfl, trivial⟩⟩
      intro before h
      rw [← (List.cons.inj h).2, hfits.tail_of_fresh hfresh]
  case case5 groups here rest hstarted ih =>
    obtain ⟨hfits', hwiden⟩ := pushDirectories_middle hfits
    exact widens_onward [.star, .star, .char '/'] hplain hwiden fun hrest =>
      ih hgroups hrest hfits'
  case case6 groups here afterSlash rest hstarted hno ih =>
    refine widens_onward [.star, .star, .char '/'] hplain ?_ fun hrest => ih hgroups hrest ?_
    · exact ((Widens.push_glyph rfl).trans (Widens.push_glyph rfl)).trans (Widens.push_glyph rfl)
    · exact ((hfits.pushed [.anything] (by simp)).pushed [.anything] (by simp)).pushed_slash
  -- two stars with nothing around them, at the end behind a slash, and elsewhere
  case case7 groups here afterSlash rest _ halone ih =>
    rw [Bool.and_eq_true, List.isEmpty_iff] at halone
    obtain ⟨hfresh, rfl⟩ := halone
    refine ⟨[.leadingDirectories], ?_, Or.inl rfl⟩
    rw [readBranch, hgroups, Branch.push, hfits.ungrouped, hfits.tail_of_fresh hfresh]
    rfl
  case case8 groups here afterSlash rest _ _ hend ih =>
    subst hgroups
    rw [Bool.and_eq_true, Bool.and_eq_true] at hend
    obtain ⟨⟨-, rfl⟩, hends⟩ := hend
    obtain rfl := eq_nil_of_endsBranch hends
    obtain ⟨hfits', halone | hwiden⟩ := pushDirectories_trailing hfits
    · exact ⟨_, by rw [readBranch, ← hfits'.ungrouped]; rfl, Or.inl halone⟩
    · exact widens_onward [.star, .star] hplain hwiden fun hrest => ih rfl hrest hfits'
  case case9 groups here afterSlash rest _ _ _ ih =>
    refine widens_onward [.star, .star] hplain ?_ fun hrest => ih hgroups hrest ?_
    · exact (Widens.push_glyph rfl).trans (Widens.push_glyph rfl)
    · exact (hfits.pushed [.anything] (by simp)).pushed [.anything] (by simp)
  -- one star, `?`, and a class
  case case10 groups here afterSlash rest _ _ ih =>
    exact widens_onward [.star] hplain (Widens.push_glyph rfl) fun hrest =>
      ih hgroups hrest (hfits.pushed [.anything] (by simp))
  case case11 groups here afterSlash rest ih =>
    exact widens_onward [.anyOne] hplain (Widens.push_glyph rfl) fun hrest =>
      ih hgroups hrest (hfits.pushed [.anyByte] (by simp))
  case case12 groups here afterSlash negated members rest ih =>
    exact widens_onward [.cls negated members] hplain (Widens.push_glyph rfl) fun hrest =>
      ih hgroups hrest (hfits.pushed [.cls negated _] (by simp))
  -- characters, and a comma among them
  case case13 groups here afterSlash c rest ih =>
    rw [foldl_push_bytes] at ih ⊢
    refine widens_onward [.char c] hplain (Widens.push_glyph rfl) fun hrest =>
      ih hgroups hrest ?_
    by_cases hc : c = '/'
    · subst hc
      exact hfits.pushed_slash
    · rw [beq_eq_false_iff_ne.mpr hc]
      exact hfits.pushed _ (by simp)
  case case17 here afterSlash rest ih =>
    exact widens_onward [.comma] hplain (Widens.push_glyph rfl) fun hrest =>
      ih rfl hrest (hfits.pushed [.byte 0x2C] (by simp))

/-! ## The names that a glob matches -/

/-- A path to a parent has no file name, so the globs that look at the file
name pass it over. -/
def EndsInParent (name : Bytes) : Prop :=
  name = [dot, dot] ∨ [slash, dot, dot] <:+ name

instance (name : Bytes) : Decidable (EndsInParent name) :=
  inferInstanceAs (Decidable (_ ∨ _))

theorem endsInParent_of_lastSegment {name : Bytes} (h : lastSegment name = [dot, dot]) :
    EndsInParent name := by
  have htake : name.reverse.takeWhile (· != slash) = [dot, dot] := by
    rw [← List.reverse_reverse (name.reverse.takeWhile (· != slash))]
    exact congrArg List.reverse h
  have hname := List.takeWhile_append_dropWhile (p := (· != slash)) (l := name.reverse)
  rw [htake] at hname
  cases hdrop : name.reverse.dropWhile (· != slash) with
  | nil =>
      rw [hdrop] at hname
      exact Or.inl (List.reverse_injective (by rw [← hname]; rfl))
  | cons b before =>
      have hb : (b != slash) = false := by
        have := List.head?_dropWhile_not (· != slash) name.reverse
        rw [hdrop] at this
        simpa using this
      obtain rfl : b = slash := by simpa using hb
      rw [hdrop] at hname
      refine Or.inr ⟨before.reverse, ?_⟩
      exact List.reverse_injective (by rw [← hname]; simp)

theorem isMatch_ofBranch_leading (name : String) :
    (ofBranch ⟨none, [.leadingDirectories]⟩).isMatch name = true := by
  have h := (headD_table_iff [.anything] (Bytes.ofText name)).mpr (cut_singleton_iff.mpr trivial)
  simpa [ofBranch, isMatch] using h

theorem isMatch_ofBranch {tail : List Token} (htail : tail ≠ [.leadingDirectories])
    (name : String) :
    (ofBranch ⟨none, tail⟩).isMatch name = true ↔
      ¬ ((Branch.mk none tail).decidedByName = true ∧
        lastSegment (Bytes.ofText name) = [dot, dot]) ∧
      Cut Token.Takes tail.reverse (Bytes.ofText name) := by
  have hne : ((⟨none, tail⟩ : Branch) == ⟨none, [.leadingDirectories]⟩) = false := by
    simpa using htail
  rw [ofBranch, hne, ← headD_table_iff]
  simp [isMatch, Branch.choices, or_iff_not_imp_left]

/-- A glob of plain glyphs can be read, it matches whatever its glyphs take, and
if no two stars meet it matches nothing else. -/
theorem ofText_of_plain {d : Dialect} {text : List Char}
    (hplain : ∀ g ∈ glyphs d text, g.isPlain = true) :
    ∃ glob, ofText d text = .ok glob ∧
      (∀ name : String, ¬ EndsInParent (Bytes.ofText name) →
        Cut Glyph.Takes (glyphs d text) (Bytes.ofText name) → glob.isMatch name = true) ∧
      (¬ [.star, .star] <:+: glyphs d text → ∀ name : String, glob.isMatch name = true →
        Cut Glyph.Takes (glyphs d text) (Bytes.ofText name)) := by
  have hfits : Branch.Fits {} false :=
    ⟨rfl, fun _ h => (nomatch h), fun h => (nomatch h)⟩
  obtain ⟨tail, hread, hwiden⟩ := readBranch_widens rfl hplain hfits
  refine ⟨ofBranch ⟨none, tail⟩, by rw [ofText, hread]; rfl, ?_, ?_⟩
  · intro name hparent hcut
    by_cases halone : tail = [.leadingDirectories]
    · rw [halone]
      exact isMatch_ofBranch_leading name
    · refine (isMatch_ofBranch halone name).mpr ⟨?_, ?_⟩
      · rintro ⟨-, hlast⟩
        exact hparent (endsInParent_of_lastSegment hlast)
      · rcases hwiden with h | h
        · exact absurd h halone
        · exact h [] _ Cut.nil hcut
  · intro hapart name hmatch
    -- Without stars side by side the tail is known, and it asks for no directories.
    rw [readBranch_of_apart rfl hplain hapart] at hread
    obtain rfl : tail = ((glyphs d text).flatMap Glyph.tokens).reverse := by simpa using hread.symm
    have halone : ((glyphs d text).flatMap Glyph.tokens).reverse ≠ [.leadingDirectories] := by
      intro h
      have hmem : Token.leadingDirectories ∈ ((glyphs d text).flatMap Glyph.tokens).reverse := by
        rw [h]
        exact List.mem_singleton_self _
      obtain ⟨g, -, hg⟩ := List.mem_flatMap.mp (List.mem_reverse.mp hmem)
      exact leadingDirectories_not_mem_tokens g hg
    have hcut := ((isMatch_ofBranch halone name).mp hmatch).2
    rw [List.reverse_reverse] at hcut
    exact (cut_flatMap_iff fun g hg => cut_tokens_iff (hplain g hg)).mp hcut

end LintRunner.Glob
