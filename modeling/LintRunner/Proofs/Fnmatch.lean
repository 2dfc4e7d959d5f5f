import LintRunner.Proofs.Glob
import LintRunner.Proofs.Selection
import LintRunner.Proofs.Utf8

/-!
# Ignore patterns mean what fnmatch says

The patterns of an ignore file are spelled out as globs and read again by the
grammar of globs. Here a pattern is given its meaning directly: it is taken
apart into elements once, and each element says which bytes it takes. The two
ways agree, up to two stars that meet and up to names that end in `..`.
-/

namespace LintRunner.Fnmatch

open Glob (Cut Glyph Span)

/-! ## The elements of a pattern -/

inductive Element
  | anyRun
  | anyOne
  | oneOf (negated : Bool) (body : List Char)
  | char (c : Char)
deriving DecidableEq, Repr

/-- The characters up to the next `]`, and those behind it. -/
def upToClose : List Char → Option (List Char × List Char)
  | [] => none
  | c :: rest =>
    if c = ']' then some ([], rest)
    else (upToClose rest).map fun (body, more) => (c :: body, more)

/-- The body of a class and what stands behind its `]`. The first character
belongs to the body whatever it is. -/
def classBody : List Char → Option (List Char × List Char)
  | [] => none
  | c :: rest => (upToClose rest).map fun (body, more) => (c :: body, more)

/-- The class that a `[` before these characters opens, and what is behind it. -/
def openClass : List Char → Option (Element × List Char)
  | '!' :: rest => (classBody rest).map fun (body, more) => (.oneOf true body, more)
  | rest => (classBody rest).map fun (body, more) => (.oneOf false body, more)

theorem upToClose_spec {rest body more : List Char} (h : upToClose rest = some (body, more)) :
    rest = body ++ ']' :: more ∧ ']' ∉ body := by
  induction rest generalizing body with
  | nil => cases h
  | cons c rest ih =>
      rw [upToClose] at h
      split at h
      · rename_i hc
        obtain ⟨rfl, rfl⟩ : [] = body ∧ rest = more := by simpa using h
        exact ⟨by rw [hc]; rfl, List.not_mem_nil⟩
      · rename_i hc
        obtain ⟨⟨body', more'⟩, hrest, heq⟩ := Option.map_eq_some_iff.mp h
        obtain ⟨rfl, rfl⟩ : c :: body' = body ∧ more' = more := by simpa using heq
        obtain ⟨rfl, hbody⟩ := ih hrest
        exact ⟨rfl, by simpa [eq_comm, hbody] using hc⟩

theorem classBody_spec {rest body more : List Char} (h : classBody rest = some (body, more)) :
    ∃ first others, body = first :: others ∧ rest = body ++ ']' :: more ∧ ']' ∉ others := by
  cases rest with
  | nil => cases h
  | cons c rest =>
      obtain ⟨⟨others, more'⟩, hrest, heq⟩ := Option.map_eq_some_iff.mp h
      obtain ⟨rfl, rfl⟩ : c :: others = body ∧ more' = more := by simpa using heq
      obtain ⟨rfl, hothers⟩ := upToClose_spec hrest
      exact ⟨c, others, rfl, rfl, hothers⟩

/-- A class as it is written behind its `[`. -/
def written (negated : Bool) (body : List Char) : List Char :=
  if negated then '!' :: body ++ [']'] else body ++ [']']

theorem openClass_spec {rest more : List Char} {e : Element} (h : openClass rest = some (e, more)) :
    ∃ negated first others, e = .oneOf negated (first :: others) ∧
      rest = written negated (first :: others) ++ more ∧ ']' ∉ others ∧
      (negated = false → first ≠ '!') := by
  unfold openClass at h
  split at h
  · obtain ⟨⟨body, more'⟩, hbody, heq⟩ := Option.map_eq_some_iff.mp h
    obtain ⟨rfl, rfl⟩ : Element.oneOf true body = e ∧ more' = more := by simpa using heq
    obtain ⟨first, others, rfl, rfl, hothers⟩ := classBody_spec hbody
    exact ⟨true, first, others, rfl, by simp [written], hothers, fun h => by cases h⟩
  · rename_i hsign
    obtain ⟨⟨body, more'⟩, hbody, heq⟩ := Option.map_eq_some_iff.mp h
    obtain ⟨rfl, rfl⟩ : Element.oneOf false body = e ∧ more' = more := by simpa using heq
    obtain ⟨first, others, rfl, rfl, hothers⟩ := classBody_spec hbody
    refine ⟨false, first, others, rfl, by simp [written], hothers, fun _ => ?_⟩
    rintro rfl
    exact hsign _ rfl

theorem length_openClass {rest more : List Char} {e : Element}
    (h : openClass rest = some (e, more)) : more.length < rest.length := by
  obtain ⟨negated, first, others, -, rfl, -⟩ := openClass_spec h
  cases negated <;> simp [written] <;> omega

/-- `*` is any run of bytes and `?` is any byte, a `[` opens a class if that is
closed again, and everything else stands for itself. -/
def elements : List Char → List Element
  | [] => []
  | '*' :: rest => .anyRun :: elements rest
  | '?' :: rest => .anyOne :: elements rest
  | '[' :: rest =>
    match h : openClass rest with
    | some (e, more) =>
      have := length_openClass h
      e :: elements more
    | none => .char '[' :: elements rest
  | c :: rest => .char c :: elements rest
termination_by pattern => pattern.length

theorem elements_openClass {rest more : List Char} {e : Element}
    (h : openClass rest = some (e, more)) : elements ('[' :: rest) = e :: elements more := by
  rw [elements]
  split
  · rename_i hopen
    obtain ⟨rfl, rfl⟩ : e = _ ∧ more = _ := by simpa using h.symm.trans hopen
    rfl
  · rename_i hopen
    rw [hopen] at h
    cases h

/-! ## What a pattern matches -/

/-- The members of a class. `x-y` stands for all characters from `x` to `y`, and
any other character for itself. -/
def members : List Char → List (Char × Char)
  | x :: '-' :: y :: rest => (x, y) :: members rest
  | x :: rest => (x, x) :: members rest
  | [] => []

def InBody (body : List Char) (b : UInt8) : Prop :=
  ∃ m ∈ members body, m.1.toNat ≤ b.toNat ∧ b.toNat ≤ m.2.toNat

instance (body : List Char) (b : UInt8) : Decidable (InBody body b) :=
  inferInstanceAs (Decidable (∃ m ∈ members body, _))

def Element.Takes : Element → Bytes → Prop
  | .anyRun, _ => True
  | .anyOne, piece => ∃ b, piece = [b]
  | .oneOf negated body, piece => ∃ b, piece = [b] ∧ (InBody body b ↔ negated = false)
  | .char c, piece => piece = Utf8.encode [c]

/-- The name can be cut into one piece for each element of the pattern. -/
def Matches (pattern name : String) : Prop :=
  Cut Element.Takes (elements pattern.toList) (Bytes.ofText name)

/-! ## Patterns without doubtful classes -/

/-- A `-` that joins no range is the first or the last character of its class. -/
def dashesPlaced (atStart : Bool) : List Char → Bool
  | x :: '-' :: _ :: rest => (x != '-' || atStart) && dashesPlaced false rest
  | x :: rest => (x != '-' || atStart || rest.isEmpty) && dashesPlaced false rest
  | [] => true

def Element.Proper : Element → Prop
  | .oneOf negated body =>
    (∀ c ∈ body, c.toNat < 128) ∧ (∀ m ∈ members body, m.1 ≤ m.2) ∧
      dashesPlaced true body = true ∧ (negated = false → body.head? ≠ some '^')
  | _ => True

instance : DecidablePred Element.Proper
  | .oneOf _ body =>
    haveI : Decidable (∀ c ∈ body, c.toNat < 128) := List.decidableBAll _ body
    inferInstanceAs (Decidable (_ ∧ _ ∧ _ ∧ _))
  | .anyRun | .anyOne | .char _ => inferInstanceAs (Decidable True)

/-- Classes have members in ASCII and ranges in order, their dashes are where no
one can mistake them, and none begins with a `^`. -/
def Proper (pattern : String) : Prop :=
  ∀ e ∈ elements pattern.toList, e.Proper

/-! ## Classes are read as they are spelled -/

/-- The members of a class as a glob has them. -/
def spans (body : List Char) : List Span :=
  (members body).map fun m => ⟨m.1, m.2⟩

theorem spans_range (x y : Char) (rest : List Char) :
    spans (x :: '-' :: y :: rest) = ⟨x, y⟩ :: spans rest := by
  simp [spans, members]

theorem spans_cons {x : Char} {rest : List Char} (h : ∀ y more, rest ≠ '-' :: y :: more) :
    spans (x :: rest) = ⟨x, x⟩ :: spans rest := by
  rw [spans, members]
  · rfl
  · intro y more hrest
    exact h y more hrest

theorem dashesPlaced_cons {x : Char} {rest : List Char} (h : ∀ y more, rest ≠ '-' :: y :: more)
    (atStart : Bool) :
    dashesPlaced atStart (x :: rest) =
      ((x != '-' || atStart || rest.isEmpty) && dashesPlaced false rest) := by
  rw [dashesPlaced]
  intro y more hrest
  exact h y more hrest

/-- Behind some members a class is read member by member up to its `]`. -/
theorem readMembers_after (body : List Char) : ∀ (last : Span) (before : List Span) (taken : Nat)
    (more : List Char), ']' ∉ body → (∀ m ∈ members body, m.1 ≤ m.2) →
    dashesPlaced false body = true →
    Glob.readMembers .after (last :: before) taken (body ++ ']' :: more) =
      .ok (some ((last :: before).reverse ++ spans body, taken + body.length + 1)) := by
  fun_induction members body
  case case1 x y rest ih =>
    intro last before taken more hclose hordered hdashes
    simp only [List.mem_cons, not_or] at hclose
    simp only [List.mem_cons, forall_eq_or_imp] at hordered
    simp only [dashesPlaced, Bool.or_false, Bool.and_eq_true, bne_iff_ne] at hdashes
    have hx : ¬ x = ']' := fun h => hclose.1 h.symm
    have hy : ¬ y = ']' := fun h => hclose.2.2.1 h.symm
    have hxy : ¬ y < x := Char.not_lt.mpr hordered.1
    have hdash : ¬ '-' = ']' := by decide
    have hrest := ih ⟨x, y⟩ (last :: before) (taken + 3) more hclose.2.2.2 hordered.2 hdashes.2
    simp only [List.cons_append, Glob.readMembers, hx, hdashes.1, hy, hxy, hdash, beq_iff_eq,
      if_false, if_true, hrest, spans_range, List.length_cons]
    simp
    omega
  case case2 x rest hrange ih =>
    intro last before taken more hclose hordered hdashes
    simp only [List.mem_cons, not_or] at hclose
    simp only [List.mem_cons, forall_eq_or_imp] at hordered
    have hx : ¬ x = ']' := fun h => hclose.1 h.symm
    rw [dashesPlaced_cons hrange, Bool.and_eq_true, Bool.or_false, Bool.or_eq_true,
      List.isEmpty_iff, bne_iff_ne] at hdashes
    rw [spans_cons hrange]
    by_cases hdash : x = '-'
    · -- a dash that closes the class
      obtain rfl : rest = [] := hdashes.1.resolve_left fun h => h hdash
      subst hdash
      simp [Glob.readMembers, spans, members]
    · have hrest := ih ⟨x, x⟩ (last :: before) (taken + 1) more hclose.2 hordered.2 hdashes.2
      simp only [List.cons_append, Glob.readMembers, hx, hdash, beq_iff_eq, if_false, hrest,
        List.length_cons]
      simp
      omega
  case case3 =>
    intro last before taken more _ _ _
    simp [Glob.readMembers, spans, members]

/-- A class is read up to its `]`, which its first character cannot be. -/
theorem readMembers_first (first : Char) (others : List Char) (taken : Nat) (more : List Char)
    (hclose : ']' ∉ others) (hordered : ∀ m ∈ members (first :: others), m.1 ≤ m.2)
    (hdashes : dashesPlaced true (first :: others) = true) :
    Glob.readMembers .first [] taken (first :: others ++ ']' :: more) =
      .ok (some (spans (first :: others), taken + others.length + 2)) := by
  by_cases hrange : ∃ y rest, others = '-' :: y :: rest
  · obtain ⟨y, rest, rfl⟩ := hrange
    simp only [members, List.mem_cons, forall_eq_or_imp] at hordered
    simp only [dashesPlaced, Bool.or_true, Bool.true_and] at hdashes
    simp only [List.mem_cons, not_or] at hclose
    have hy : ¬ y = ']' := fun h => hclose.2.1 h.symm
    have hxy : ¬ y < first := Char.not_lt.mpr hordered.1
    have hdash : ¬ '-' = ']' := by decide
    have hrest := readMembers_after rest ⟨first, y⟩ [] (taken + 3) more hclose.2.2 hordered.2
      hdashes
    simp only [List.cons_append, Glob.readMembers, hy, hxy, hdash, beq_iff_eq, if_false, if_true,
      hrest, spans_range, List.length_cons]
    simp
    omega
  · have hrange' : ∀ y rest, others ≠ '-' :: y :: rest := fun y rest h => hrange ⟨y, rest, h⟩
    rw [dashesPlaced_cons hrange', Bool.and_eq_true] at hdashes
    have hothers : ∀ m ∈ members others, m.1 ≤ m.2 := by
      intro m hm
      rw [members] at hordered
      · exact hordered m (List.mem_cons_of_mem _ hm)
      · exact hrange'
    have hrest := readMembers_after others ⟨first, first⟩ [] (taken + 1) more hclose hothers
      hdashes.2
    rw [List.cons_append, Glob.readMembers, hrest, spans_cons hrange']
    simp
    omega

/-- What a proper class spells is read as the class. -/
theorem readClass_of_proper {negated : Bool} {first : Char} {others : List Char}
    (hproper : (Element.oneOf negated (first :: others)).Proper) (hclose : ']' ∉ others)
    (hsign : negated = false → first ≠ '!') (more : List Char) :
    Glob.readClass (written negated (first :: others) ++ more) =
      .ok (some (.cls negated (spans (first :: others)),
        (written negated (first :: others)).length)) := by
  obtain ⟨-, hordered, hdashes, hcaret⟩ := hproper
  cases negated with
  | true =>
      have hread := readMembers_first first others 1 more hclose hordered hdashes
      simp only [List.cons_append] at hread
      simp [Glob.readClass, written, hread]
      omega
  | false =>
      have hread := readMembers_first first others 0 more hclose hordered hdashes
      have hcaret' : first ≠ '^' := by simpa using hcaret rfl
      simp only [List.cons_append] at hread
      simp [Glob.readClass, written, hsign rfl, hcaret', hread]

/-! ## A pattern is read again as its elements -/

theorem spellFrom_copied (front rest : List Char) :
    Wildcard.spellFrom front.length (front ++ rest) = front ++ Wildcard.spellFrom 0 rest := by
  induction front with
  | nil => rfl
  | cons c front ih =>
      rw [List.length_cons, List.cons_append, Wildcard.spellFrom, ih]
      rfl

theorem readFrom_skipped (d : Glob.Dialect) (classes : Bool) (front rest : List Char) :
    Glob.readFrom d front.length classes (front ++ rest) = Glob.readFrom d 0 classes rest := by
  induction front with
  | nil => rfl
  | cons c front ih =>
      rw [List.length_cons, List.cons_append, Glob.readFrom, ih]

theorem findIdx?_close (rest : List Char) :
    rest.findIdx? (· == ']') = (upToClose rest).map (·.1.length) := by
  induction rest with
  | nil => rfl
  | cons c rest ih =>
      rw [upToClose, List.findIdx?_cons, ih]
      by_cases hc : c = ']'
      · simp [hc]
      · simp [hc, Function.comp_def]

theorem findIdx?_classBody (rest : List Char) :
    ((rest.drop (if rest.head? == some ']' then 1 else 0)).findIdx? (· == ']')).map
        ((if rest.head? == some ']' then 1 else 0) + ·) =
      (classBody rest).map (·.1.length) := by
  cases rest with
  | nil => rfl
  | cons c rest =>
      rw [classBody]
      by_cases hc : c = ']'
      · simp [hc, findIdx?_close, Function.comp_def, Nat.add_comm]
      · simp [hc, List.findIdx?_cons, findIdx?_close, Function.comp_def]

theorem classLength_bang (rest : List Char) :
    Wildcard.classLength ('!' :: rest) =
      (classBody rest).map fun opened => opened.1.length + 2 := by
  have h := congrArg (Option.map (· + 2)) (findIdx?_classBody rest)
  simp only [Option.map_map, Function.comp_def] at h
  rw [← h, Wildcard.classLength]
  simp only [List.head?_cons, BEq.rfl, if_true, Nat.add_comm 1, List.drop_succ_cons, List.drop_zero]
  congr 1
  funext n
  omega

theorem classLength_of_ne_bang {rest : List Char} (hrest : rest.head? ≠ some '!') :
    Wildcard.classLength rest = (classBody rest).map fun opened => opened.1.length + 1 := by
  have h := congrArg (Option.map (· + 1)) (findIdx?_classBody rest)
  simp only [Option.map_map, Function.comp_def] at h
  rw [← h, Wildcard.classLength]
  simp only [beq_eq_false_iff_ne.mpr hrest, Bool.false_eq_true, if_false, Nat.zero_add,
    List.drop_zero]
  congr 1
  funext n
  omega

/-- A class is copied up to its `]`. -/
theorem classLength_eq (rest : List Char) :
    Wildcard.classLength rest =
      (openClass rest).map fun opened => rest.length - opened.2.length := by
  have hlength : ∀ {rest body more}, classBody rest = some (body, more) →
      rest.length - more.length = body.length + 1 := by
    intro rest body more h
    obtain ⟨first, others, -, rfl, -⟩ := classBody_spec h
    simp only [List.length_append, List.length_cons]
    omega
  unfold openClass
  split
  · rename_i rest
    rw [classLength_bang]
    cases h : classBody rest with
    | none => rfl
    | some opened =>
        have hopened := hlength h
        simp only [Option.map_some, List.length_cons, Option.some.injEq]
        omega
  · rename_i hbang
    rw [classLength_of_ne_bang ?_]
    · cases h : classBody rest with
      | none => rfl
      | some opened => simp [← hlength h]
    · intro h
      obtain ⟨more, hmore⟩ := List.head?_eq_some_iff.mp h
      exact hbang more hmore

/-- What an element becomes. A brace and a lone `[` become classes of their own. -/
def Element.glyph : Element → Glyph
  | .anyRun => .star
  | .anyOne => .anyOne
  | .oneOf negated body => .cls negated (spans body)
  | .char c =>
    if c ∈ ['\x7b', '\x7d', '['] then .cls false [⟨c, c⟩]
    else if c = ',' then .comma
    else .char c

theorem readFrom_class {front rest : List Char} {glyph : Glyph}
    (h : Glob.readClass (front ++ rest) = .ok (some (glyph, front.length))) :
    Glob.readFrom Wildcard.dialect 0 true ('[' :: (front ++ rest)) =
      glyph :: Glob.readFrom Wildcard.dialect 0 true rest := by
  rw [Glob.readFrom]
  simp only [Bool.not_true, Bool.false_eq_true, if_false, h, readFrom_skipped]

/-- A class with one member is read as this member. -/
theorem readFrom_single {c : Char} (hc : c ∈ ['\x7b', '\x7d', '[']) (rest : List Char) :
    Glob.readFrom Wildcard.dialect 0 true ('[' :: c :: ']' :: rest) =
      .cls false [⟨c, c⟩] :: Glob.readFrom Wildcard.dialect 0 true rest := by
  have hcases : c = '\x7b' ∨ c = '\x7d' ∨ c = '[' := by simpa using hc
  have hproper : (Element.oneOf false [c]).Proper := by
    rcases hcases with rfl | rfl | rfl <;> decide
  have hbang : c ≠ '!' := by
    rcases hcases with rfl | rfl | rfl <;> decide
  have hfront : [c, ']'] ++ rest = c :: ']' :: rest := rfl
  rw [← hfront]
  exact readFrom_class (readClass_of_proper hproper List.not_mem_nil (fun _ => hbang) rest)

/-- A class is spelled as it stands, and read as it stands. -/
theorem readFrom_openClass {rest more : List Char} {e : Element}
    (hopen : openClass rest = some (e, more)) (hproper : e.Proper) :
    Glob.readFrom Wildcard.dialect 0 true (Wildcard.spellFrom 0 ('[' :: rest)) =
      e.glyph :: Glob.readFrom Wildcard.dialect 0 true (Wildcard.spellFrom 0 more) := by
  obtain ⟨negated, first, others, rfl, rfl, hclose, hsign⟩ := openClass_spec hopen
  have hlength : Wildcard.classLength (written negated (first :: others) ++ more) =
      some (written negated (first :: others)).length := by
    rw [classLength_eq, hopen, List.length_append]
    simp
  rw [Wildcard.spellFrom]
  simp only [hlength, spellFrom_copied]
  exact readFrom_class (readClass_of_proper hproper hclose hsign _)

/-- A character that opens nothing stands for itself, or is a comma. -/
theorem readFrom_char {c : Char} (hstar : c ≠ '*') (hone : c ≠ '?') (hclass : c ≠ '[')
    (rest : List Char) :
    Glob.readFrom Wildcard.dialect 0 true (Wildcard.spellFrom 0 (c :: rest)) =
      (Element.char c).glyph ::
        Glob.readFrom Wildcard.dialect 0 true (Wildcard.spellFrom 0 rest) := by
  by_cases hbrace : c = '\x7b' ∨ c = '\x7d'
  · have hmem : c ∈ ['\x7b', '\x7d', '['] := by simp [hbrace, or_assoc.symm]
    rw [Wildcard.spellFrom, if_pos (by simpa using hbrace), readFrom_single hmem, Element.glyph,
      if_pos hmem]
  · rw [not_or] at hbrace
    have hmem : c ∉ ['\x7b', '\x7d', '['] := by simp [hbrace, hclass]
    rw [Wildcard.spellFrom, if_neg (by simpa using hbrace), if_neg (by simpa using hclass),
      Element.glyph, if_neg hmem]
    by_cases hcomma : c = ','
    · subst hcomma
      rfl
    · rw [if_neg hcomma]
      by_cases hescape : c = '\\'
      · subst hescape
        rfl
      · obtain ⟨hopenGroup, hcloseGroup⟩ := hbrace
        rw [Glob.readFrom]
        all_goals assumption

/-- The glob of a proper pattern reads as the elements of the pattern. -/
theorem glyphs_toGlob (pattern : List Char) (hproper : ∀ e ∈ elements pattern, e.Proper) :
    Glob.glyphs Wildcard.dialect (Wildcard.toGlob pattern) =
      (elements pattern).map Element.glyph := by
  show Glob.readFrom Wildcard.dialect 0 true (Wildcard.spellFrom 0 pattern) = _
  fun_induction elements pattern
  case case1 => rfl
  case case2 rest ih | case3 rest ih =>
    have hrest := ih fun e he => hproper e (List.mem_cons_of_mem _ he)
    rw [List.map_cons, ← hrest]
    rfl
  case case4 rest e more hopen hlt ih =>
    have hmore := ih fun e he => hproper e (List.mem_cons_of_mem _ he)
    rw [List.map_cons, ← hmore]
    exact readFrom_openClass hopen (hproper e List.mem_cons_self)
  case case5 rest hopen ih =>
    have hrest := ih fun e he => hproper e (List.mem_cons_of_mem _ he)
    rw [List.map_cons, ← hrest, Wildcard.spellFrom, classLength_eq, hopen]
    exact readFrom_single (by decide) _
  case case6 c rest hstar hone hclass ih =>
    have hrest := ih fun e he => hproper e (List.mem_cons_of_mem _ he)
    rw [List.map_cons, ← hrest]
    exact readFrom_char hstar hone hclass rest

/-! ## Elements and glyphs take the same bytes -/

theorem isPlain_glyph (e : Element) : e.glyph.isPlain = true := by
  cases e with
  | char c =>
      rw [Element.glyph]
      split
      · rfl
      · split <;> rfl
  | _ => rfl

theorem mem_of_mem_members {body : List Char} {m : Char × Char} (h : m ∈ members body) :
    m.1 ∈ body ∧ m.2 ∈ body := by
  fun_induction members body
  case case1 x y rest ih =>
    rcases List.mem_cons.mp h with rfl | h
    · simp
    · have := ih h
      simp [this]
  case case2 x rest _ ih =>
    rcases List.mem_cons.mp h with rfl | h
    · simp
    · have := ih h
      simp [this]
  case case3 => cases h

theorem encode_of_ascii {c : Char} (hc : c.toNat < 128) :
    Utf8.encode [c] = [UInt8.ofNat c.toNat] := by
  have h := Utf8.encodeChar_one hc
  rw [Char.ofNat_toNat] at h
  rw [Utf8.encode, List.flatMap_singleton, h]

/-- A byte is in one of the ranges of a span exactly if it lies between its ends. -/
theorem any_ranges_iff {x y : Char} (hx : x.toNat < 128) (hy : y.toNat < 128) (b : UInt8) :
    ((Span.mk x y).ranges.any fun r => r.1 ≤ b && b ≤ r.2) = true ↔
      x.toNat ≤ b.toNat ∧ b.toNat ≤ y.toNat := by
  have hbyte : ∀ c : Char, c.toNat < 128 → (UInt8.ofNat c.toNat).toNat = c.toNat := by
    intro c hc
    rw [UInt8.toNat_ofNat']
    omega
  unfold Span.ranges
  simp only [encode_of_ascii hx, encode_of_ascii hy]
  by_cases hxy : x = y
  · subst hxy
    simp [UInt8.le_iff_toNat_le, hbyte x hx]
  · simp [hxy, UInt8.le_iff_toNat_le, hbyte x hx, hbyte y hy]

theorem inClass_spans_iff {negated : Bool} {body : List Char} (hbody : ∀ c ∈ body, c.toNat < 128)
    (b : UInt8) :
    Glob.inClass negated ((spans body).flatMap Span.ranges) b = true ↔
      (InBody body b ↔ negated = false) := by
  have hany : (((spans body).flatMap Span.ranges).any fun r => r.1 ≤ b && b ≤ r.2) = true ↔
      InBody body b := by
    rw [List.any_flatMap, spans, List.any_map, List.any_eq_true]
    constructor
    · rintro ⟨m, hm, hb⟩
      have hmem := mem_of_mem_members hm
      exact ⟨m, hm, (any_ranges_iff (hbody _ hmem.1) (hbody _ hmem.2) b).mp hb⟩
    · rintro ⟨m, hm, hb⟩
      have hmem := mem_of_mem_members hm
      exact ⟨m, hm, (any_ranges_iff (hbody _ hmem.1) (hbody _ hmem.2) b).mpr hb⟩
  rw [Glob.inClass, bne_iff_ne, ← hany]
  cases negated <;> simp

/-- A class with one member takes what the member takes. -/
theorem single_takes_iff {c : Char} (hc : c.toNat < 128) (piece : Bytes) :
    (Glyph.cls false [⟨c, c⟩]).Takes piece ↔ piece = Utf8.encode [c] := by
  have hspans : spans [c] = [⟨c, c⟩] := rfl
  have hbody : ∀ b : UInt8, InBody [c] b ↔ b = UInt8.ofNat c.toNat := by
    intro b
    rw [← UInt8.toNat_inj, UInt8.toNat_ofNat', Nat.mod_eq_of_lt (by omega)]
    constructor
    · rintro ⟨m, hm, hlo, hhi⟩
      obtain rfl : m = (c, c) := by simpa [members] using hm
      exact Nat.le_antisymm hhi hlo
    · intro h
      exact ⟨(c, c), List.mem_singleton_self _, Nat.le_of_eq h.symm, Nat.le_of_eq h⟩
  show (∃ b, _ ∧ _) ↔ _
  simp only [← hspans, inClass_spans_iff (by simpa using hc : ∀ x ∈ [c], x.toNat < 128), hbody,
    encode_of_ascii hc, iff_true]
  simp

theorem glyph_takes_iff {e : Element} (he : e.Proper) (piece : Bytes) :
    e.glyph.Takes piece ↔ e.Takes piece := by
  cases e with
  | anyRun => exact Iff.rfl
  | anyOne => exact Iff.rfl
  | oneOf negated body =>
      show (∃ b, _ ∧ _) ↔ ∃ b, _ ∧ _
      simp only [inClass_spans_iff he.1]
  | char c =>
      rw [Element.glyph]
      split
      · rename_i hmem
        have hcases : c = '\x7b' ∨ c = '\x7d' ∨ c = '[' := by simpa using hmem
        refine single_takes_iff ?_ piece
        rcases hcases with rfl | rfl | rfl <;> decide
      · split
        · rename_i hcomma
          rw [hcomma]
          exact Iff.rfl
        · exact Iff.rfl

/-! ## Stars that meet -/

theorem eq_anyRun_of_glyph {e : Element} (h : e.glyph = .star) : e = .anyRun := by
  cases e with
  | anyRun => rfl
  | anyOne => cases h
  | oneOf negated body => cases h
  | char c =>
      rw [Element.glyph] at h
      split at h
      · cases h
      · split at h <;> cases h

theorem ne_anyRun_of_openClass {rest more : List Char} {e : Element}
    (h : openClass rest = some (e, more)) : e ≠ .anyRun := by
  obtain ⟨negated, first, others, rfl, -⟩ := openClass_spec h
  exact fun h => by cases h

theorem begins_with_star {pattern : List Char} {more : List Element}
    (h : elements pattern = .anyRun :: more) : ∃ rest, pattern = '*' :: rest := by
  fun_induction elements pattern
  case case2 rest _ => exact ⟨rest, rfl⟩
  case case4 e _ hopen _ _ => exact absurd (List.cons.inj h).1 (ne_anyRun_of_openClass hopen)
  all_goals cases h

/-- Runs that meet are spelled by stars that meet. -/
theorem stars_of_elements {pattern : List Char} (h : [.anyRun, .anyRun] <:+: elements pattern) :
    ['*', '*'] <:+: pattern := by
  fun_induction elements pattern
  case case1 => cases List.infix_nil.mp h
  case case2 rest ih =>
    rcases List.infix_cons_iff.mp h with hbegin | h
    · obtain ⟨more, hmore⟩ := (List.cons_prefix_cons.mp hbegin).2
      obtain ⟨rest', rfl⟩ := begins_with_star hmore.symm
      exact ⟨[], rest', rfl⟩
    · exact List.infix_cons (ih h)
  case case4 rest e more hopen _ ih =>
    rcases List.infix_cons_iff.mp h with hbegin | h
    · exact absurd (List.cons_prefix_cons.mp hbegin).1.symm (ne_anyRun_of_openClass hopen)
    · obtain ⟨negated, first, others, -, rfl, -⟩ := openClass_spec hopen
      exact List.infix_cons ((ih h).trans (List.suffix_append _ _).isInfix)
  case case3 rest ih | case5 rest _ ih | case6 rest _ _ _ ih =>
    rcases List.infix_cons_iff.mp h with hbegin | h
    · cases (List.cons_prefix_cons.mp hbegin).1
    · exact List.infix_cons (ih h)

theorem runs_of_stars {es : List Element} (h : [.star, .star] <:+: es.map Element.glyph) :
    [.anyRun, .anyRun] <:+: es := by
  obtain ⟨runs, hruns, heq⟩ := List.infix_map_iff.mp h
  obtain ⟨a, rest, rfl, ha, hrest⟩ := List.map_eq_cons_iff.mp heq.symm
  obtain ⟨b, rest, rfl, hb, hnil⟩ := List.map_eq_cons_iff.mp hrest
  obtain rfl := List.map_eq_nil_iff.mp hnil
  rwa [eq_anyRun_of_glyph ha, eq_anyRun_of_glyph hb] at hruns

/-! ## The patterns of an ignore list -/

theorem isIgnored_single {pattern : String} {glob : Glob}
    (h : Glob.ofText Wildcard.dialect (Wildcard.toGlob pattern.toList) = .ok glob) (name : String) :
    (IgnoreList.ofPatterns [pattern]).isIgnored name = glob.isMatch name := by
  have hcompiled : Compiled.ofPattern pattern = .wildcard glob := by
    simp only [Compiled.ofPattern, h]
  simp [IgnoreList.isIgnored_eq, hcompiled, Compiled.glob?]

/-- A proper pattern ignores every name that it matches, unless the name ends in
`..`; and if no two stars meet in it, it ignores nothing else. -/
theorem isIgnored_iff_matches {pattern : String} (hproper : Proper pattern) (name : String) :
    (Matches pattern name → ¬ Glob.EndsInParent (Bytes.ofText name) →
      (IgnoreList.ofPatterns [pattern]).isIgnored name = true) ∧
    (¬ ['*', '*'] <:+: pattern.toList →
      (IgnoreList.ofPatterns [pattern]).isIgnored name = true → Matches pattern name) := by
  have hglyphs := glyphs_toGlob pattern.toList hproper
  have hplain : ∀ g ∈ Glob.glyphs Wildcard.dialect (Wildcard.toGlob pattern.toList),
      g.isPlain = true := by
    intro g hg
    rw [hglyphs] at hg
    obtain ⟨e, -, rfl⟩ := List.mem_map.mp hg
    exact isPlain_glyph e
  obtain ⟨glob, hread, hmatch, honly⟩ := Glob.ofText_of_plain hplain
  have hcut : Cut Glyph.Takes (Glob.glyphs Wildcard.dialect (Wildcard.toGlob pattern.toList))
      (Bytes.ofText name) ↔ Matches pattern name := by
    rw [hglyphs]
    exact Glob.cut_map_iff fun e he => glyph_takes_iff (hproper e he)
  rw [isIgnored_single hread]
  constructor
  · intro hmatches hparent
    exact hmatch name hparent (hcut.mpr hmatches)
  · intro hapart hignored
    have hapart' : ¬ [.star, .star] <:+: (elements pattern.toList).map Element.glyph :=
      fun h => hapart (stars_of_elements (runs_of_stars h))
    exact hcut.mp (honly (hglyphs ▸ hapart') name hignored)

theorem elements_negatedClass :
    elements "[!a]\x7b*".toList = [.oneOf true ['a'], .char '\x7b', .anyRun] := by
  have hopen : openClass ['!', 'a', ']', '\x7b', '*'] =
      some (.oneOf true ['a'], ['\x7b', '*']) := by
    decide
  show elements ('[' :: ['!', 'a', ']', '\x7b', '*']) = _
  rw [elements_openClass hopen]
  simp [elements]

theorem isIgnored_negatedClass :
    (IgnoreList.ofPatterns ["[!a]\x7b*"]).isIgnored "x\x7b/" = true ∧
      Matches "[!a]\x7b*" "]\x7b" := by
  have hproper : Proper "[!a]\x7b*" := by
    rw [Proper, elements_negatedClass]
    decide
  constructor
  · have hcut : Cut Element.Takes [.oneOf true ['a'], .char '\x7b', .anyRun]
        ([0x78] ++ ([0x7B] ++ ([0x2F] ++ []))) :=
      Cut.cons ⟨0x78, rfl, by decide⟩ (Cut.cons rfl (Cut.cons trivial Cut.nil))
    have hmatches : Matches "[!a]\x7b*" "x\x7b/" := by
      rw [Matches, elements_negatedClass]
      exact hcut
    exact (isIgnored_iff_matches hproper "x\x7b/").1 hmatches (by decide)
  · exact (isIgnored_iff_matches hproper "]\x7b").2 (by decide) (by decide +kernel)

/-- A name that ends in `..` is not always ignored by a pattern that it matches. -/
theorem matches_not_enough : ¬ ∀ pattern name : String, Proper pattern → Matches pattern name →
    (IgnoreList.ofPatterns [pattern]).isIgnored name = true := by
  intro h
  have helements : elements "*.".toList = [.anyRun, .char '.'] := by
    simp [elements]
  have hproper : Proper "*." := by
    rw [Proper, helements]
    decide
  have hmatches : Matches "*." ".." := by
    have hcut : Cut Element.Takes [.anyRun, .char '.'] ([0x2E] ++ ([0x2E] ++ [])) :=
      Cut.cons trivial (Cut.cons rfl Cut.nil)
    rw [Matches, helements]
    exact hcut
  exact absurd (h "*." ".." hproper hmatches) (by decide +kernel)

end LintRunner.Fnmatch
