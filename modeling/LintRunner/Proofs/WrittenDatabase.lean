import Mathlib.Data.List.Forall2
import LintRunner.Proofs.WrittenUnit

/-!
# Written databases

A database is read from whatever JSON text writes it. The reader takes exactly the lists
in which each element gives a directory and a file, and keeps their order.
-/

namespace LintRunner

namespace CompilationDatabase

open Json BuildUnit

theorem read_congr {a b : Bytes} (h : skipSpace a = skipSpace b) :
    BuildUnit.read a = BuildUnit.read b := by
  rw [BuildUnit.read, BuildUnit.read, h]

theorem units?_congr {a b : Bytes} (h : skipSpace a = skipSpace b) (first : Bool) (more : Nat) :
    units? first (more + 1) a = units? first (more + 1) b := by
  have hnext : nextElement first a = nextElement first b := by
    rw [nextElement.eq_def, nextElement.eq_def, h]
  rw [units?, units?, hnext, h]

theorem units?_end {text rest : Bytes} (h : skipSpace text = closeList :: rest) (first : Bool)
    (more : Nat) : units? first (more + 1) text = .ok ([], rest) := by
  have hnext : nextElement first text = .ok none := by
    rw [nextElement.eq_def, h]
    rfl
  rw [units?, hnext, h]
  rfl

/-- Reading an element adds its unit before the units that are read behind it. -/
theorem units?_element {v : Value} {text : Bytes} (h : Written (.element v) text) {rest : Bytes}
    {first : Bool} {more : Nat} {start : Bytes} (hstart : Before first start (text ++ rest))
    (result : List BuildUnit × Bytes) :
    units? first (more + 2) start = .ok result ↔
      ∃ pair units, Accepts v pair ∧ units? false (more + 1) rest = .ok (units, result.2) ∧
        result.1 = ofTexts pair.1 pair.2 :: units := by
  obtain ⟨behind, hbehind, hwritten⟩ := read_written h rest
  obtain ⟨next, hnext, hsame⟩ := nextElement_written h hstart
  have hread : units? first (more + 2) start = BuildUnit.read (text ++ rest) >>= fun read =>
      units? false (more + 1) read.2 >>= fun tail => .ok (read.1 :: tail.1, tail.2) := by
    rw [units?, hnext, ← read_congr hsame]
    rfl
  rw [hread, bind_eq_ok]
  constructor
  · rintro ⟨read, hunit, htail⟩
    obtain ⟨pair, haccepts, rfl⟩ := (hwritten read).mp hunit
    obtain ⟨⟨units, left⟩, hunits, hresult⟩ := bind_eq_ok.mp htail
    cases hresult
    exact ⟨pair, units, haccepts, (units?_congr hbehind _ _).symm.trans hunits, rfl⟩
  · rintro ⟨pair, units, haccepts, hunits, hfirst⟩
    refine ⟨_, (hwritten _).mpr ⟨pair, haccepts, rfl⟩, ?_⟩
    refine bind_eq_ok.mpr ⟨_, (units?_congr hbehind _ _).trans hunits, ?_⟩
    rw [← hfirst]

/-- The elements are read to their end exactly if each gives a unit, and these are the
units in order. -/
theorem units?_written {vs : List Value} {text : Bytes} (h : Written (.elements vs) text)
    {rest : Bytes} {first : Bool} {calls : Nat} {start : Bytes}
    (hcalls : text.length + 1 < calls)
    (hstart : Before first start (text ++ closeList :: rest))
    (result : List BuildUnit × Bytes) :
    units? first calls start = .ok result ↔
      ∃ pairs, List.Forall₂ Accepts vs pairs ∧
        result = (pairs.map fun pair => ofTexts pair.1 pair.2, rest) := by
  induction vs generalizing text first calls start result with
  | nil => cases h
  | cons v vs ih =>
      obtain ⟨calls, rfl⟩ : ∃ c, calls = c + 2 := ⟨calls - 2, by omega⟩
      cases h with
      | last h =>
          refine (units?_element h hstart result).trans ?_
          have hend : units? false (calls + 1) (closeList :: rest) = .ok ([], rest) :=
            units?_end rfl false calls
          rw [hend]
          constructor
          · rintro ⟨pair, units, haccepts, hunits, hfirst⟩
            obtain ⟨rfl, hleft⟩ := Prod.mk.inj (Except.ok.inj hunits)
            exact ⟨[pair], .cons haccepts .nil, Prod.ext hfirst hleft.symm⟩
          · rintro ⟨_, ⟨⟩ | ⟨haccepts, ⟨⟩⟩, rfl⟩
            exact ⟨_, _, haccepts, rfl, rfl⟩
      | @next _ _ text more h hmore =>
          simp only [List.length_append, List.length_cons] at hcalls
          rw [List.append_assoc] at hstart
          have hmany : more.length + 1 < calls + 1 := by omega
          refine (units?_element h hstart result).trans ?_
          constructor
          · rintro ⟨pair, units, haccepts, hunits, hfirst⟩
            obtain ⟨pairs, hpairs, hresult⟩ := (ih hmore hmany (before_comma _) _).mp hunits
            obtain ⟨rfl, hleft⟩ := Prod.mk.inj hresult
            exact ⟨pair :: pairs, .cons haccepts hpairs, Prod.ext hfirst hleft⟩
          · rintro ⟨_, ⟨⟩ | ⟨haccepts, hpairs⟩, rfl⟩
            have hunits := (ih hmore hmany (before_comma _) _).mpr ⟨_, hpairs, rfl⟩
            exact ⟨_, _, haccepts, hunits, rfl⟩

/-! ## Databases -/

/-- A list is taken exactly if each of its elements gives a directory and a file. -/
theorem ofJson_written {vs : List Value} {text : Bytes} (h : Written (.element (.list vs)) text)
    (db : CompilationDatabase) :
    ofJson text = .ok db ↔
      ∃ pairs, List.Forall₂ Accepts vs pairs ∧
        db.units = pairs.map fun pair => ofTexts pair.1 pair.2 := by
  cases h with
  | @element _ before text behind hbefore h hbehind =>
      have hend : skipSpace behind = [] := by
        have := skipSpace_append hbehind []
        rwa [List.append_nil] at this
      obtain ⟨b, more, hbytes, hopen⟩ := h.opens
      obtain rfl : b = openList := hopen
      have hskip : skipSpace (before ++ (text ++ behind)) = openList :: (more ++ behind) := by
        rw [skipSpace_append hbefore, hbytes]
        rfl
      have hunits : ∀ read, units? true ((more ++ behind).length + 1) (more ++ behind) = .ok read ↔
          ∃ pairs, List.Forall₂ Accepts vs pairs ∧
            read = (pairs.map fun pair => ofTexts pair.1 pair.2, behind) := by
        intro read
        cases h with
        | @emptyList gap hgap =>
            obtain ⟨-, rfl⟩ := List.cons.inj hbytes
            have hclose : skipSpace (gap ++ [0x5D] ++ behind) = closeList :: behind := by
              rw [List.append_assoc, skipSpace_append hgap]
              rfl
            rw [units?_end hclose]
            constructor
            · rintro ⟨⟩
              exact ⟨[], .nil, rfl⟩
            · rintro ⟨_, ⟨⟩, rfl⟩
              rfl
        | @list vs text h =>
            obtain ⟨-, rfl⟩ := List.cons.inj hbytes
            refine units?_written h ?_ ?_ read
            · simp only [List.length_append, List.length_cons]
              omega
            · rw [List.append_assoc]
              rfl
      rw [ofJson, hskip]
      refine bind_eq_ok.trans ?_
      constructor
      · rintro ⟨read, hok, hdb⟩
        obtain ⟨pairs, hpairs, rfl⟩ := (hunits read).mp hok
        simp only [hend] at hdb
        cases hdb
        exact ⟨pairs, hpairs, rfl⟩
      · rintro ⟨pairs, hpairs, hdb⟩
        refine ⟨_, (hunits _).mpr ⟨pairs, hpairs, rfl⟩, ?_⟩
        simp only [hend, ← hdb]
        rfl

/-- An object with these texts for a directory and a file, each once, among other members
with texts for names. -/
def Describes : Value → String × String → Prop
  | .object ms, (directory, file) =>
      (∀ m ∈ ms, ∃ name, m.1 = unitsOf name) ∧
        named "directory" ms = [.text directory] ∧ named "file" ms = [.text file]
  | _, _ => False

/-- There is no string under this name, or something else. A list has no names and is left
out: both its elements may give the unit. -/
def Lacks (name : String) : Value → Prop
  | .object ms => named name ms = [] ∨ ∃ v ∈ named name ms, ∀ units, v ≠ .string units
  | .list _ => False
  | _ => True

theorem accepts_of_describes {v : Value} {pair : String × String} (h : Describes v pair) :
    Accepts v pair := by
  cases v with
  | object ms => exact .object h
  | _ => cases h

theorem not_accepts_of_lacks {v : Value} (h : Lacks "directory" v ∨ Lacks "file" v)
    (pair : String × String) : ¬ Accepts v pair := by
  have hstring : ∀ {name text ms}, named name ms = [.text text] → ¬ Lacks name (.object ms) := by
    rintro name text ms hnamed (hnone | ⟨v, hv, hother⟩)
    · rw [hnamed] at hnone
      cases hnone
    · rw [hnamed, List.mem_singleton] at hv
      exact hother _ hv
  intro haccepts
  cases haccepts with
  | object hgives =>
      rcases h with h | h
      · exact hstring hgives.2.1 h
      · exact hstring hgives.2.2 h
  | list => exact h.elim id id

/-- Reading undoes writing, whatever the order of the members, the blanks and the escapes,
and whatever else is in the objects. -/
theorem ofJson_undoes_writing {elements : List Value} {text : Bytes}
    (h : Written (.element (.list elements)) text) :
    (∀ pairs : List (String × String), List.Forall₂ Describes elements pairs →
      ∃ db, ofJson text = .ok db ∧ db.size = pairs.length ∧ (db.isEmpty = true ↔ pairs = []) ∧
        db.paths = pairs.map fun pair =>
          ((Path.ofText pair.1).join (.ofText pair.2)).normalize) ∧
    ((∃ v ∈ elements, Lacks "directory" v ∨ Lacks "file" v) →
      ∃ fault, ofJson text = .error fault) := by
  constructor
  · intro pairs hpairs
    have haccepts := hpairs.imp fun _ _ => accepts_of_describes
    refine ⟨⟨pairs.map fun pair => ofTexts pair.1 pair.2⟩,
      (ofJson_written h _).mpr ⟨pairs, haccepts, rfl⟩, List.length_map _, ?_, ?_⟩
    · rw [isEmpty, List.isEmpty_iff, List.map_eq_nil_iff]
    · rw [paths, List.map_map]
      rfl
  · rintro ⟨v, hv, hlacks⟩
    cases hread : ofJson text with
    | error fault => exact ⟨fault, rfl⟩
    | ok db =>
        obtain ⟨pairs, hpairs, -⟩ := (ofJson_written h db).mp hread
        have hall := (List.forall₂_and_left (p := fun v => ∃ pair, Accepts v pair) elements
          pairs).mp (hpairs.imp fun v pair haccepts => ⟨⟨pair, haccepts⟩, haccepts⟩)
        obtain ⟨pair, haccepts⟩ := hall.1 v hv
        exact absurd haccepts (not_accepts_of_lacks hlacks pair)

/-- Nested values before the file, escapes of three kinds, and a database without a
directory. -/
theorem ofJson_of_escaped :
    (∃ db, ofJson (Bytes.ofText
        ("[\x7b\"x\" :[-1.5E+3,[ ]],\"file\":\"\\u0061\\uD83d\\ude00.c\"," ++
          " \"directory\":\"\\/b\"\x7d ]")) = .ok db ∧ db.size = 1 ∧
        db.paths = [Path.ofText "/b/a😀.c"]) ∧
      ∃ fault, ofJson (Bytes.ofText "[\x7b\"file\":\"a.c\"\x7d]") = .error fault := by
  have hall : ∀ name ∈ ["x", "file", "directory", "a.c", ".c", "b"],
      (name.toList.all fun c => 0x20 ≤ c.toNat ∧ c ≠ '"' ∧ c ≠ '\\') = true := by decide
  have hname : ∀ name ∈ ["x", "file", "directory", "a.c", ".c", "b"],
      Content (unitsOf name) (Bytes.ofText name) := fun name hmem =>
    Content.ofText fun c hc => of_decide_eq_true (List.all_eq_true.mp (hall name hmem) c hc)
  have hblank : ∀ n, Blank (List.replicate n 0x20) := by
    intro n b hb
    rw [List.eq_of_mem_replicate hb]
    decide
  have helement : ∀ {v text}, Written (.value v) text → Written (.element v) text := by
    intro v text h
    have := Written.element (hblank 0) h (hblank 0)
    rwa [List.replicate_zero, List.nil_append, List.append_nil] at this
  have hdigit : ∀ b ∈ [(0x31 : UInt8), 0x33, 0x35], Digits [b] := by
    intro b hb
    refine ⟨List.cons_ne_nil _ _, List.forall_mem_singleton.mpr ?_⟩
    revert b
    simp
  have hwhole : Whole [0x31] := .digits (hdigit _ (by decide)) (by decide)
  have hfraction : Fraction [0x2E, 0x35] := .present (hdigit _ (by decide))
  have hexponent : Exponent (0x45 :: ([0x2B] ++ [0x33])) :=
    .present (.inr rfl) (by decide) (hdigit _ (by decide))
  have hsign : ([0x2D] : Bytes) ∈ [[], [0x2D]] := by decide
  have hnumber := helement (.number hsign hwhole hfraction hexponent)
  have hlist := helement (.list (.next hnumber (.last (helement (.emptyList (hblank 1))))))
  have hemoji : Content ([0x61] ++ ([0xD83D] ++ ([0xDE00] ++ unitsOf ".c"))) _ :=
    .cons (.unit (.mk (i := 0) (j := 0) (k := 6) (l := 1) (a := 0x30) (b := 0x30) (c := 0x36)
      (d := 0x31) (by decide) (by decide) (by decide) (by decide)))
    (.cons (.unit (.mk (i := 13) (j := 8) (k := 3) (l := 13) (a := 0x44) (b := 0x38) (c := 0x33)
      (d := 0x64) (by decide) (by decide) (by decide) (by decide)))
    (.cons (.unit (.mk (i := 13) (j := 14) (k := 0) (l := 0) (a := 0x64) (b := 0x65) (c := 0x30)
      (d := 0x30) (by decide) (by decide) (by decide) (by decide))) (hname ".c" (by decide))))
  have hslash : Content (Utf16.units '/' ++ unitsOf "b") _ :=
    .cons (.short (by decide : ((0x2F : UInt8), '/') ∈ shortEscapes)) (hname "b" (by decide))
  have hobject := Written.object (.nextMember
    (.member (hblank 0) (hname "x" (by decide)) (hblank 1) hlist)
    (.nextMember
      (.member (hblank 0) (hname "file" (by decide)) (hblank 0) (helement (.string hemoji)))
      (.lastMember (.member (hblank 1) (hname "directory" (by decide)) (hblank 0)
        (helement (.string hslash))))))
  have htext := helement (.list (.last (.element (hblank 0) hobject (hblank 1))))
  constructor
  · obtain ⟨db, hread, hsize, -, hpaths⟩ := (ofJson_undoes_writing htext).1 [("/b", "a😀.c")]
      (.cons ⟨List.forall_mem_cons.mpr ⟨⟨"x", rfl⟩, List.forall_mem_cons.mpr ⟨⟨"file", rfl⟩,
        List.forall_mem_cons.mpr ⟨⟨"directory", rfl⟩, nofun⟩⟩⟩, rfl, rfl⟩ .nil)
    refine ⟨db, ?_, hsize, hpaths.trans (by decide)⟩
    refine (congrArg ofJson ?_).trans hread
    decide
  · have hfile := Written.object (.lastMember (.member (hblank 0) (hname "file" (by decide))
      (hblank 0) (helement (.string (hname "a.c" (by decide))))))
    obtain ⟨fault, hread⟩ := (ofJson_undoes_writing (helement (.list (.last (helement hfile))))).2
      ⟨_, List.mem_singleton_self _, .inl (.inl rfl)⟩
    refine ⟨fault, (congrArg ofJson ?_).trans hread⟩
    decide

end CompilationDatabase

end LintRunner
