import LintRunner.CompilationDatabase
import LintRunner.Proofs.PassedOver

/-!
# Written units

The members of a unit may stand in any order among others, which are passed over, and its
strings may be escaped in any way. What one member adds is told once, and the whole object
follows by induction over its members. A list of both strings is a unit as well.
-/

namespace LintRunner

namespace Json

/-- A string that is a Unicode text. -/
def Value.text (text : String) : Value :=
  .string (unitsOf text)

/-- The values of the members with this name, in order. -/
def named (name : String) (members : List (List Nat × Value)) : List Value :=
  (members.filter fun m => m.1 = unitsOf name).map (·.2)

theorem Value.text_injective {x y : String} (h : Value.text x = Value.text y) : x = y :=
  unitsOf_injective (Value.string.inj h)

theorem bind_eq_ok {α β : Type} {x : Result α} {f : α → Result β} {b : β} :
    x >>= f = .ok b ↔ ∃ a, x = .ok a ∧ f a = .ok b := by
  cases x with
  | error fault => exact ⟨nofun, nofun⟩
  | ok a => exact ⟨fun h => ⟨a, rfl, h⟩, fun ⟨_, ha, hf⟩ => by cases ha; exact hf⟩

/-! ## Wanted strings -/

theorem wrongType_ne_ok {α : Type} (expected : String) (text : Bytes) (a : α) :
    wrongType expected text ≠ .ok a := by
  intro h
  cases text with
  | nil => cases h
  | cons b rest =>
      simp only [wrongType, here, ahead] at h
      split_ifs at h <;> simp [bind_eq_ok] at h

/-- A value is taken for a string exactly if it is a Unicode text. -/
theorem wantedString_written {v : Value} {text : Bytes} (h : Written (.element v) text)
    (rest : Bytes) : ∃ behind, skipSpace behind = skipSpace rest ∧ ∀ bytes left,
      wantedString (text ++ rest) = .ok (bytes, left) ↔
        left = behind ∧ ∃ t, v = .text t ∧ bytes = Bytes.ofText t := by
  cases h with
  | @element v before text behind hbefore h hbehind =>
      refine ⟨behind ++ rest, skipSpace_append hbehind rest, fun bytes left => ?_⟩
      obtain ⟨b, more, hbytes, hopen⟩ := h.opens
      have hread : wantedString (before ++ (text ++ behind) ++ rest) =
          if b == quote then string .keep (more ++ (behind ++ rest))
          else wrongType "a string" (b :: (more ++ (behind ++ rest))) := by
        rw [wantedString, List.append_assoc, skipSpace_append hbefore, List.append_assoc, hbytes,
          List.cons_append, skipSpace_cons hopen.isSpace]
      rw [hread]
      by_cases hb : b = quote
      · subst hb
        obtain ⟨units, rfl⟩ := hopen.kind.1 rfl
        cases h with
        | @string units content h =>
            obtain ⟨-, rfl⟩ := List.cons.inj hbytes
            rw [if_pos (beq_self_eq_true quote), List.append_assoc, List.singleton_append]
            refine (string_keep_iff h).trans ?_
            simp only [Value.text, Value.string.injEq]
      · rw [if_neg (by simpa using hb)]
        refine ⟨fun h => absurd h (wrongType_ne_ok _ _ _), ?_⟩
        rintro ⟨-, t, rfl, -⟩
        exact absurd hopen hb

/-- What is read behind a wanted string goes on from behind the element. -/
theorem wantedString_bind {v : Value} {text : Bytes} (h : Written (.element v) text)
    {rest : Bytes} {β : Type} {k : Bytes → Bytes → Result β}
    (hk : ∀ {a b}, skipSpace a = skipSpace b → ∀ value, k value a = k value b) (b : β) :
    (wantedString (text ++ rest) >>= fun read => k read.1 read.2) = .ok b ↔
      ∃ t, v = .text t ∧ k (Bytes.ofText t) rest = .ok b := by
  obtain ⟨behind, hbehind, hread⟩ := wantedString_written h rest
  rw [bind_eq_ok]
  constructor
  · rintro ⟨⟨bytes, left⟩, hwanted, hmore⟩
    obtain ⟨rfl, t, rfl, rfl⟩ := (hread bytes left).mp hwanted
    exact ⟨t, rfl, (hk hbehind _).symm.trans hmore⟩
  · rintro ⟨t, rfl, hmore⟩
    exact ⟨(Bytes.ofText t, behind), (hread _ _).mpr ⟨rfl, t, rfl, rfl⟩,
      (hk hbehind _).trans hmore⟩

/-! ## The next element or member -/

/-- The reader of a list or an object stands before `target`: at once if it is the first
piece, else before a comma. -/
def Before (first : Bool) (text target : Bytes) : Prop :=
  skipSpace text = if first then skipSpace target else comma :: target

theorem before_comma (target : Bytes) : Before false (comma :: target) target :=
  rfl

/-- The next element is found, with the blanks before it passed. -/
theorem nextElement_written {v : Value} {text : Bytes} (h : Written (.element v) text)
    {rest : Bytes} {first : Bool} {start : Bytes} (hstart : Before first start (text ++ rest)) :
    ∃ next, nextElement first start = .ok (some next) ∧
      skipSpace next = skipSpace (text ++ rest) := by
  obtain ⟨b, more, hopen, hb⟩ := h.element_opens rest
  have hne : (b == closeList) = false := beq_false_of_ne hb.ne_close
  refine ⟨b :: more, ?_, by rw [← hopen, skipSpace_skipSpace]⟩
  rw [nextElement.eq_def, hstart]
  cases first with
  | true =>
      simp only [if_true, hopen, hne, Bool.false_eq_true, if_false]
  | false =>
      have hcomma : (comma == closeList) = false := rfl
      simp only [Bool.false_eq_true, if_false, hopen, hne, hcomma, beq_self_eq_true, if_true]

theorem nextMember_before {first : Bool} {text target more : Bytes}
    (h : Before first text target) (htarget : skipSpace target = quote :: more) :
    nextMember first text = .ok (some more) := by
  rw [nextMember.eq_def, h]
  cases first with
  | true =>
      have hquote : (quote == closeObject) = false := rfl
      simp only [if_true, htarget, hquote, Bool.false_eq_true, if_false, beq_self_eq_true]
  | false =>
      have hcomma : (comma == closeObject) = false := rfl
      simp only [Bool.false_eq_true, if_false, htarget, hcomma, beq_self_eq_true, if_true]

end Json

namespace BuildUnit

open Json

/-! ## Objects -/

/-- How a member changes what is known of the directory and the file. -/
inductive Takes (m : List Nat × Value) :
    Option String × Option String → Option String × Option String → Prop
  | directory {d : String} {file : Option String} (hname : m.1 = unitsOf "directory")
      (hvalue : m.2 = .text d) : Takes m (none, file) (some d, file)
  | file {directory : Option String} {f : String} (hname : m.1 = unitsOf "file")
      (hvalue : m.2 = .text f) : Takes m (directory, none) (directory, some f)
  | other {name : String} {known : Option String × Option String} (hname : m.1 = unitsOf name)
      (hdirectory : name ≠ "directory") (hfile : name ≠ "file") : Takes m known known

/-- Reads on with what is known so far. -/
def membersFrom (known : Option String × Option String) :
    Bool → Nat → Bytes → Result (BuildUnit × Bytes) :=
  members (known.1.map Bytes.ofText) (known.2.map Bytes.ofText)

theorem misshapen_ne_ok {α : Type} (cause : Cause) (text : Bytes) (a : α) :
    misshapen cause text ≠ .ok a := by
  rw [misshapen]
  split <;> exact nofun

/-- A string that is wanted once is taken if there was none before. -/
theorem wanted_once {v : Value} {text : Bytes} (h : Written (.element v) text)
    {rest behind : Bytes} {given : Option String} {cause : Cause} {β : Type}
    {k : Bytes → Bytes → Result β}
    (hk : ∀ {a b}, skipSpace a = skipSpace b → ∀ value, k value a = k value b) (b : β) :
    (if given.isSome then misshapen cause behind
      else wantedString (text ++ rest) >>= fun read => k read.1 read.2) = .ok b ↔
      given = none ∧ ∃ t, v = .text t ∧ k (Bytes.ofText t) rest = .ok b := by
  cases given with
  | none => exact (wantedString_bind h hk b).trans ⟨fun hread => ⟨rfl, hread⟩, And.right⟩
  | some t =>
      refine ⟨fun h => absurd h (misshapen_ne_ok _ _ _), ?_⟩
      rintro ⟨⟨⟩, -⟩

theorem members_congr {a b : Bytes} (h : skipSpace a = skipSpace b)
    (directory file : Option Bytes) (first : Bool) (more : Nat) :
    members directory file first (more + 1) a = members directory file first (more + 1) b := by
  have hnext : nextMember first a = nextMember first b := by
    rw [nextMember.eq_def, nextMember.eq_def, h]
  have hend : ofMembers directory file a = ofMembers directory file b := by
    rw [ofMembers.eq_def, ofMembers.eq_def]
    simp only [misshapen.eq_def, h]
  rw [members, members, hnext, hend]

theorem ofText_beq (x y : String) : (Bytes.ofText x == Bytes.ofText y) = decide (x = y) := by
  rw [Bool.eq_iff_iff, beq_iff_eq, decide_eq_true_eq]
  exact ⟨Bytes.ofText_injective, congrArg Bytes.ofText⟩

theorem membersFrom_named {known : Option String × Option String} {first : Bool} {more : Nat}
    {text chars rest : Bytes} {name : String} (hnext : nextMember first text = .ok (some chars))
    (hname : string .keep chars = .ok (Bytes.ofText name, rest)) :
    membersFrom known first (more + 1) text =
      if name = "directory" then
        if known.1.isSome then misshapen (.duplicateField directoryKey) rest
        else behindColon rest >>= fun text => wantedString text >>= fun read =>
          members (some read.1) (known.2.map Bytes.ofText) false more read.2
      else if name = "file" then
        if known.2.isSome then misshapen (.duplicateField fileKey) rest
        else behindColon rest >>= fun text => wantedString text >>= fun read =>
          members (known.1.map Bytes.ofText) (some read.1) false more read.2
      else behindColon rest >>= skipValue >>= membersFrom known false more := by
  rw [membersFrom, members, hnext]
  simp only [bind, Except.bind, hname, ofText_beq, directoryKey, fileKey, decide_eq_true_eq,
    Option.isSome_map]
  cases behindColon rest <;> rfl

theorem takes_directory_iff {m : List Nat × Value} (hm : m.1 = unitsOf "directory")
    {directory file : Option String} {known : Option String × Option String} :
    Takes m (directory, file) known ↔
      directory = none ∧ ∃ d, m.2 = .text d ∧ known = (some d, file) := by
  constructor
  · rintro (⟨hname, hvalue⟩ | ⟨hname, hvalue⟩ | ⟨hname, hdirectory, hfile⟩)
    · exact ⟨rfl, _, hvalue, rfl⟩
    · exact absurd (unitsOf_injective (hm.symm.trans hname)) (by decide)
    · exact absurd (unitsOf_injective (hname.symm.trans hm)) hdirectory
  · rintro ⟨rfl, d, hvalue, rfl⟩
    exact .directory hm hvalue

theorem takes_file_iff {m : List Nat × Value} (hm : m.1 = unitsOf "file")
    {directory file : Option String} {known : Option String × Option String} :
    Takes m (directory, file) known ↔
      file = none ∧ ∃ f, m.2 = .text f ∧ known = (directory, some f) := by
  constructor
  · rintro (⟨hname, hvalue⟩ | ⟨hname, hvalue⟩ | ⟨hname, hdirectory, hfile⟩)
    · exact absurd (unitsOf_injective (hm.symm.trans hname)) (by decide)
    · exact ⟨rfl, _, hvalue, rfl⟩
    · exact absurd (unitsOf_injective (hname.symm.trans hm)) hfile
  · rintro ⟨rfl, f, hvalue, rfl⟩
    exact .file hm hvalue

theorem takes_other_iff {m : List Nat × Value} {name : String} (hm : m.1 = unitsOf name)
    (hdirectory : name ≠ "directory") (hfile : name ≠ "file")
    {known known' : Option String × Option String} : Takes m known known' ↔ known' = known := by
  constructor
  · rintro (⟨hname, hvalue⟩ | ⟨hname, hvalue⟩ | ⟨hname, hdirectory, hfile⟩)
    · exact absurd (unitsOf_injective (hm.symm.trans hname)) hdirectory
    · exact absurd (unitsOf_injective (hm.symm.trans hname)) hfile
    · rfl
  · rintro rfl
    exact .other hm hdirectory hfile

/-- Reading a member goes on behind it with what it adds, and fails if it adds nothing it
may add. -/
theorem membersFrom_member {m : List Nat × Value} {text : Bytes} (h : Written (.member m) text)
    {rest : Bytes} (hrest : Ends rest) {known : Option String × Option String} {first : Bool}
    {more : Nat} {start : Bytes} (hstart : Before first start (text ++ rest))
    (read : BuildUnit × Bytes) :
    membersFrom known first (more + 2) start = .ok read ↔
      ∃ known', Takes m known known' ∧ membersFrom known' false (more + 1) rest = .ok read := by
  cases h with
  | @member units v before content behind text hbefore hname hbehind h =>
      have hnext : nextMember first start =
          .ok (some (content ++ quote :: (behind ++ colon :: (text ++ rest)))) := by
        refine nextMember_before hstart ?_
        rw [member_append, skipSpace_append hbefore]
        rfl
      by_cases hunicode : ∃ name, units = unitsOf name
      · obtain ⟨name, rfl⟩ := hunicode
        have hkey := (string_keep_iff hname).mpr
          (⟨rfl, name, rfl, rfl⟩ : behind ++ colon :: (text ++ rest) = _ ∧ _)
        rw [membersFrom_named hnext hkey, behindColon_append hbehind]
        obtain ⟨directory, file⟩ := known
        by_cases hdirectory : name = "directory"
        · subst hdirectory
          simp only [takes_directory_iff (m := (unitsOf "directory", v)) rfl, if_true]
          refine (wanted_once h
            (k := fun value => members (some value) (file.map Bytes.ofText) false (more + 1))
            (fun hab value => members_congr hab _ _ _ _) read).trans ?_
          constructor
          · rintro ⟨rfl, d, rfl, hmore⟩
            exact ⟨_, ⟨rfl, d, rfl, rfl⟩, hmore⟩
          · rintro ⟨_, ⟨rfl, d, rfl, rfl⟩, hmore⟩
            exact ⟨rfl, d, rfl, hmore⟩
        rw [if_neg hdirectory]
        by_cases hfile : name = "file"
        · subst hfile
          simp only [takes_file_iff (m := (unitsOf "file", v)) rfl, if_true]
          refine (wanted_once h
            (k := fun value => members (directory.map Bytes.ofText) (some value) false
              (more + 1))
            (fun hab value => members_congr hab _ _ _ _) read).trans ?_
          constructor
          · rintro ⟨rfl, f, rfl, hmore⟩
            exact ⟨_, ⟨rfl, f, rfl, rfl⟩, hmore⟩
          · rintro ⟨_, ⟨rfl, f, rfl, rfl⟩, hmore⟩
            exact ⟨rfl, f, rfl, hmore⟩
        rw [if_neg hfile]
        simp only [takes_other_iff (m := (unitsOf name, v)) rfl hdirectory hfile, exists_eq_left]
        obtain ⟨left, hskip, hleft⟩ := skipValue_written h hrest
        show skipValue (text ++ rest) >>= membersFrom (directory, file) false (more + 1) =
          .ok read ↔ _
        rw [hskip]
        show membersFrom (directory, file) false (more + 1) left = .ok read ↔ _
        rw [membersFrom, members_congr hleft]
      · constructor
        · intro hread
          rw [membersFrom, members, hnext] at hread
          obtain ⟨_, hsome, hread⟩ := bind_eq_ok.mp hread
          obtain rfl := Except.ok.inj hsome
          obtain ⟨⟨key, left⟩, hkey, -⟩ := bind_eq_ok.mp hread
          obtain ⟨-, name, hunits, -⟩ := (string_keep_iff hname).mp hkey
          exact absurd ⟨name, hunits⟩ hunicode
        · rintro ⟨known', htakes, -⟩
          cases htakes with
          | directory hname _ | file hname _ | other hname _ _ =>
              exact absurd ⟨_, hname⟩ hunicode

/-- The members give this directory and this file, each once and not before. -/
def Gives (known : Option String × Option String) (ms : List (List Nat × Value))
    (directory file : String) : Prop :=
  (∀ m ∈ ms, ∃ name, m.1 = unitsOf name) ∧
    (known.1.map Value.text).toList ++ named "directory" ms = [.text directory] ∧
    (known.2.map Value.text).toList ++ named "file" ms = [.text file]

theorem gives_nil_iff {known : Option String × Option String} {directory file : String} :
    Gives known [] directory file ↔ known = (some directory, some file) := by
  have hone : ∀ {k : Option String} {text : String},
      (k.map Value.text).toList ++ [] = [.text text] ↔ k = some text := by
    intro k text
    cases k with
    | none => exact ⟨nofun, nofun⟩
    | some t =>
        refine ⟨fun h => ?_, fun h => by cases h; rfl⟩
        rw [Value.text_injective (List.cons.inj h).1]
  refine ⟨fun ⟨_, hdirectory, hfile⟩ => ?_, ?_⟩
  · exact Prod.ext (hone.mp hdirectory) (hone.mp hfile)
  · rintro rfl
    exact ⟨nofun, rfl, rfl⟩

theorem named_cons_of_eq {name : String} {m : List Nat × Value} (h : m.1 = unitsOf name)
    (ms : List (List Nat × Value)) : named name (m :: ms) = m.2 :: named name ms := by
  rw [named, List.filter_cons_of_pos (by simpa using h)]
  rfl

theorem named_cons_of_ne {name : String} {m : List Nat × Value} (h : m.1 ≠ unitsOf name)
    (ms : List (List Nat × Value)) : named name (m :: ms) = named name ms := by
  rw [named, List.filter_cons_of_neg (by simpa using h)]
  rfl

theorem gives_cons_iff {known : Option String × Option String} {m : List Nat × Value}
    {ms : List (List Nat × Value)} {directory file : String} :
    Gives known (m :: ms) directory file ↔
      ∃ known', Takes m known known' ∧ Gives known' ms directory file := by
  have hne : ∀ {name other : String}, m.1 = unitsOf name → name ≠ other → m.1 ≠ unitsOf other :=
    fun hname hother h => hother (unitsOf_injective (hname.symm.trans h))
  constructor
  · rintro ⟨hnames, hdirectory, hfile⟩
    obtain ⟨⟨name, hname⟩, hms⟩ := List.forall_mem_cons.mp hnames
    obtain ⟨directory', file'⟩ := known
    by_cases hisDirectory : name = "directory"
    · subst hisDirectory
      rw [named_cons_of_eq hname] at hdirectory
      rw [named_cons_of_ne (hne hname (by decide))] at hfile
      cases directory' with
      | some d => cases (List.cons.inj hdirectory).2
      | none =>
          obtain ⟨hvalue, hmore⟩ := List.cons.inj hdirectory
          exact ⟨_, .directory hname hvalue, hms, congrArg (_ :: ·) hmore, hfile⟩
    rw [named_cons_of_ne (hne hname hisDirectory)] at hdirectory
    by_cases hisFile : name = "file"
    · subst hisFile
      rw [named_cons_of_eq hname] at hfile
      cases file' with
      | some f => cases (List.cons.inj hfile).2
      | none =>
          obtain ⟨hvalue, hmore⟩ := List.cons.inj hfile
          exact ⟨_, .file hname hvalue, hms, hdirectory, congrArg (_ :: ·) hmore⟩
    rw [named_cons_of_ne (hne hname hisFile)] at hfile
    exact ⟨_, .other hname hisDirectory hisFile, hms, hdirectory, hfile⟩
  · rintro ⟨known', htakes, hms, hdirectory, hfile⟩
    cases htakes with
    | directory hname hvalue =>
        refine ⟨List.forall_mem_cons.mpr ⟨⟨_, hname⟩, hms⟩, ?_, ?_⟩
        · rw [named_cons_of_eq hname, hvalue]
          exact hdirectory
        · rw [named_cons_of_ne (hne hname (by decide))]
          exact hfile
    | file hname hvalue =>
        refine ⟨List.forall_mem_cons.mpr ⟨⟨_, hname⟩, hms⟩, ?_, ?_⟩
        · rw [named_cons_of_ne (hne hname (by decide))]
          exact hdirectory
        · rw [named_cons_of_eq hname, hvalue]
          exact hfile
    | other hname hisDirectory hisFile =>
        refine ⟨List.forall_mem_cons.mpr ⟨⟨_, hname⟩, hms⟩, ?_, ?_⟩
        · rw [named_cons_of_ne (hne hname hisDirectory)]
          exact hdirectory
        · rw [named_cons_of_ne (hne hname hisFile)]
          exact hfile

/-- The unit of a directory and a file. -/
def ofTexts (directory file : String) : BuildUnit :=
  ⟨.ofText directory, .ofText file⟩

theorem membersFrom_end {known : Option String × Option String} {more : Nat} {first : Bool}
    {text rest : Bytes} (h : skipSpace text = closeObject :: rest) (read : BuildUnit × Bytes) :
    membersFrom known first (more + 1) text = .ok read ↔
      ∃ directory file, known = (some directory, some file) ∧
        read = (ofTexts directory file, rest) := by
  have hnext : nextMember first text = .ok none := by
    rw [nextMember.eq_def, h]
    rfl
  obtain ⟨directory, file⟩ := known
  rw [membersFrom, members, hnext]
  show ofMembers (directory.map Bytes.ofText) (file.map Bytes.ofText) text = .ok read ↔ _
  cases directory with
  | none =>
      refine ⟨fun h => absurd h (misshapen_ne_ok _ _ _), ?_⟩
      rintro ⟨_, _, h, -⟩
      cases h
  | some d =>
      cases file with
      | none =>
          refine ⟨fun h => absurd h (misshapen_ne_ok _ _ _), ?_⟩
          rintro ⟨_, _, h, -⟩
          cases h
      | some f =>
          show Except.ok (ofTexts d f, (skipSpace text).tail) = .ok read ↔ _
          rw [h]
          constructor
          · rintro ⟨⟩
            exact ⟨d, f, rfl, rfl⟩
          · rintro ⟨_, _, ⟨⟩, rfl⟩
            rfl

/-- The members are read to their end exactly if they give both, and the unit is of them. -/
theorem membersFrom_written {ms : List (List Nat × Value)} {text : Bytes}
    (h : Written (.members ms) text) {rest : Bytes} {known : Option String × Option String}
    {first : Bool} {calls : Nat} {start : Bytes} (hcalls : text.length + 1 < calls)
    (hstart : Before first start (text ++ closeObject :: rest)) (read : BuildUnit × Bytes) :
    membersFrom known first calls start = .ok read ↔
      ∃ directory file, Gives known ms directory file ∧
        read = (ofTexts directory file, rest) := by
  induction ms generalizing text known first calls start with
  | nil => cases h
  | cons m ms ih =>
      obtain ⟨calls, rfl⟩ : ∃ c, calls = c + 2 := ⟨calls - 2, by omega⟩
      simp only [gives_cons_iff]
      cases h with
      | lastMember h =>
          rw [membersFrom_member h (ends_cons (by simp) rest) hstart]
          simp only [gives_nil_iff]
          constructor
          · rintro ⟨known', htakes, hread⟩
            obtain ⟨directory, file, hknown, hread⟩ := (membersFrom_end rfl read).mp hread
            exact ⟨directory, file, ⟨known', htakes, hknown⟩, hread⟩
          · rintro ⟨directory, file, ⟨known', htakes, hknown⟩, hread⟩
            exact ⟨known', htakes, (membersFrom_end rfl read).mpr ⟨directory, file, hknown, hread⟩⟩
      | @nextMember _ _ text more h hmore =>
          simp only [List.length_append, List.length_cons] at hcalls
          rw [List.append_assoc] at hstart
          have hnext : ∀ known',
              membersFrom known' false (calls + 1) (comma :: (more ++ closeObject :: rest)) =
                .ok read ↔ ∃ directory file, Gives known' ms directory file ∧
                  read = (ofTexts directory file, rest) :=
            fun known' => ih hmore (by omega) (before_comma _)
          rw [membersFrom_member h (ends_cons (.inl rfl) _) hstart]
          constructor
          · rintro ⟨known', htakes, hread⟩
            obtain ⟨directory, file, hgives, hread⟩ := (hnext known').mp hread
            exact ⟨directory, file, ⟨known', htakes, hgives⟩, hread⟩
          · rintro ⟨directory, file, ⟨known', htakes, hgives⟩, hread⟩
            exact ⟨known', htakes, (hnext known').mpr ⟨directory, file, hgives, hread⟩⟩

/-! ## Lists of both strings -/

/-- Reads the file of a list behind its directory. -/
def elementsFrom (directory text : Bytes) : Result (BuildUnit × Bytes) := do
  match ← nextElement false text with
  | none => tooShort 1 text
  | some text =>
    let (file, text) ← wantedString text
    return (⟨⟨directory⟩, ⟨file⟩⟩, ← endOfList text)

theorem wantedString_congr {a b : Bytes} (h : skipSpace a = skipSpace b) :
    wantedString a = wantedString b := by
  rw [wantedString, wantedString, h]

theorem elementsFrom_congr {a b : Bytes} (h : skipSpace a = skipSpace b) (directory : Bytes) :
    elementsFrom directory a = elementsFrom directory b := by
  have hnext : nextElement false a = nextElement false b := by
    rw [nextElement.eq_def, nextElement.eq_def, h]
  rw [elementsFrom, elementsFrom, hnext]
  simp only [tooShort, h]

theorem elements_eq {text : Bytes} {v : Value} {rest : Bytes} (h : Written (.element v) text) :
    elements (text ++ rest) =
      wantedString (text ++ rest) >>= fun read => elementsFrom read.1 read.2 := by
  have hstart : Before true (text ++ rest) (text ++ rest) := rfl
  obtain ⟨next, hnext, hsame⟩ := nextElement_written h hstart
  rw [elements, hnext, ← wantedString_congr hsame]
  rfl

/-- The file of a list is wanted behind the comma, and the list ends behind it. -/
theorem elementsFrom_comma {v : Value} {text rest : Bytes} (h : Written (.element v) text)
    (directory : Bytes) (read : BuildUnit × Bytes) :
    elementsFrom directory (comma :: (text ++ rest)) = .ok read ↔
      ∃ file, v = .text file ∧ (endOfList rest).map
        (fun behind => (⟨⟨directory⟩, ⟨Bytes.ofText file⟩⟩, behind)) = .ok read := by
  obtain ⟨next, hnext, hsame⟩ := nextElement_written h (before_comma (text ++ rest))
  have hread : elementsFrom directory (comma :: (text ++ rest)) =
      wantedString (text ++ rest) >>= fun read =>
        (endOfList read.2).map fun behind => (⟨⟨directory⟩, ⟨read.1⟩⟩, behind) := by
    rw [elementsFrom, hnext, ← wantedString_congr hsame]
    refine congrArg (wantedString next >>= ·) (funext fun read => ?_)
    cases hend : endOfList read.2 <;> simp only [hend] <;> rfl
  rw [hread]
  refine wantedString_bind h (k := fun file text =>
    (endOfList text).map fun behind => (⟨⟨directory⟩, ⟨file⟩⟩, behind)) (fun hab value => ?_) read
  rw [endOfList.eq_def, endOfList.eq_def, hab]

theorem endOfList_comma_ne_ok (text rest : Bytes) : endOfList (comma :: text) ≠ .ok rest := by
  have hspace : skipSpace (comma :: text) = comma :: text := rfl
  rw [endOfList.eq_def, hspace]
  simp only [show (comma == closeList) = false from rfl, Bool.false_eq_true, if_false,
    beq_self_eq_true, if_true]
  split
  · split <;> exact nofun
  · exact nofun

/-- The elements are read to their end exactly if they are two strings. -/
theorem elements_written {vs : List Value} {text : Bytes} (h : Written (.elements vs) text)
    (rest : Bytes) (read : BuildUnit × Bytes) :
    elements (text ++ closeList :: rest) = .ok read ↔
      ∃ directory file, vs = [.text directory, .text file] ∧
        read = (ofTexts directory file, rest) := by
  cases h with
  | @last v text h =>
      rw [elements_eq h]
      refine (wantedString_bind h (fun hab => elementsFrom_congr hab) read).trans ?_
      constructor
      · rintro ⟨d, -, hread⟩
        cases hread
      · rintro ⟨_, _, hvs, -⟩
        cases hvs
  | @next v vs text more h hmore =>
      rw [List.append_assoc, elements_eq h]
      refine (wantedString_bind h (fun hab => elementsFrom_congr hab) read).trans ?_
      cases hmore with
      | @last w text' h' =>
          show (∃ d, v = .text d ∧
            elementsFrom (Bytes.ofText d) (comma :: (more ++ closeList :: rest)) = .ok read) ↔ _
          simp only [elementsFrom_comma h']
          constructor
          · rintro ⟨d, rfl, f, rfl, hread⟩
            cases hread
            exact ⟨d, f, rfl, rfl⟩
          · rintro ⟨d, f, hvs, rfl⟩
            cases hvs
            exact ⟨d, rfl, f, rfl, rfl⟩
      | @next w ws text' more' h' hmore' =>
          show (∃ d, v = .text d ∧ elementsFrom (Bytes.ofText d)
            (comma :: (text' ++ comma :: more' ++ closeList :: rest)) = .ok read) ↔ _
          rw [List.append_assoc]
          simp only [elementsFrom_comma h']
          constructor
          · rintro ⟨d, rfl, f, rfl, hread⟩
            cases hend : endOfList (comma :: (more' ++ closeList :: rest)) with
            | ok left => exact absurd hend (endOfList_comma_ne_ok _ _)
            | error fault =>
                rw [List.cons_append, hend] at hread
                cases hread
          · rintro ⟨d, f, hvs, rfl⟩
            cases hvs
            cases hmore'

/-! ## Elements of a database -/

/-- The values that give a directory and a file: an object with each of them once, or the
list of both. -/
inductive Accepts : Value → String × String → Prop
  | object {ms : List (List Nat × Value)} {directory file : String}
      (h : Gives (none, none) ms directory file) : Accepts (.object ms) (directory, file)
  | list {directory file : String} :
      Accepts (.list [.text directory, .text file]) (directory, file)

/-- An object is read exactly if it gives both, and up to its end. -/
theorem members_object {ms : List (List Nat × Value)} {more : Bytes}
    (h : Written (.value (.object ms)) (openObject :: more)) (rest : Bytes)
    (result : BuildUnit × Bytes) :
    members none none true ((more ++ rest).length + 1) (more ++ rest) = .ok result ↔
      ∃ pair, Accepts (.object ms) pair ∧ result = (ofTexts pair.1 pair.2, rest) := by
  show membersFrom (none, none) true _ _ = .ok result ↔ _
  generalize hbytes : openObject :: more = bytes at h
  cases h with
  | @emptyObject gap hgap =>
      obtain ⟨-, rfl⟩ := List.cons.inj hbytes
      have hend : skipSpace (gap ++ [0x7D] ++ rest) = closeObject :: rest := by
        rw [List.append_assoc, skipSpace_append hgap]
        rfl
      refine (membersFrom_end hend result).trans ?_
      constructor
      · rintro ⟨_, _, hknown, -⟩
        cases hknown
      · rintro ⟨pair, ⟨hgives⟩, -⟩
        cases gives_nil_iff.mp hgives
  | @object ms text h =>
      obtain ⟨-, rfl⟩ := List.cons.inj hbytes
      rw [List.append_assoc]
      have hlength : text.length + 1 < (text ++ ([0x7D] ++ rest)).length + 1 := by
        simp only [List.length_append, List.length_cons]
        omega
      have hstart : Before true (text ++ ([0x7D] ++ rest)) (text ++ closeObject :: rest) := rfl
      refine (membersFrom_written h hlength hstart result).trans ?_
      constructor
      · rintro ⟨directory, file, hgives, hresult⟩
        exact ⟨(directory, file), .object hgives, hresult⟩
      · rintro ⟨pair, ⟨hgives⟩, hresult⟩
        exact ⟨_, _, hgives, hresult⟩

/-- A list is read exactly if it is of two strings, and up to its end. -/
theorem elements_list {vs : List Value} {more : Bytes}
    (h : Written (.value (.list vs)) (openList :: more)) (rest : Bytes)
    (result : BuildUnit × Bytes) :
    elements (more ++ rest) = .ok result ↔
      ∃ pair, Accepts (.list vs) pair ∧ result = (ofTexts pair.1 pair.2, rest) := by
  generalize hbytes : openList :: more = bytes at h
  cases h with
  | @emptyList gap hgap =>
      obtain ⟨-, rfl⟩ := List.cons.inj hbytes
      have hnext : nextElement true (gap ++ [0x5D] ++ rest) = .ok none := by
        rw [nextElement.eq_def, List.append_assoc, skipSpace_append hgap]
        rfl
      rw [elements, hnext]
      constructor
      · exact nofun
      · rintro ⟨pair, haccepts, -⟩
        cases haccepts
  | @list vs text h =>
      obtain ⟨-, rfl⟩ := List.cons.inj hbytes
      rw [List.append_assoc]
      refine (elements_written h rest result).trans ?_
      constructor
      · rintro ⟨directory, file, rfl, hresult⟩
        exact ⟨(directory, file), .list, hresult⟩
      · rintro ⟨_, ⟨⟩, hresult⟩
        exact ⟨_, _, rfl, hresult⟩

/-- An element is read exactly if it gives a directory and a file, and to its end. -/
theorem read_written {v : Value} {text : Bytes} (h : Written (.element v) text) (rest : Bytes) :
    ∃ behind, skipSpace behind = skipSpace rest ∧ ∀ result,
      read (text ++ rest) = .ok result ↔
        ∃ pair, Accepts v pair ∧ result = (ofTexts pair.1 pair.2, behind) := by
  cases h with
  | @element v before text behind hbefore h hbehind =>
      refine ⟨behind ++ rest, skipSpace_append hbehind rest, fun result => ?_⟩
      obtain ⟨b, more, rfl, hopen⟩ := h.opens
      rw [read, List.append_assoc, skipSpace_append hbefore, List.append_assoc,
        List.cons_append, skipSpace_cons hopen.isSpace]
      by_cases hobject : b = openObject
      · subst hobject
        obtain ⟨ms, rfl⟩ := hopen.kind.2.2.1 rfl
        exact members_object h (behind ++ rest) result
      by_cases hlist : b = openList
      · subst hlist
        obtain ⟨vs, rfl⟩ := hopen.kind.2.1 rfl
        exact elements_list h (behind ++ rest) result
      simp only [beq_false_of_ne hobject, beq_false_of_ne hlist, Bool.false_eq_true, if_false]
      refine ⟨fun h => absurd h (wrongType_ne_ok _ _ _), ?_⟩
      rintro ⟨pair, haccepts, -⟩
      cases haccepts with
      | object _ => exact absurd hopen hobject
      | list => exact absurd hopen hlist

end BuildUnit

end LintRunner
