import LintRunner.Proofs.CallerDirectory
import LintRunner.Proofs.KeptPatterns

/-!
# What an ignore file may hold

Any text will do for an ignore file: each of its lines becomes a pattern of some
kind or is left out, and the run goes on. Bytes that are no text end the run, even
where they stand in a comment.
-/

namespace LintRunner

theorem Job.result_bind_of_ok {α β : Type} {job : Job α} {a : α} (h : job.result = .ok a)
    (f : α → Job β) : (job >>= f).result = (f a).result := by
  rw [result_bind, h]
  rfl

namespace Host

variable {h : Host} {o : Options} {path : Path} {content : Bytes} {checkout : Checkout}
  {workTree : Path} {committed : List String}

theorem readText_of_read (hread : h.files.read h.cwd path = .ok content) :
    h.files.readText h.cwd path =
      if (Utf8.decode? content).isSome then .ok content else .error .notUtf8 := by
  unfold FileTree.readText
  rw [hread]
  rfl

theorem ignorePatterns_of_text {text : List Char} (hread : h.files.read h.cwd path = .ok content)
    (htext : Utf8.decode? content = some text) :
    h.ignorePatterns path = .ok (IgnoreList.patternsOf text) := by
  unfold ignorePatterns
  rw [readText_of_read hread, htext, Option.isSome_some, if_pos rfl]
  exact congrArg (Except.ok ∘ IgnoreList.patternsOf) (Utf8.decodeLossy_of_decode? htext)

theorem readIgnoreList_of_text {text : List Char} (hread : h.files.read h.cwd path = .ok content)
    (htext : Utf8.decode? content = some text) :
    (h.readIgnoreList path).result = .ok (.ofPatterns (IgnoreList.patternsOf text)) :=
  (readIgnoreList_gives (p := fun _ => True) (ignorePatterns_of_text hread htext)).result

theorem readIgnoreList_of_no_text (hread : h.files.read h.cwd path = .ok content)
    (htext : Utf8.decode? content = none) :
    h.readIgnoreList path = Job.fail (.io .notUtf8) := by
  unfold readIgnoreList
  rw [readText_of_read hread, htext]
  rfl

/-- Where the ignore file cannot be read, nothing is selected. -/
theorem result_select_of_failed {e : RunError}
    (hdiscover : h.discover (o.repoRoot.absolutize h.cwdPath) = .ok checkout)
    (hworkTree : checkout.workTree? = some workTree)
    (hcommitted : checkout.repository.committedFiles.2 = .ok committed)
    (hfailed : h.readIgnoreList (workTree.normalize.join (.ofText o.ignoreFile)) = Job.fail e) :
    (h.select o).result = .error e := by
  unfold select
  rw [hdiscover]
  refine (Job.result_bind_of_ok rfl _).trans ?_
  refine (Job.result_bind_of_ok rfl _).trans ?_
  simp only [hworkTree]
  refine (Job.result_bind_of_ok rfl _).trans ?_
  refine (Job.result_bind_of_ok rfl _).trans ?_
  refine (Job.result_bind_of_ok (Job.Gives.ofExcept (p := fun _ => True) hcommitted).result _).trans ?_
  rw [hfailed]
  rfl

/-- An ignore file that can be read gives a list exactly if its bytes are a text,
whatever the lines of the text are. Each name that the list has is reported with a
pattern of it, and a run that comes to the file goes on to the words of its command.
Bytes that are no text end the run. -/
theorem readIgnoreList_ok_iff_text (hread : h.files.read h.cwd path = .ok content) :
    ((∃ list, (h.readIgnoreList path).result = .ok list) ↔ (Utf8.decode? content).isSome) ∧
    (∀ list, (h.readIgnoreList path).result = .ok list → ∀ name i,
      list.matchIndex? name = some i → ∃ pattern, list.patterns[i]? = some pattern) ∧
    ∀ (o : Options) (checkout : Checkout) (workTree : Path) (committed : List String),
      h.discover (o.repoRoot.absolutize h.cwdPath) = .ok checkout →
      checkout.workTree? = some workTree →
      checkout.repository.committedFiles.2 = .ok committed →
      path = workTree.normalize.join (.ofText o.ignoreFile) →
      (∀ list, (h.readIgnoreList path).result = .ok list → ∀ t,
        (h.prepare t o).result =
          .ok (h.vector o workTree.normalize (list.keepSources committed), workTree.normalize)) ∧
      (Utf8.decode? content = none → ∀ sink, (h.run sink o).result = .error (.io .notUtf8)) := by
  cases htext : Utf8.decode? content with
  | none =>
      have hfailed := readIgnoreList_of_no_text hread htext
      have hno : ∀ list, (h.readIgnoreList path).result ≠ .ok list := by
        intro list hlist
        rw [hfailed] at hlist
        cases hlist
      refine ⟨iff_of_false ?_ (by decide), ?_, ?_⟩
      · rintro ⟨list, hlist⟩
        exact hno list hlist
      · intro list hlist
        exact absurd hlist (hno list)
      · rintro o checkout workTree committed hdiscover hworkTree hcommitted rfl
        refine ⟨fun list hlist => absurd hlist (hno list), ?_⟩
        intro _ sink
        have hselect := result_select_of_failed hdiscover hworkTree hcommitted hfailed
        have hprepare := result_prepare (h := h) (h.threshold o) o
        rw [hselect] at hprepare
        rw [run_of_failed sink hprepare]
  | some text =>
      have hresult := readIgnoreList_of_text hread htext
      refine ⟨iff_of_true ⟨_, hresult⟩ rfl, ?_, ?_⟩
      · intro list hlist name i hi
        obtain rfl := Except.ok.inj (hresult.symm.trans hlist)
        exact ⟨_, List.getElem?_eq_getElem (IgnoreList.matchIndex?_lt hi)⟩
      · rintro o checkout workTree committed hdiscover hworkTree hcommitted rfl
        refine ⟨?_, fun hnone => by cases hnone⟩
        intro list hlist t
        obtain rfl := Except.ok.inj (hresult.symm.trans hlist)
        have hselect := select_gives (p := AsksVersion) hdiscover hworkTree hcommitted
          (ignorePatterns_of_text hread htext)
        rw [IgnoreList.keepSources_eq]
        exact (prepare_gives t hselect).result

/-! The repository in `/w` with other ignore files. -/

def ignoring (content : Bytes) : Host :=
  { demo with
    files := demo.files.put (demoPlace ++ [Bytes.ofText ".clang-tidy.ignore"]) (.file content false) }

/-- A span the wrong way round, the same with a dangling escape, an open class, and
a comment. -/
def oddLines : Bytes :=
  Bytes.ofText "[z-a]\n[z-a]\\\n[a\n# *\n"

theorem prepare_of_oddLines :
    (ignoring oddLines).files.read demoPlace (.ofText "/w/.clang-tidy.ignore") = .ok oddLines ∧
      ∀ t, ((ignoring oddLines).prepare t {}).result =
        .ok (["run-clang-tidy", "-p", "/w/build", "-clang-tidy", "clang-tidy", "a.c", "gen_b.c"],
          .ofText "/w") := by
  have hread : (ignoring oddLines).files.read (ignoring oddLines).cwd
      (.ofText "/w/.clang-tidy.ignore") = .ok oddLines := rfl
  have hdiscover : (ignoring oddLines).discover
      ((Path.ofText ".").absolutize (ignoring oddLines).cwdPath) =
        .ok ⟨demoPlace ++ [Checkout.gitName], demoRepository⟩ := rfl
  have hcommitted : demoRepository.committedFiles.2 = .ok ["a.c", "gen_b.c", "notes.md"] := rfl
  have hlist : ((ignoring oddLines).readIgnoreList (.ofText "/w/.clang-tidy.ignore")).result =
      .ok (.ofPatterns ["[z-a]", "[z-a]\\", "[a"]) := rfl
  have hfiles : (IgnoreList.ofPatterns ["[z-a]", "[z-a]\\", "[a"]).keepSources
      ["a.c", "gen_b.c", "notes.md"] = ["a.c", "gen_b.c"] := by decide +kernel
  obtain ⟨-, -, hrun⟩ := readIgnoreList_ok_iff_text hread
  refine ⟨hread, ?_⟩
  intro t
  rw [(hrun {} _ _ _ hdiscover rfl hcommitted rfl).1 _ hlist t, hfiles]
  rfl

/-- A comment with a byte that is no text. -/
def brokenComment : Bytes :=
  [0x23, 0xFF, 0x0A]

theorem run_of_brokenComment :
    (ignoring brokenComment).files.read demoPlace (.ofText "/w/.clang-tidy.ignore") =
        .ok brokenComment ∧
      ((ignoring brokenComment).readIgnoreList (.ofText "/w/.clang-tidy.ignore")).result =
        .error (.io .notUtf8) ∧
      ((ignoring brokenComment).run {} {}).result = .error (.io .notUtf8) :=
  ⟨rfl, rfl, rfl⟩

end Host

end LintRunner
