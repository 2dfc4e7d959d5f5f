import LintRunner.Options.Basic
import LintRunner.Proofs.Lexical
import LintRunner.ToolSearch

/-!
# Search lists

A tool has one name, or two where a version number was asked for, and one list of
directories to be looked for in. Whatever is asked, the tool that is found is the first
hit of the names in order, each of them in all directories of the list.
-/

namespace LintRunner.Host

variable {h h' : Host} {name version : String} {path : Path}

/-! ## Names of tools -/

/-- The name of a tool that is no path: plain characters without a slash. -/
def BareName (name : String) : Prop :=
  ∀ c ∈ name.toList, Utf8.Plain c ∧ c ≠ '/'

theorem bareName_of_all {name : String}
    (h : (name.toList.all fun c => decide (Utf8.Plain c) && c != '/') = true) : BareName name := by
  intro c hc
  have hboth := List.all_eq_true.mp h c hc
  rw [Bool.and_eq_true, decide_eq_true_iff, bne_iff_ne] at hboth
  exact hboth

theorem bareName_of_mem_defaults (hname : name ∈ [defaultOrchestrator, defaultLinter]) :
    BareName name := by
  rcases List.mem_pair.mp hname with rfl | rfl
  · exact bareName_of_all rfl
  · exact bareName_of_all rfl

theorem BareName.slash_not_mem (hname : BareName name) : '/' ∉ name.toList := by
  intro hslash
  exact (hname '/' hslash).2 rfl

theorem slash_not_mem_raw (hname : '/' ∉ name.toList) : Bytes.slash ∉ (Path.ofText name).raw := by
  rw [← Path.slash_mem_display_iff, Path.display_ofText]
  exact hname

theorem segments_of_slash_not_mem (hname : '/' ∉ name.toList) :
    (Path.ofText name).segments = [(Path.ofText name).raw] :=
  Text.splitOn_of_not_mem (slash_not_mem_raw hname)

/-- A name without a slash is no path, as a list of bytes either. -/
theorem isPath_of_slash_not_mem (hname : '/' ∉ name.toList) : isPath (.ofText name) = false := by
  unfold isPath Path.components
  rw [segments_of_slash_not_mem hname, decide_eq_false_iff_not, Nat.not_lt]
  simp only [List.filterMap_nil, List.append_nil]
  split
  · exact Nat.le_refl 1
  · split
    · exact Nat.le_refl 1
    · exact Option.length_toList_le

/-- With a version number behind it, a name has a dash and digits more. -/
theorem forall_mem_withVersion {p : Char → Prop} (hname : ∀ c ∈ name.toList, p c) (hdash : p '-')
    (hdigit : ∀ c, c.isDigit = true → p c) (major : Nat) :
    ∀ c ∈ (s!"{name}-{major}" : String).toList, p c := by
  intro c hc
  have hjoined : c ∈ (name ++ "-" ++ toString major).toList := hc
  rw [String.toList_append, String.toList_append, Nat.toString_eq_repr, Nat.toList_repr] at hjoined
  rcases List.mem_append.mp hjoined with hfront | hmajor
  · rcases List.mem_append.mp hfront with hc | hc
    · exact hname c hc
    · obtain rfl := List.mem_singleton.mp hc
      exact hdash
  · exact hdigit c (Nat.isDigit_of_mem_toDigits (by decide) (by decide) hmajor)

theorem plain_of_isDigit {c : Char} (hc : c.isDigit = true) : Utf8.Plain c ∧ c ≠ '/' := by
  have hrange : 48 ≤ c.toNat ∧ c.toNat ≤ 57 := by
    simpa [Char.isDigit, UInt32.le_iff_toNat_le] using hc
  have hslash : '/'.toNat = 47 := rfl
  refine ⟨⟨by omega, by omega⟩, ?_⟩
  rintro rfl
  omega

/-- The name of a tool with a version number behind it is bare as well. -/
theorem BareName.withVersion (hname : BareName name) (major : Nat) : BareName s!"{name}-{major}" :=
  forall_mem_withVersion hname (by decide) (fun _ => plain_of_isDigit) major

/-- The names that a tool may be found by. -/
def toolNames (name version : String) : List String :=
  match Version.major? version with
  | some major => [s!"{name}-{major}", name]
  | none => [name]

theorem bareName_of_mem_toolNames (hname : BareName name) {tool : String}
    (htool : tool ∈ toolNames name version) : BareName tool := by
  unfold toolNames at htool
  split at htool
  · rcases List.mem_pair.mp htool with rfl | rfl
    · exact hname.withVersion _
    · exact hname
  · rw [List.mem_singleton.mp htool]
    exact hname

/-! ## What is found -/

/-- The list of directories to look for a tool in. -/
def searchList (h : Host) (version : String) : Option Bytes :=
  if version.isEmpty || (Version.major? version).isSome then h.searchPath
  else some (Bytes.ofText version)

/-- The directories of the list, with the home directory in place. -/
def searched (h : Host) (version : String) : List Path :=
  h.directories (h.searchList version)

/-- What is said where no directory of the list has the tool. -/
def notFound (version : String) : ToolError :=
  if version.isEmpty then .noName
  else if (Version.major? version).isSome then .noNameOrVersion
  else .noPath

theorem find?_eq (hname : '/' ∉ name.toList) (dirs : Option Bytes) :
    h.find? (.ofText name) dirs =
      (h.candidates (.ofText name) dirs).find? fun path => h.files.isExecutable h.cwd path := by
  unfold find?
  rw [isPath_of_slash_not_mem hname, if_neg (by decide)]

theorem findTool_eq (h : Host) (name version : String) :
    h.findTool name version =
      match (toolNames name version).findSome? fun tool =>
        h.find? (.ofText tool) (h.searchList version) with
      | some path => .ok path
      | none => .error (notFound version) := by
  unfold findTool toolNames searchList notFound
  by_cases hempty : version = ""
  · -- the name is looked for as it is
    subst hempty
    show (match h.find? (.ofText name) h.searchPath with | some path => _ | none => _) =
      match [name].findSome? fun tool => h.find? (.ofText tool) h.searchPath with
        | some path => _ | none => _
    rw [List.findSome?_cons, List.findSome?_nil]
    cases h.find? (.ofText name) h.searchPath <;> rfl
  · have hnonempty : version.isEmpty = false := by simpa using hempty
    rw [hnonempty]
    cases Version.major? version with
    | none =>
        show (match h.find? (.ofText name) (some (Bytes.ofText version)) with
            | some path => _ | none => _) =
          match [name].findSome? fun tool =>
            h.find? (.ofText tool) (some (Bytes.ofText version)) with
            | some path => _ | none => _
        rw [List.findSome?_cons, List.findSome?_nil]
        cases h.find? (.ofText name) (some (Bytes.ofText version)) <;> rfl
    | some major =>
        show (match h.find? (.ofText s!"{name}-{major}") h.searchPath with
            | some path => _ | none => _) =
          match [s!"{name}-{major}", name].findSome? fun tool =>
            h.find? (.ofText tool) h.searchPath with
            | some path => _ | none => _
        rw [List.findSome?_cons, List.findSome?_cons, List.findSome?_nil]
        cases h.find? (.ofText s!"{name}-{major}") h.searchPath with
        | some path => rfl
        | none =>
            dsimp only
            cases h.find? (.ofText name) h.searchPath <;> rfl

/-- Where each name of a tool is found alike, so is the tool. -/
theorem findTool_congr
    (hfind : ∀ tool ∈ toolNames name version,
      h'.find? (.ofText tool) (h'.searchList version) =
        h.find? (.ofText tool) (h.searchList version)) :
    h'.findTool name version = h.findTool name version := by
  rw [findTool_eq, findTool_eq, ← List.head?_filterMap, ← List.head?_filterMap,
    List.filterMap_congr hfind]

/-- A tool that is found is an executable file under one of its names, in one of the
directories that are searched. -/
theorem findTool_spec (hname : BareName name) (hfound : h.findTool name version = .ok path) :
    ∃ dir ∈ h.searched version, ∃ tool ∈ toolNames name version,
      path = dir.join (.ofText tool) ∧ h.files.isExecutable h.cwd path = true := by
  rw [findTool_eq] at hfound
  split at hfound
  · rename_i found hsome
    cases hfound
    obtain ⟨tool, htool, hfind⟩ := List.exists_of_findSome?_eq_some hsome
    rw [find?_eq (bareName_of_mem_toolNames hname htool).slash_not_mem] at hfind
    have hexecutable : h.files.isExecutable h.cwd path = true := List.find?_some hfind
    obtain ⟨dir, hdir, rfl⟩ := List.mem_map.mp (List.mem_of_find?_eq_some hfind)
    exact ⟨dir, hdir, tool, htool, rfl, hexecutable⟩
  · cases hfound

end LintRunner.Host
