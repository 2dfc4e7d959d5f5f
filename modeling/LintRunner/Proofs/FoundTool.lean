import LintRunner.Proofs.CallerDirectory
import LintRunner.Proofs.Lookups

/-!
# Tools that were found

A tool is looked for from the directory of the caller and started in another one.
What stands in a directory of the search list is handed over by an absolute path,
however the directory is written. An entry of the list that comes to nothing is the
exception: what is found there has no more than its name, and the name is looked for
once more where the tool is started.

A path is made absolute by its letters. The file that is started is the one that was
found, unless a step back behind a link takes the letters elsewhere.
-/

namespace LintRunner

open Bytes (slash dot)

namespace Path

/-- The name that is a component stands between two slashes. -/
theorem mem_segments_of_mem_components {p : Path} {bytes : Bytes}
    (h : .name bytes ∈ p.components) : bytes ∈ p.segments := by
  obtain ⟨front, hfront, hcomponents⟩ := components_eq p
  rw [hcomponents] at h
  rcases List.mem_append.mp h with h | h
  · exact absurd h (hfront bytes)
  · obtain ⟨piece, hpiece, hname⟩ := List.mem_map.mp h
    unfold namedComponent at hname
    split at hname
    · cases hname
    · cases hname
      exact (List.mem_filter.mp hpiece).1

end Path

namespace Host

variable {h : Host} {name version : String} {path : Path}

/-- All that the host names is a text. -/
structure Textual (h : Host) : Prop where
  cwd : ∀ name ∈ h.cwd, name.text?.isSome
  searchPath : ∀ dirs ∈ h.searchPath, dirs.text?.isSome
  home : ∀ home ∈ h.home, home.text?.isSome

/-- The program stands for the path as the caller sees it, lexically: it is named from
the root by the place where the letters of the path lead, and the same file is started
from everywhere, which is the one at that place. -/
structure Keeps (h : Host) (path : Path) (program : String) : Prop where
  rooted : Rooted program
  place : (Path.ofText program).resolve = (h.cwdPath.join path).resolve
  asFound : path.isAbsolute = true → Path.ofText program = path
  start : ∀ here, h.findProgram here (.ofText program) =
    h.programAt h.cwd (path.absolutize h.cwdPath)

/-! ## Directories that are texts -/

section

variable (htext : h.Textual)

include htext

theorem isText_cwd : h.cwdPath.IsText :=
  Path.isText_path htext.cwd

theorem isText_expandHome {dir : Path} (hdir : dir.IsText) : (h.expandHome dir).IsText := by
  have hhome : (Path.mk (h.home.getD [])).IsText := by
    cases hhome : h.home with
    | none => rfl
    | some home => exact htext.home home hhome
  have hnames : ∀ bytes, .name bytes ∈ dir.components → (Path.mk bytes).IsText := by
    intro bytes hbytes
    exact Bytes.isSome_text?_of_mem_splitOn (by decide) hdir
      (Path.mem_segments_of_mem_components hbytes)
  unfold expandHome
  split
  · rename_i b rest hcomponents
    split
    · refine List.foldlRecOn rest _ hhome ?_
      intro path hpath component hmem
      have hcomponent : component ∈ dir.components := by
        rw [hcomponents]
        exact List.mem_cons_of_mem _ hmem
      cases component with
      | name bytes => exact Path.isText_join hpath (hnames bytes hcomponent)
      | parent => exact Path.isText_join hpath rfl
      | root | current => exact hpath
    · exact hdir
  · exact hdir

theorem isText_of_mem_searched {dir : Path} (hdir : dir ∈ h.searched version) : dir.IsText := by
  have hlist : ∀ list ∈ h.searchList version, list.text?.isSome := by
    unfold searchList
    split
    · exact htext.searchPath
    · rintro list ⟨⟩
      rw [Bytes.text?_ofText]
      rfl
  unfold searched at hdir
  cases hsearched : h.searchList version with
  | none =>
      rw [hsearched] at hdir
      cases hdir
  | some list =>
      rw [hsearched] at hdir
      obtain ⟨entry, hentry, rfl⟩ := List.mem_map.mp hdir
      exact isText_expandHome htext
        (Bytes.isSome_text?_of_mem_splitOn (by decide) (hlist list hsearched) hentry)

end

/-! ## What is handed over -/

theorem slash_mem_join_iff {tool : String} (htool : BareName tool) (dir : Path) :
    slash ∈ (dir.join (.ofText tool)).raw ↔ dir.raw ≠ [] := by
  have hbare : slash ∉ (Path.ofText tool).raw := slash_not_mem_raw htool.slash_not_mem
  have hrelative : (Path.ofText tool).isAbsolute = false := by
    rw [Path.isAbsolute, beq_eq_false_iff_ne]
    intro hhead
    exact hbare (List.mem_of_head? hhead)
  rw [Path.join, hrelative, Bool.false_or]
  split
  · rename_i hempty
    exact iff_of_false hbare (by simpa using hempty)
  · rename_i hne
    have hdir : dir.raw ≠ [] := by simpa using hne
    split
    · rename_i hlast
      have hslash : slash ∈ dir.raw := List.mem_of_getLast? (by simpa using hlast)
      exact iff_of_true (List.mem_append_left _ hslash) hdir
    · exact iff_of_true (List.mem_append_right _ List.mem_cons_self) hdir

theorem findProgram_of_absolute (hpath : path.isAbsolute = true) (here here' : Place) :
    h.findProgram here path = h.programAt here' path := by
  obtain ⟨rest, hraw⟩ := Path.raw_of_isAbsolute hpath
  have hslash : path.raw.contains slash = true := by
    rw [hraw]
    exact List.contains_iff_mem.mpr List.mem_cons_self
  unfold findProgram programAt
  rw [hslash, FileTree.nodeAt_of_absolute h.files hpath here here', hraw]
  rfl

theorem program_of_found {o : Options} (hfound : h.findTool name o.clangVersion = .ok path) :
    (h.program o name name).1 = h.absolutizeProgram path.display := by
  unfold program resolveTool
  rw [bne_self_eq_false, if_neg (by decide), hfound]

theorem keeps_absolutizeProgram (hcwd : h.cwdPath.IsText) (hpath : path.IsText)
    (hslash : slash ∈ path.raw) : h.Keeps path (h.absolutizeProgram path.display) := by
  have hshown : h.absolutizeProgram path.display = (path.absolutize h.cwdPath).display := by
    unfold absolutizeProgram
    rw [if_pos (by simpa using (Path.slash_mem_display_iff path).mpr hslash),
      Path.ofText_display hpath]
  have hread : Path.ofText (h.absolutizeProgram path.display) = path.absolutize h.cwdPath := by
    rw [hshown]
    exact Path.ofText_display (Path.isText_absolutize hpath hcwd)
  have habsolute : (path.absolutize h.cwdPath).isAbsolute = true :=
    Path.isAbsolute_absolutize path h.cwd
  refine ⟨?_, ?_, ?_, ?_⟩
  · rw [hshown]
    exact Path.rooted_display habsolute
  · rw [hread]
    exact Path.resolve_absolutize path h.cwdPath
  · intro hgiven
    rw [hread, Path.absolutize, if_pos hgiven]
  · intro here
    rw [hread]
    exact findProgram_of_absolute habsolute here h.cwd

theorem absolutizeProgram_of_bare (hslash : slash ∉ path.raw) :
    h.absolutizeProgram path.display = path.display ∧ ¬ Rooted path.display := by
  have hbare : '/' ∉ path.display.toList := fun hmem =>
    hslash ((Path.slash_mem_display_iff path).mp hmem)
  refine ⟨?_, fun hrooted => hbare (List.mem_of_head? hrooted)⟩
  unfold absolutizeProgram
  rw [if_neg (by simpa using hbare)]

/-- A tool that is found by its default name is an executable file in one of the
directories that are searched, and it is handed over as the file it is exactly if
that directory does not come to nothing. Otherwise its name is all that is handed
over. -/
theorem program_keeps_iff {o : Options} (hname : name ∈ [defaultOrchestrator, defaultLinter])
    (htext : h.Textual) (hfound : h.findTool name o.clangVersion = .ok path) :
    ∃ dir ∈ h.searched o.clangVersion, ∃ tool ∈ toolNames name o.clangVersion,
      path = dir.join (.ofText tool) ∧
      h.files.isExecutable h.cwd path = true ∧
      (h.Keeps path (h.program o name name).1 ↔ dir.raw ≠ []) ∧
      (dir.raw = [] → (h.program o name name).1 = tool) := by
  have hbare := bareName_of_mem_defaults hname
  obtain ⟨dir, hdir, tool, htool, rfl, hexecutable⟩ := findTool_spec hbare hfound
  have hjoin := slash_mem_join_iff (bareName_of_mem_toolNames hbare htool) dir
  have hpath : (dir.join (.ofText tool)).IsText :=
    Path.isText_join (isText_of_mem_searched htext hdir) (Path.isText_ofText tool)
  refine ⟨dir, hdir, tool, htool, rfl, hexecutable, ?_, ?_⟩
  · rw [program_of_found hfound, ← hjoin]
    constructor
    · intro hkeeps
      by_contra hslash
      obtain ⟨hshown, hloose⟩ := absolutizeProgram_of_bare (h := h) hslash
      rw [hshown] at hkeeps
      exact hloose hkeeps.rooted
    · exact keeps_absolutizeProgram (isText_cwd htext) hpath
  · intro hempty
    have hslash : slash ∉ (dir.join (.ofText tool)).raw := by
      rw [hjoin]
      exact not_not_intro hempty
    have hname : dir.join (.ofText tool) = .ofText tool := by
      rw [Path.join, hempty, List.isEmpty_nil, Bool.or_true, if_pos rfl]
    rw [program_of_found hfound, (absolutizeProgram_of_bare hslash).1, hname,
      Path.display_ofText]

/-! The repository in `/w` once more. The caller is in `/v`, next to the orchestrator,
and the search list says where to look. -/

def callerPlace : Place := [Bytes.ofText "v"]

def searching (dirs : String) : Host :=
  { demo with
    files := (demo.files.put callerPlace .directory).put
      (callerPlace ++ [Bytes.ofText defaultOrchestrator]) (.program true fun _ _ => clean)
    cwd := callerPlace
    searchPath := some (Bytes.ofText dirs) }

theorem textual_searching (dirs : String) : (searching dirs).Textual := by
  refine ⟨?_, ?_, ?_⟩
  · intro name hname
    obtain rfl := List.mem_singleton.mp hname
    decide
  · rintro list ⟨⟩
    rw [Bytes.text?_ofText]
    rfl
  · intro home hhome
    cases hhome

/-- Seen from `/v` the directory is `.`, and the orchestrator in it keeps its place. -/
theorem keeps_of_dot :
    (searching ".").findTool defaultOrchestrator "" = .ok (.ofText "./run-clang-tidy") ∧
      (searching ".").Keeps (.ofText "./run-clang-tidy") "/v/run-clang-tidy" := by
  have hfound : (searching ".").findTool defaultOrchestrator ({} : Options).clangVersion =
      .ok (.ofText "./run-clang-tidy") := rfl
  obtain ⟨dir, hdir, -, -, -, -, hkeeps, -⟩ :=
    program_keeps_iff (by decide) (textual_searching ".") hfound
  obtain rfl := List.mem_singleton.mp hdir
  exact ⟨hfound, hkeeps.mpr (by decide)⟩

/-- An empty entry stands for `/v` too. The orchestrator is found there by its name, and
when it is started in `/w` there is no such file. -/
theorem not_keeps_of_empty_entry :
    (searching ":/bin").Textual ∧
      (searching ":/bin").findTool defaultOrchestrator "" = .ok (.ofText "run-clang-tidy") ∧
      ¬ (searching ":/bin").Keeps (.ofText "run-clang-tidy")
        ((searching ":/bin").program {} defaultOrchestrator defaultOrchestrator).1 ∧
      ((searching ":/bin").run {} { repoRoot := .ofText "/w" }).result =
        .error (.launch "run-clang-tidy" (.system .notFound)) := by
  have hprogram : ((searching ":/bin").program {} defaultOrchestrator defaultOrchestrator).1 =
      "run-clang-tidy" := by decide +kernel
  refine ⟨textual_searching ":/bin", rfl, ?_, rfl⟩
  rw [hprogram]
  intro hkeeps
  exact absurd hkeeps.rooted (by unfold Rooted; decide)

/-! ## The file that is started -/

theorem programAt_absolutize (hcwd : h.files.Stands h.cwd) (hforward : [dot, dot] ∉ path.segments)
    (hlength : (path.absolutize h.cwdPath).raw.length ≤ FileTree.maxPath)
    (hexecutable : h.files.isExecutable h.cwd path = true) :
    h.programAt h.cwd (path.absolutize h.cwdPath) = h.programAt h.cwd path := by
  obtain ⟨there, hthere⟩ := FileTree.resolve_of_isExecutable hexecutable
  have habsolute : h.files.resolve h.cwd (path.absolutize h.cwdPath) = .ok there :=
    FileTree.resolve_absolutize hcwd hforward hlength hthere
  unfold programAt FileTree.nodeAt
  rw [hthere, habsolute]

/-- A program that stands for a path without a step back is the file that was found at
that path, wherever it is started. -/
theorem Keeps.findProgram_eq {program : String} (hkeeps : h.Keeps path program)
    (hcwd : h.files.Stands h.cwd) (hforward : [dot, dot] ∉ path.segments)
    (hlength : (path.absolutize h.cwdPath).raw.length ≤ FileTree.maxPath)
    (hexecutable : h.files.isExecutable h.cwd path = true) (here : Place) :
    h.findProgram here (.ofText program) = h.programAt h.cwd path := by
  rw [hkeeps.start here]
  exact programAt_absolutize hcwd hforward hlength hexecutable

theorem ne_parent_of_mem_toolNames (hname : name ∈ [defaultOrchestrator, defaultLinter])
    {tool : String} (htool : tool ∈ toolNames name version) : tool ≠ ".." := by
  have hdefault : name ≠ ".." := by
    rintro rfl
    exact absurd hname (by decide)
  unfold toolNames at htool
  split at htool
  · rename_i major _
    rcases List.mem_pair.mp htool with rfl | rfl
    · intro hparent
      have hdash : '-' ∈ (name ++ "-" ++ toString major).toList := by simp
      have hletters : (name ++ "-" ++ toString major).toList = ['.', '.'] :=
        congrArg String.toList hparent
      rw [hletters] at hdash
      exact absurd hdash (by decide)
    · exact hdefault
  · rw [List.mem_singleton.mp htool]
    exact hdefault

/-- Where no directory that is searched comes to nothing or has a step back, the file that
is started is the one that was found. -/
theorem findProgram_of_found {o : Options} (hname : name ∈ [defaultOrchestrator, defaultLinter])
    (htext : h.Textual) (hfound : h.findTool name o.clangVersion = .ok path)
    (hdirs : ∀ dir ∈ h.searched o.clangVersion, dir.raw ≠ [] ∧ [dot, dot] ∉ dir.segments)
    (hcwd : h.files.Stands h.cwd)
    (hlength : (path.absolutize h.cwdPath).raw.length ≤ FileTree.maxPath) (here : Place) :
    h.findProgram here (.ofText (h.program o name name).1) = h.programAt h.cwd path := by
  have hbare := bareName_of_mem_defaults hname
  obtain ⟨dir, hdir, tool, htool, rfl, hexecutable⟩ := findTool_spec hbare hfound
  obtain ⟨hne, hforward⟩ := hdirs dir hdir
  have htoolBare := bareName_of_mem_toolNames hbare htool
  have hjoin := (slash_mem_join_iff htoolBare dir).mpr hne
  have hpath : (dir.join (.ofText tool)).IsText :=
    Path.isText_join (isText_of_mem_searched htext hdir) (Path.isText_ofText tool)
  have hstraight : [dot, dot] ∉ (dir.join (.ofText tool)).segments := by
    apply Path.forward_join hforward
    rw [segments_of_slash_not_mem htoolBare.slash_not_mem]
    intro hmem
    have hparent : Bytes.ofText tool = Bytes.ofText ".." := (List.mem_singleton.mp hmem).symm
    exact ne_parent_of_mem_toolNames hname htool (Bytes.ofText_injective hparent)
  rw [program_of_found hfound]
  exact (keeps_absolutizeProgram (isText_cwd htext) hpath hjoin).findProgram_eq hcwd hstraight
    hlength hexecutable here

theorem findProgram_of_dot :
    (searching ".").findProgram demoPlace (.ofText "/v/run-clang-tidy") =
      (searching ".").programAt callerPlace (.ofText "./run-clang-tidy") := by
  have hfound : (searching ".").findTool defaultOrchestrator ({} : Options).clangVersion =
      .ok (.ofText "./run-clang-tidy") := rfl
  have hdirs : ∀ dir ∈ (searching ".").searched ({} : Options).clangVersion,
      dir.raw ≠ [] ∧ [dot, dot] ∉ dir.segments := by decide
  have hcwd : (searching ".").files.Stands callerPlace :=
    ⟨rfl, by unfold Place.Proper; decide, rfl, by decide⟩
  exact findProgram_of_found (by decide) (textual_searching ".") hfound hdirs hcwd (by decide)
    demoPlace

/-! With a step back behind a link the two are different files. The link `l` in `/v` leads
to `/w/.git`, so the orchestrator that is found stands in `/w`; by its letters the path
leads to `/v`, and the orchestrator there is started. -/

def linked : Host :=
  { searching "l/.." with
    files := ((searching "l/..").files.put (callerPlace ++ [Bytes.ofText "l"])
        (.link (.ofText "/w/.git"))).put
      (demoPlace ++ [Bytes.ofText defaultOrchestrator]) (.program true fun _ _ => broken) }

example :
    linked.findTool defaultOrchestrator "" = .ok (.ofText "l/../run-clang-tidy") ∧
      (linked.programAt linked.cwd (.ofText "l/../run-clang-tidy")).map (· [] []) = .ok broken ∧
      (linked.program {} defaultOrchestrator defaultOrchestrator).1 = "/v/run-clang-tidy" ∧
      (linked.findProgram demoPlace (.ofText "/v/run-clang-tidy")).map (· [] []) = .ok clean := by
  decide +kernel

end Host

end LintRunner
