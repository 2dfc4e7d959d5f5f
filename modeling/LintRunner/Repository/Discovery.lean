import LintRunner.Host.Basic

/-!
# Finding the repository

From a path upward, each directory may hold a repository as `.git`, which may
also be a file that names the repository's directory, or may be a repository's
directory itself. The first one found is taken.
-/

namespace LintRunner

/-- A repository and the place of its own directory. -/
structure Checkout where
  place : Place
  repository : Repository

namespace Checkout

def gitName : Bytes := Bytes.ofText ".git"

/-- A path to a directory, with a slash behind it. -/
def directoryPath (place : Place) : Path :=
  place.path.join ⟨[]⟩

/-- The root of the work tree: the directory around the repository's own, even if a
`.git` file elsewhere led there. What a configuration may name instead, as for a
submodule, and the further work trees of a repository are not described. -/
def workTree? (c : Checkout) : Option Path :=
  if c.repository.bare then none else some (directoryPath c.place.dropLast)

/-- The target that a `.git` file names, as seen from its own directory. -/
def linkTarget? (content : Bytes) : Option Path :=
  let mark := Bytes.ofText "gitdir:"
  let content := Repository.trimRight content
  if mark.isPrefixOf content && mark.length < content.length then
    some ⟨(content.drop mark.length).dropWhile Repository.isBlank⟩
  else none

end Checkout

namespace Host

open Checkout

/-- The repository that a `.git` file leads to, if there is one. -/
def followLink (h : Host) (place : Place) (content : Bytes) :
    Except GitError (Option Checkout) :=
  match linkTarget? content with
  | none => .error (.malformedLink place.path)
  | some target =>
    let path := (Place.path place.dropLast).join target
    match h.files.resolve [] path with
    | .error e => .error (.unresolved path e)
    | .ok place => .ok ((h.repositories place).map (⟨place, ·⟩))

/-- The repository whose own directory, or link to it, stands at the place. -/
def checkoutAt (h : Host) (place : Place) : Except GitError (Option Checkout) :=
  match h.files.node place with
  | some .directory => .ok ((h.repositories place).map (⟨place, ·⟩))
  | some (.file content _) =>
    if place.getLast? == some gitName then h.followLink place content else .ok none
  | _ => .ok none

/-- The repository that `.git` in a place is, or else the place itself. -/
def checkoutIn (h : Host) (place : Place) : Except GitError (Option Checkout) := do
  match ← h.checkoutAt (place ++ [gitName]) with
  | some checkout => return some checkout
  | none => h.checkoutAt place

/-- Looks in a place and then in those around it. The names of the place stand
innermost first. -/
def discoverFrom (h : Host) : List Bytes → Except GitError (Option Checkout)
  | [] => h.checkoutIn []
  | name :: outer => do
    match ← h.checkoutIn (name :: outer).reverse with
    | some checkout => return some checkout
    | none => discoverFrom h outer

def discover (h : Host) (start : Path) : Except GitError Checkout :=
  if start.raw.contains 0 then .error .nulInPath
  else
    match h.files.resolve h.cwd start with
    | .error e => .error (.unresolved start e)
    | .ok place =>
      match h.discoverFrom place.reverse with
      | .ok (some checkout) => .ok checkout
      | .ok none => .error (.notFound start)
      | .error e => .error e

/-! ## Making repositories -/

/-- The directories of a new repository. -/
def gitDirectories : List String :=
  ["objects/info", "objects/pack", "refs/heads", "refs/tags", "hooks", "info"]

/-- Makes a repository at a path. One that is there is kept, and its head goes
back to the main branch. -/
def initRepository (h : Host) (path : Path) (bare : Bool) (fresh : Repository) : Host :=
  let own := if bare then path else path.join ⟨gitName⟩
  let (files, place) := h.files.createDirectory h.cwd own
  let files := gitDirectories.foldl
    (fun files dir => (files.createDirectory place (Path.ofText dir)).1) files
  let repository :=
    match h.repositories place with
    | some r => { r with head := fresh.head }
    | none => fresh
  { h with files }.withRepository place repository

end Host

end LintRunner
