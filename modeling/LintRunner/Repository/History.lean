import LintRunner.Repository.Basic

/-!
# Changing a repository

Commits, references and the head of a repository, as other programs leave them
behind.
-/

namespace LintRunner.Repository

def mainBranch : Bytes := Bytes.ofText "refs/heads/main"

/-- A new repository, without a commit. -/
def fresh (bare : Bool) : Repository :=
  ⟨bare, .symbolic mainBranch, []⟩

def setReference (r : Repository) (name : Bytes) (object : Object) : Repository :=
  { r with references := (name, object) :: r.references.filter (·.1 != name) }

def setHead (r : Repository) (head : Head) : Repository :=
  { r with head }

/-- The object of the head, with tags taken off. -/
def untag : Object → Object
  | .tag target => untag target
  | object => object

def headCommit (r : Repository) : Except GitError Object := do
  match ← r.headObject, r.head with
  | some object, _ => return untag object
  | none, .symbolic name => throw (.unborn name)
  | none, _ => throw .danglingHead

/-- A commit of the tree, behind the one at the head if there is one. -/
def commit (r : Repository) (tree : Tree) : Repository :=
  let object :=
    match r.headCommit with
    | .ok parent => .laterCommit tree parent
    | .error _ => .firstCommit tree
  match r.head with
  | .symbolic name => r.setReference name object
  | _ => r.setHead (.direct object)

def ancestor : Nat → Object → Except GitError Object
  | 0, object => .ok object
  | back + 1, .laterCommit _ parent => ancestor back parent
  | _ + 1, _ => .error .noParent

/-- Moves the head to an ancestor of its commit, away from any reference. -/
def detach (r : Repository) (back : Nat) : Except GitError Repository := do
  return r.setHead (.direct (← ancestor back (← r.headCommit)))

/-- Points the head at a reference, which need not exist. -/
def pointHead (r : Repository) (reference : Bytes) : Except GitError Repository :=
  if isReferenceName reference then .ok (r.setHead (.symbolic reference))
  else .error (.invalidName reference)

def writeHead (r : Repository) (text : Bytes) : Repository :=
  r.setHead (headOfText text)

/-- Points the head at a reference to some object other than a commit. -/
def pointHeadAt (r : Repository) (reference : Bytes) (object : Object) : Repository :=
  (r.setReference reference object).setHead (.symbolic reference)

def tagHead (r : Repository) (reference : Bytes) : Except GitError Repository := do
  return r.pointHeadAt reference (.tag (← r.headCommit))

def dropReference (r : Repository) (reference : Bytes) : Except GitError Repository :=
  if (r.references.lookup reference).isSome then
    .ok { r with references := r.references.filter (·.1 != reference) }
  else .error (.noReference reference)

end LintRunner.Repository
