import LintRunner.Host.IoError
import LintRunner.Path
import LintRunner.Repository.Tree

/-!
# Repositories

A repository has a head, which names a reference or stands for an object
itself, and references to objects. The files committed at the head are those
of the tree that its object leads to.
-/

namespace LintRunner

/-- An object, with what it leads to. The history of a commit is the line of
its first parents. -/
inductive Object
  | blob (id : String)
  | firstCommit (tree : Tree)
  | laterCommit (tree : Tree) (parent : Object)
  | tag (target : Object)

/-- Why a repository does not give its files, or cannot be found. -/
inductive GitError
  | unresolved (path : Path) (e : SystemError)
  | nulInPath
  | notFound (start : Path)
  | malformedLink (file : Path)
  | corruptHead (nameMissing : Bool)
  | danglingHead
  | endlessReference
  | invalidName (name : Bytes)
  | noTree (id : String)
  | brokenWalk
  | unborn (reference : Bytes)
  | noReference (reference : Bytes)
  | noParent
deriving DecidableEq, Repr

/-- A message with the kind of thing that failed behind it, and the code of the
failure if it has one. -/
def classified (text className : String) (number : Nat) (code : Option (String × Nat)) :
    String :=
  match code with
  | none => s!"{text}; class={className} ({number})"
  | some (name, n) => s!"{text}; class={className} ({number}); code={name} (-{n})"

namespace GitError

def notFoundCode : Option (String × Nat) := some ("NotFound", 3)
def invalidCode : Option (String × Nat) := some ("InvalidSpec", 12)

def message : GitError → String
  | .unresolved path e =>
    let code := if e == .notFound || e == .notADirectory then notFoundCode else none
    classified s!"failed to resolve path '{path.display}': {e.text}" "Os" 2 code
  | .nulInPath => "data contained a nul byte that could not be represented as a string"
  | .notFound start =>
    classified s!"could not find repository at '{start.display}'" "Repository" 6 notFoundCode
  | .malformedLink file =>
    classified s!"the `.git` file at '{file.display}' is malformed" "Repository" 6 none
  | .corruptHead true => classified "corrupted loose reference file" "Reference" 4 none
  | .corruptHead false => classified "corrupted loose reference file: HEAD" "Reference" 4 none
  | .danglingHead =>
    classified "the reference 'HEAD' cannot be peeled - Cannot retrieve reference target"
      "Invalid" 3 notFoundCode
  | .endlessReference =>
    classified "cannot resolve reference (>5 levels deep)" "Reference" 4 none
  | .invalidName name =>
    classified s!"the given reference name '{name.lossy}' is not valid" "Reference" 4 invalidCode
  | .noTree id =>
    let text := "can not be successfully peeled into a tree (git_object_t=2)."
    classified s!"the git_object of id '{id}' {text}" "Object" 11 invalidCode
  | .brokenWalk => classified "git_tree_walk callback returned -1" "Callback" 26 none
  | .unborn reference =>
    classified s!"reference '{reference.lossy}' not found" "Reference" 4 (some ("UnbornBranch", 9))
  | .noReference reference =>
    classified s!"reference '{reference.lossy}' not found" "Reference" 4 notFoundCode
  | .noParent => classified "parent 0 does not exist" "Invalid" 3 notFoundCode

end GitError

/-- The tree that an object leads to. -/
def Object.tree : Object → Except GitError Tree
  | .blob id => .error (.noTree id)
  | .firstCommit tree | .laterCommit tree _ => .ok tree
  | .tag target => target.tree

inductive Head
  | symbolic (reference : Bytes)
  | direct (object : Object)
  /-- The id of an object that does not exist. -/
  | dangling
  | corrupt (nameMissing : Bool)

structure Repository where
  bare : Bool
  head : Head
  references : List (Bytes × Object)

namespace Repository

/-! ## Names of references -/

def isNameByte (b : UInt8) : Bool :=
  0x20 < b && !(Bytes.ofText "~^:\\?[*").contains b

/-- Whether the bytes `a` and `b` stand next to each other. -/
def adjoin (a b : UInt8) (bytes : Bytes) : Bool :=
  (bytes.zip bytes.tail).contains (a, b)

def isNamePart (part : Bytes) : Bool :=
  !part.isEmpty && part.all isNameByte && part.head? != some Bytes.dot &&
    !adjoin Bytes.dot Bytes.dot part && !adjoin 0x40 0x7B part &&
    !(Bytes.ofText ".lock").isSuffixOf part

def isCapital (part : Bytes) : Bool :=
  part.all (fun b => (0x41 ≤ b && b ≤ 0x5A) || b == 0x5F) &&
    part.head? != some 0x5F && part.getLast? != some 0x5F

/-- A name is a capital word, or several parts of which the first is none. -/
def isReferenceName (name : Bytes) : Bool :=
  let parts := Text.splitOn Bytes.slash name
  parts.all isNamePart && name.getLast? != some Bytes.dot &&
    ((parts.length == 1) == isCapital (parts.headD []))

/-! ## The head -/

def headName : Bytes := Bytes.ofText "HEAD"

def isBlank (b : UInt8) : Bool :=
  b == 0x20 || (9 ≤ b && b ≤ 13)

def trimRight (bytes : Bytes) : Bytes :=
  (bytes.reverse.dropWhile isBlank).reverse

def isHexDigit (b : UInt8) : Bool :=
  (0x30 ≤ b && b ≤ 0x39) || (0x41 ≤ b && b ≤ 0x46) || (0x61 ≤ b && b ≤ 0x66)

/-- What the file that holds the head says. -/
def headOfText (text : Bytes) : Head :=
  let mark := Bytes.ofText "ref: "
  if mark.isPrefixOf text then
    let name := (trimRight text).drop mark.length
    if name.isEmpty then .corrupt true else .symbolic name
  else
    let id := text.takeWhile isHexDigit
    let behind := (text.drop 40).head?
    if id.length < 40 || behind.any (!isBlank ·) then .corrupt false else .dangling

/-- The object at the head; a head may name a reference that does not exist
yet. -/
def headObject (r : Repository) : Except GitError (Option Object) :=
  match r.head with
  | .direct object => .ok (some object)
  | .dangling => .error .danglingHead
  | .corrupt nameMissing => .error (.corruptHead nameMissing)
  | .symbolic name =>
    if name == headName then .error .endlessReference
    else if !isReferenceName name then .error (.invalidName name)
    else .ok (r.references.lookup name)

/-! ## Committed files -/

/-- What is said during the walk, and the paths it gives. -/
def listTree (tree : Tree) : List Log.Record × Except GitError (List String) :=
  let (visits, complete) := tree.walk []
  let warnings := visits.filterMap (·.warning?)
  let paths := visits.filterMap (·.path?)
  if complete then
    (warnings ++ [⟨.debug, s!"Found {paths.length} committed files"⟩], .ok paths)
  else (warnings, .error .brokenWalk)

/-- The files committed at the head. Before the first commit there are none. -/
def committedFiles (r : Repository) : List Log.Record × Except GitError (List String) :=
  match r.headObject with
  | .error e => ([], .error e)
  | .ok none =>
    ([⟨.warn, "HEAD does not point to a commit yet; no files are committed"⟩], .ok [])
  | .ok (some object) =>
    match object.tree with
    | .ok tree => listTree tree
    | .error e => ([], .error e)

end Repository

end LintRunner
