import Refit.Step
import Refit.Tree.Walk

namespace Refit

structure Workspace where
  projectRoot : String
  root : String
  deriving DecidableEq, Repr

namespace Workspace

def directoryName : String := ".modernizer_sandbox"

def excludedNames : List String :=
  [".git", "target", "build", "node_modules", ".idea", ".vscode", "venv", "__pycache__",
   directoryName]

def isExcluded (name : String) : Bool := excludedNames.contains name

def forProject (t : Tree) (path : String) : Except Failure Workspace :=
  match t.canonical [] path with
  | .ok place => .ok ⟨place.text, joinPath place.text directoryName⟩
  | .error cause => .error (.file path cause)

def cleanup (ws : Workspace) : Action Unit := do
  match (← Step.tree).removeAll ws.root with
  | .ok t =>
    Step.setTree t
    Step.log (.debug .workspace ("Removed workspace " ++ ws.root))
  | .error .notFound => pure ()
  | .error cause => Step.fail (.file ws.root cause)

def copyEntry (ws : Workspace) (v : Tree.Visit) : Action Nat := do
  let target := joinPath ws.root (Path.mk false v.names).text
  if v.isDirectory then
    Step.change target fun t => t.makeDirectories target
    return 0
  else
    Step.change v.path fun t => t.copy v.path target
    return 1

/-- Copies what a name leads to, and with `enter` what is in it if it is a directory. Directories
with an excluded name are passed over. -/
def copyMet (ws : Workspace) (enter : Tree.Visit → Action Nat) (name : String) :
    Except WalkError Tree.Visit → Action Nat
  | .error cause => Step.fail (.walk cause)
  | .ok v =>
    if v.isDirectory then
      if isExcluded name then pure 0
      else do
        let n ← ws.copyEntry v
        let below ← enter v
        return n + below
    else ws.copyEntry v

/-- Copies the entries of a directory in turn. A link is followed when its turn comes, and may lead
to what has been copied by then. -/
def copyListed (ws : Workspace) (enter : Tree.Visit → Action Nat) (inside : List Tree.Open)
    (here : Tree.Open) (names : List String) : List (String × Entry) → Action Nat
  | [] => pure 0
  | child :: rest => do
    let t ← Step.tree
    let n ← ws.copyMet enter child.1 (t.visit inside here names child)
    let others ← ws.copyListed enter inside here names rest
    return n + others

/-- Copies what is in a directory, a directory before what is in it. The answer is the number of
files copied. A directory that leads into its own copy is copied until `depth` is used up, which
stands for paths that have become too long. -/
def copyBelow (ws : Workspace) :
    (depth : Nat) → List Tree.Open → Tree.Open → List String → Action Nat
  | 0, _, _, names => Step.fail (.file (joinPath ws.root (Path.mk false names).text) .tooLong)
  | depth + 1, outside, here, names => do
    let t ← Step.tree
    ws.copyListed (fun v => ws.copyBelow depth (here :: outside) ⟨v.path, v.place⟩ v.names)
      (here :: outside) here names (t.children here.place)

/-- A path has at most 4095 bytes, two for each of its names, so that none has more names. -/
def mostNames : Nat := 2048

def create (ws : Workspace) : Action Unit := do
  ws.cleanup
  Step.log (.debug .workspace ("Copying " ++ ws.projectRoot ++ " into " ++ ws.root))
  Step.change ws.root fun t => t.makeDirectories ws.root
  let t ← Step.tree
  let place ← Step.inspect ws.projectRoot fun t => t.canonical [] ws.projectRoot
  let copied ← ws.copyBelow (t.walkDepth + mostNames) [] ⟨ws.projectRoot, place⟩ []
  Step.log (.debug .workspace ("Workspace ready with " ++ toString copied ++ " files"))

def exists? (ws : Workspace) (t : Tree) : Bool := t.exists? ws.root

/-- The path in the sandbox that stands for a path below the project root. -/
def mapPath (ws : Workspace) (path : String) : Except Failure String :=
  match Path.stripPrefix? (Path.ofText ws.projectRoot) (Path.ofText path) with
  | some rest => .ok (joinPath ws.root rest.text)
  | none => .error (.outside path ws.projectRoot)

end Workspace

end Refit
