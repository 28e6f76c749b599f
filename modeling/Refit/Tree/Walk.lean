import Refit.Failure

namespace Refit.Tree

/-- An entry met on a walk: its path, the names that lead to it from the start of the walk, and
what stands there once links are followed. -/
structure Visit where
  path : String
  names : List String
  place : Place
  isDirectory : Bool
  deriving DecidableEq, Repr

structure Open where
  path : String
  place : Place

/-- What an entry of a directory is once links are followed. A link is an error if it leads
nowhere or back to a directory that the walk is in. -/
def visit (t : Tree) (inside : List Open) (here : Open) (names : List String)
    (child : String × Entry) : Except WalkError Visit :=
  let (name, entry) := child
  let path := joinPath here.path name
  let place := here.place ++ [name]
  match entry with
  | .directory => .ok ⟨path, names ++ [name], place, true⟩
  | .file .. => .ok ⟨path, names ++ [name], place, false⟩
  | .link _ =>
    match t.entryAt path with
    | .error cause => .error (.file path cause)
    | .ok (place, .directory) =>
      match inside.find? fun o => o.place = place with
      | some o => .error (.loop path o.path)
      | none => .ok ⟨path, names ++ [name], place, true⟩
    | .ok (place, _) => .ok ⟨path, names ++ [name], place, false⟩

/-- No walk goes deeper: between two links it goes down one branch of the tree, and no two links
on its way lead to the same directory. -/
def walkDepth (t : Tree) : Nat := (t.entries.length + 2) * (t.entries.length + 2)

end Refit.Tree
