import Refit.Ignore.Rules
import Refit.Workspace

namespace Refit.Sources

inductive SearchError where
  | file (path : String) (cause : FileError)
  | patterns (faults : List (String × Ignore.LineFault))
  deriving DecidableEq, Repr

def faultMessage (path : String) (f : Ignore.LineFault) : String :=
  path ++ ": line " ++ toString f.number ++ ": error parsing glob '" ++ f.line ++ "': " ++
    f.fault.message

def SearchError.message : SearchError → String
  | file path cause => path ++ ": IO error for operation on " ++ path ++ ": " ++ cause.message
  | patterns faults => "\n".intercalate (faults.map fun (path, f) => faultMessage path f)

def sourceExtension : String := "java"

def isHidden (name : String) : Bool := name.toList.head? == some '.'

/-- Whether the entry at a place is passed over. An entry that the rules keep is taken even if it is
hidden. -/
def isSkipped (t : Tree) (place : Place) (name : String) (isDirectory : Bool) : Bool :=
  match Ignore.verdict? t place isDirectory with
  | some .ignored => true
  | some .kept => isDirectory && Workspace.isExcluded name
  | none => isHidden name || (isDirectory && Workspace.isExcluded name)

/-- Whether nothing on the way from the start to an entry is passed over. What stands before the
last name is a directory. -/
def isOpen (t : Tree) (start : Place) (names : List String) (isDirectory : Bool) : Bool :=
  (List.range names.length).all fun n =>
    let isDirectory := isDirectory || n + 1 < names.length
    !isSkipped t (start ++ names.take (n + 1)) (names.getD n "") isDirectory

def pathBelow (start : String) (names : List String) : String :=
  joinPath start (Path.mk false names).text

def isSource (t : Tree) (path : String) : Bool :=
  t.isFile path && (Path.ofText path).extension? == some sourceExtension

def found? (t : Tree) (path : String) (start : Place) (entry : Place × Entry) :
    Option (List String) :=
  let names := entry.1.drop start.length
  if start.isPrefixOf entry.1 && start.length < entry.1.length && entry.2 != .directory &&
      isOpen t start names false && isSource t (pathBelow path names) then some names
  else none

/-- Paths are compared name by name: whether the first does not come after the second. -/
def inOrder (a b : List String) : Bool := !b.lex a fun x y => decide (x < y)

def sorted (found : List (List String)) : List (List String) := found.mergeSort inOrder

def below (t : Tree) (path : String) (start : Place) : List String :=
  (sorted (t.entries.filterMap (found? t path start))).map (pathBelow path)

def faultsOf (t : Tree) (directory : String) : List (String × Ignore.LineFault) :=
  let rules := Ignore.Rules.ofDirectory t directory
  let ofFile (path : String) (f : Ignore.PatternFile) : List (String × Ignore.LineFault) :=
    f.faults.map fun fault => (path, fault)
  ofFile (Ignore.Rules.plainPath directory) rules.plain ++
    ofFile (Ignore.Rules.sharedPath directory) rules.shared ++
    match Ignore.repositoryDirectory t directory with
    | some path => ofFile (Ignore.Rules.excludePath path) rules.ownExclude
    | none => []

/-- Faulty lines are an error above the start, and passed over from there on. -/
def faultsAbove (t : Tree) (start : Place) : List (String × Ignore.LineFault) :=
  (List.range start.length).flatMap fun n => faultsOf t (Place.text (start.take n))

/-- The source files at a path: the path itself if it is a file, whatever its name. -/
def collect (t : Tree) (path : String) : Except SearchError (List String) :=
  match t.entryAt path with
  | .error cause => .error (.file path cause)
  | .ok (start, .directory) =>
    match faultsAbove t start with
    | [] => .ok (below t path start)
    | faults => .error (.patterns faults)
  | .ok _ => .ok [path]

end Refit.Sources
