import Refit.Ignore.Pattern
import Refit.Tree

namespace Refit.Ignore

structure Rules where
  plain : PatternFile
  shared : PatternFile
  ownExclude : PatternFile
  isRepository : Bool

def fileAt (t : Tree) (path : String) : PatternFile :=
  match t.read path with
  | .ok bytes => .ofBytes bytes
  | .error _ => {}

def firstLine (t : Tree) (path : String) : Option String :=
  match t.readText path with
  | .ok text => (Text.lines text.toList).head?.map String.ofList
  | .error _ => none

def linkMark : String := "gitdir: "

/-- The directory of a repository that is shared by its work trees. A work tree has a file in the
place of the directory, which leads there. -/
def repositoryDirectory (t : Tree) (directory : String) : Option String :=
  let path := joinPath directory ".git"
  if t.isFile path then do
    let line ← firstLine t path
    if linkMark.toList.isPrefixOf line.toList then
      let own := String.ofList (line.toList.drop linkMark.length)
      let common ← firstLine t (joinPath own "commondir")
      return if common.toList.head? = some '.' then joinPath own common else common
    else none
  else some path

namespace Rules

def plainPath (directory : String) : String := joinPath directory ".ignore"

def sharedPath (directory : String) : String := joinPath directory ".gitignore"

def excludePath (repository : String) : String := joinPath repository "info/exclude"

def ofDirectory (t : Tree) (directory : String) : Rules where
  plain := fileAt t (plainPath directory)
  shared := fileAt t (sharedPath directory)
  ownExclude :=
    ((repositoryDirectory t directory).map fun path => fileAt t (excludePath path)).getD {}
  isRepository := t.exists? (joinPath directory ".git")

end Rules

/-- Rules with the path, relative to their directory, that they are asked about. -/
structure Asked where
  rules : Rules
  path : List UInt8

def pathBytes (names : List String) : List UInt8 :=
  ((Path.mk false names).text).toUTF8.data.toList

def rulesAbove (t : Tree) (place : Place) : List Asked :=
  (List.range place.length).reverse.map fun n =>
    ⟨.ofDirectory t (Place.text (place.take n)), pathBytes (place.drop n)⟩

def withinRepository : List Asked → List Asked
  | [] => []
  | a :: rest => a :: if a.rules.isRepository then [] else withinRepository rest

def repositoryRules (above : List Asked) : List Asked :=
  if above.any fun a => a.rules.isRepository then withinRepository above else []

def verdict? (t : Tree) (place : Place) (isDirectory : Bool) : Option Verdict :=
  let above := rulesAbove t place
  let repository := repositoryRules above
  above.findSome? (fun a => a.rules.plain.verdict? a.path isDirectory) <|>
  repository.findSome? (fun a => a.rules.shared.verdict? a.path isDirectory) <|>
  repository.findSome? (fun a => a.rules.ownExclude.verdict? a.path isDirectory)

end Refit.Ignore
