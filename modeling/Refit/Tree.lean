import Refit.Path

namespace Refit

/-- The names from the root of the tree down to an entry. -/
abbrev Place := List String

/-- Contents are compared by the instance of the type itself, whatever else is imported. -/
instance contentsDecidableEq : DecidableEq ByteArray := ByteArray.instDecidableEq

inductive Entry where
  | directory
  | file (bytes : ByteArray) (runnable : Bool)
  | link (target : String)
  deriving DecidableEq

inductive FileError where
  | notFound
  | denied
  | notDirectory
  | isDirectory
  | tooManyLinks
  | tooLong
  | notText
  deriving DecidableEq, Repr

def FileError.message : FileError → String
  | notFound => "No such file or directory (os error 2)"
  | denied => "Permission denied (os error 13)"
  | notDirectory => "Not a directory (os error 20)"
  | isDirectory => "Is a directory (os error 21)"
  | tooManyLinks => "Too many levels of symbolic links (os error 40)"
  | tooLong => "File name too long (os error 36)"
  | notText => "stream did not contain valid UTF-8"

/-- The entries below the root, in the order in which directories list them. -/
structure Tree where
  entries : List (Place × Entry)

def Place.text (p : Place) : String := (Path.mk true p).text

namespace Tree

def entryIn (p : Place) : List (Place × Entry) → Option Entry
  | [] => none
  | (q, e) :: rest => if q = p then some e else entryIn p rest

/-- The entry at a place, not followed if it is a link. The root is a directory. -/
def get? (t : Tree) (p : Place) : Option Entry :=
  if p = [] then some .directory else entryIn p t.entries

def putEntry (p : Place) (e : Entry) : List (Place × Entry) → List (Place × Entry)
  | [] => [(p, e)]
  | (q, f) :: rest => if q = p then (p, e) :: rest else (q, f) :: putEntry p e rest

def put (t : Tree) (p : Place) (e : Entry) : Tree := ⟨putEntry p e t.entries⟩

/-- Takes away a place and all below it. -/
def prune (t : Tree) (p : Place) : Tree := ⟨t.entries.filter fun x => !p.isPrefixOf x.1⟩

def children (t : Tree) (p : Place) : List (String × Entry) :=
  t.entries.filterMap fun (q, e) =>
    match q.getLast? with
    | none => none
    | some name => if q.dropLast = p then some (name, e) else none

/-- Where a path leads: to an entry, or to a free place in a directory. A place that was written
with a slash after it can only hold a directory. -/
inductive Spot where
  | found (place : Place) (entry : Entry)
  | vacant (place : Place) (slashed : Bool)
  /-- A file with a slash after it. -/
  | slashedFile
  deriving DecidableEq

def Spot.entry : Spot → Except FileError (Place × Entry)
  | found place entry => .ok (place, entry)
  | vacant .. => .error .notFound
  | slashedFile => .error .notDirectory

inductive Progress where
  | arrived (spot : Spot)
  | linked (directory : Place) (target : String) (rest : List String)
  | failed (error : FileError)
  deriving DecidableEq

/-- Walks down from a directory. The last name is left alone if it is a link and `last` is set. -/
def advance (t : Tree) (last : Bool) (here : Place) : List String → Progress
  | [] => .arrived (.found here .directory)
  | s :: rest =>
    if Path.isFiller s then advance t last here rest
    else if s = ".." then advance t last here.dropLast rest
    else
      let there := here ++ [s]
      match t.get? there with
      | none =>
        if rest.all (· == "") then .arrived (.vacant there !rest.isEmpty) else .failed .notFound
      | some .directory => advance t last there rest
      | some (.file bytes runnable) =>
        if rest = [] then .arrived (.found there (.file bytes runnable))
        else if rest.all (· == "") then .arrived .slashedFile
        else .failed .notDirectory
      | some (.link target) =>
        if last && rest.isEmpty then .arrived (.found there (.link target))
        else .linked here target rest

theorem advance_cons (t : Tree) (last : Bool) (here : Place) (s : String) (rest : List String) :
    advance t last here (s :: rest) =
      if Path.isFiller s then advance t last here rest
      else if s = ".." then advance t last here.dropLast rest
      else
        match t.get? (here ++ [s]) with
        | none =>
          if rest.all (· == "") then .arrived (.vacant (here ++ [s]) !rest.isEmpty)
          else .failed .notFound
        | some .directory => advance t last (here ++ [s]) rest
        | some (.file bytes runnable) =>
          if rest = [] then .arrived (.found (here ++ [s]) (.file bytes runnable))
          else if rest.all (· == "") then .arrived .slashedFile
          else .failed .notDirectory
        | some (.link target) =>
          if last && rest.isEmpty then .arrived (.found (here ++ [s]) (.link target))
          else .linked here target rest := by
  rw [advance]

def follow (t : Tree) (last : Bool) : (links : Nat) → Place → List String → Except FileError Spot
  | links, here, segments =>
    match advance t last here segments with
    | .arrived spot => .ok spot
    | .failed error => .error error
    | .linked directory target rest =>
      match links with
      | 0 => .error .tooManyLinks
      | links + 1 =>
        let path := Path.ofText target
        if target = "" then .error .notFound
        else follow t last links (if path.rooted then [] else directory) (path.segments ++ rest)

def linkLimit : Nat := 40

def spotFrom (t : Tree) (last : Bool) (start : Place) (path : String) : Except FileError Spot :=
  let p := Path.ofText path
  if path = "" then .error .notFound
  else follow t last linkLimit (if p.rooted then [] else start) p.segments

def spot (t : Tree) (path : String) : Except FileError Spot := t.spotFrom false [] path

def spotOfLink (t : Tree) (path : String) : Except FileError Spot := t.spotFrom true [] path

def entryAt (t : Tree) (path : String) : Except FileError (Place × Entry) := do
  (← t.spot path).entry

def canonical (t : Tree) (start : Place) (path : String) : Except FileError Place := do
  return (← (← t.spotFrom false start path).entry).1

def isFile (t : Tree) (path : String) : Bool :=
  match t.entryAt path with
  | .ok (_, .file ..) => true
  | _ => false

def isDirectory (t : Tree) (path : String) : Bool :=
  match t.entryAt path with
  | .ok (_, .directory) => true
  | _ => false

def exists? (t : Tree) (path : String) : Bool := (t.entryAt path).toOption.isSome

def read (t : Tree) (path : String) : Except FileError ByteArray := do
  match ← t.entryAt path with
  | (_, .file bytes _) => return bytes
  | _ => throw .isDirectory

def readText (t : Tree) (path : String) : Except FileError String := do
  match String.fromUTF8? (← t.read path) with
  | some text => return text
  | none => throw .notText

def writable (t : Tree) (path : String) : Except FileError (Place × Bool) := do
  match ← t.spot path with
  | .found place (.file _ runnable) => return (place, runnable)
  | .vacant place false => return (place, false)
  | _ => throw .isDirectory

/-- Writes a file. A file that was there keeps its place and stays runnable if it was. -/
def write (t : Tree) (path : String) (bytes : ByteArray) : Except FileError Tree := do
  let (place, runnable) ← t.writable path
  return t.put place (.file bytes runnable)

/-- Copies a file, with whether it is runnable. The target is emptied before the source is read,
so a file copied to itself is lost. -/
def copy (t : Tree) (source target : String) : Except FileError Tree := do
  match ← t.entryAt source with
  | (origin, .file bytes runnable) =>
    let (place, _) ← t.writable target
    return t.put place (.file (if place = origin then ByteArray.empty else bytes) runnable)
  | _ => throw .isDirectory

def makeDirectory (t : Tree) (path : String) : Except FileError Tree := do
  match ← t.spot path with
  | .found _ .directory => return t
  | .found .. | .slashedFile => throw .notDirectory
  | .vacant place _ => return t.put place .directory

def makeEach (t : Tree) (rooted : Bool) (done : List String) :
    List String → Except FileError Tree
  | [] => .ok t
  | s :: rest => do
    let t ← t.makeDirectory (Path.mk rooted (done ++ [s])).text
    t.makeEach rooted (done ++ [s]) rest

def makeDirectories (t : Tree) (path : String) : Except FileError Tree :=
  let p := Path.ofText path
  t.makeEach p.rooted [] (p.segments.filter (· ≠ ""))

/-- Removes a directory with all that is in it; of a link only the link. -/
def removeAll (t : Tree) (path : String) : Except FileError Tree := do
  match ← t.spotOfLink path with
  | .found place .directory | .found place (.link _) => return t.prune place
  | .found _ (.file ..) | .slashedFile => throw .notDirectory
  | .vacant .. => throw .notFound

theorem entryIn_putEntry (p q : Place) (e : Entry) (l : List (Place × Entry)) :
    entryIn q (putEntry p e l) = if q = p then some e else entryIn q l := by
  induction l with
  | nil => grind [putEntry, entryIn]
  | cons x l ih => grind [putEntry, entryIn]

theorem get?_put (t : Tree) (p q : Place) (e : Entry) (hp : p ≠ []) :
    (t.put p e).get? q = if q = p then some e else t.get? q := by
  grind [get?, put, entryIn_putEntry]

theorem entryIn_filter (p q : Place) (l : List (Place × Entry)) :
    entryIn q (l.filter fun x => !p.isPrefixOf x.1) = if p <+: q then none else entryIn q l := by
  induction l with
  | nil => simp [entryIn]
  | cons x l ih =>
    by_cases hr : p <+: x.1
    · rw [List.filter_cons_of_neg (by simpa [List.isPrefixOf_iff_prefix] using hr), ih]
      grind [entryIn]
    · rw [List.filter_cons_of_pos (by simpa [← List.isPrefixOf_iff_prefix] using hr)]
      grind [entryIn]

theorem get?_prune (t : Tree) (p q : Place) (hq : q ≠ []) :
    (t.prune p).get? q = if p <+: q then none else t.get? q := by
  simp [get?, prune, hq, entryIn_filter]

end Tree

end Refit
