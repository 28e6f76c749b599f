import Refit.Decimal.Binary

namespace Refit.Toml

/-- How a table came about: under a header or as a value, only on the way to another table, or as a
part of a dotted key. -/
inductive Origin where
  | explicit
  | implied
  | dotted
  deriving DecidableEq, Repr

inductive Item where
  | string (text : String)
  | integer (n : Int)
  | float (x : Decimal.Number)
  | boolean (b : Bool)
  | dateTime
  | array (items : List Item)
  | inlineTable (origin : Origin) (members : List (String × Item))
  | table (origin : Origin) (members : List (String × Item))
  | tables (each : List (List (String × Item)))

abbrev Members := List (String × Item)

def member? (key : String) : Members → Option Item
  | [] => none
  | (k, v) :: rest => if k = key then some v else member? key rest

def setMember (key : String) (value : Item) : Members → Members
  | [] => [(key, value)]
  | (k, v) :: rest => if k = key then (key, value) :: rest else (k, v) :: setMember key value rest

def addMember (key : String) (value : Item) (ms : Members) : Option Members :=
  if (member? key ms).isSome then none else some (ms ++ [(key, value)])

structure Key where
  way : List String
  last : String
  deriving DecidableEq, Repr

/-- Adds a member to an inline table. On the way of a dotted key only tables of dotted keys are
entered. -/
def addPair (last : String) (value : Item) : (way : List String) → Members → Option Members
  | [], ms => addMember last value ms
  | key :: way, ms => do
    let inner ← match member? key ms with
      | none => some []
      | some (.inlineTable .dotted inner) => some inner
      | some _ => none
    let inner ← addPair last value way inner
    return setMember key (.inlineTable .dotted inner) ms

/-- Changes the members of the table at the end of a way. A table on the way that is not there is
made, and of an array of tables the last is entered. A dotted key enters no table that has a header
of its own. -/
def changeAt (made : Origin) (change : Origin → Members → Option Members) :
    (self : Origin) → (way : List String) → Members → Option Members
  | self, [], ms => change self ms
  | _, key :: way, ms => do
    match member? key ms with
    | none =>
      let inner ← changeAt made change made way []
      return setMember key (.table made inner) ms
    | some (.table known inner) =>
      if made = .dotted ∧ known = .explicit then none
      else
        let inner ← changeAt made change known way inner
        return setMember key (.table known inner) ms
    | some (.tables each) =>
      let inner ← changeAt made change .explicit way (each.getLast?.getD [])
      return setMember key (.tables (each.dropLast ++ [inner])) ms
    | some _ => none

/-- Adds a member under a key to a table. A way leads to a table of dotted keys, and without one the
member goes into a table of another kind. -/
def addAt (self : Origin) (key : Key) (value : Item) (ms : Members) : Option Members :=
  changeAt .dotted
    (fun origin inner =>
      if (origin = .dotted) = (key.way = []) then none else addMember key.last value inner)
    self key.way ms

/-- Opens the table of a header. It may stand on the way to others already, but not be defined. -/
def openTable (key : Key) (ms : Members) : Option Members :=
  changeAt .implied
    (fun _ inner =>
      match member? key.last inner with
      | none => some (setMember key.last (.table .explicit []) inner)
      | some (.table .implied members) =>
        some (setMember key.last (.table .explicit members) inner)
      | some _ => none)
    .explicit key.way ms

def openElement (key : Key) (ms : Members) : Option Members :=
  changeAt .implied
    (fun _ inner =>
      match member? key.last inner with
      | none => some (setMember key.last (.tables [[]]) inner)
      | some (.tables each) => some (setMember key.last (.tables (each ++ [[]])) inner)
      | some _ => none)
    .explicit key.way ms

end Refit.Toml
