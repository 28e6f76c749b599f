import Refit.Toml.Number

namespace Refit.Toml

def skipLayout : (fuel : Nat) → List Char → List Char
  | 0, cs => cs
  | fuel + 1, cs =>
    let cs := skipSpace cs
    match lineEnd? (skipComment cs) with
    | some rest => skipLayout fuel rest
    | none => cs

def skipAll (cs : List Char) : List Char := skipLayout (cs.length + 1) cs

def keyword (w : String) (item : Item) (cs : List Char) : Option (Item × List Char) :=
  if w.toList.isPrefixOf cs then some (item, cs.drop w.length) else none

mutual

def value : (fuel depth : Nat) → List Char → Option (Item × List Char)
  | 0, _, _ => none
  | _ + 1, _, [] => none
  | fuel + 1, depth, c :: rest =>
    if c = '"' ∨ c = '\'' then (stringValue (c :: rest)).map fun (s, rest) => (.string s, rest)
    else if c = '[' then
      if depth + 1 < nestingLimit then
        (elements fuel (depth + 1) rest).map fun (xs, rest) => (.array xs, rest)
      else none
    else if c = '\x7b' then
      if depth + 1 < nestingLimit then
        match skipSpace rest with
        | '\x7d' :: rest => some (.inlineTable .explicit [], rest)
        | rest =>
          (pairs fuel (depth + 1) [] rest).map fun (ms, rest) => (.inlineTable .explicit ms, rest)
      else none
    else if c = 't' then keyword "true" (.boolean true) (c :: rest)
    else if c = 'f' then keyword "false" (.boolean false) (c :: rest)
    else
      match dateTime (c :: rest) with
      | some rest => some (.dateTime, rest)
      | none => number (c :: rest)

def elements : (fuel depth : Nat) → List Char → Option (List Item × List Char)
  | 0, _, _ => none
  | fuel + 1, depth, cs =>
    match skipAll cs with
    | ']' :: rest => some ([], rest)
    | cs => do
      let (x, rest) ← value fuel depth cs
      match skipAll rest with
      | ',' :: rest =>
        let (xs, rest) ← elements fuel depth rest
        return (x :: xs, rest)
      | ']' :: rest => return ([x], rest)
      | _ => none

def pairs : (fuel depth : Nat) → Members → List Char → Option (Members × List Char)
  | 0, _, _, _ => none
  | fuel + 1, depth, ms, cs => do
    let ((way, last), rest) ← dottedKey cs
    let rest ← sign '=' rest
    let (item, rest) ← value fuel depth (skipSpace rest)
    let ms ← addPair last item way ms
    match skipSpace rest with
    | ',' :: rest => pairs fuel depth ms rest
    | '\x7d' :: rest => return (ms, rest)
    | _ => none

end

inductive Line where
  | empty
  | member (key : Key) (value : Item)
  | header (key : Key)
  | elementHeader (key : Key)

def lineBody (cs : List Char) : Option (Line × List Char) :=
  match cs with
  | [] => some (.empty, [])
  | '[' :: '[' :: rest => do
    let ((way, last), rest) ← dottedKey rest
    let rest ← sign ']' rest
    let rest ← sign ']' rest
    return (.elementHeader ⟨way, last⟩, rest)
  | '[' :: rest => do
    let ((way, last), rest) ← dottedKey rest
    let rest ← sign ']' rest
    return (.header ⟨way, last⟩, rest)
  | '#' :: rest => some (.empty, '#' :: rest)
  | cs =>
    if (lineEnd? cs).isSome then some (.empty, cs)
    else do
      let ((way, last), rest) ← dottedKey cs
      let rest ← sign '=' rest
      let rest := skipSpace rest
      let (item, rest) ← value (2 * rest.length + 2) 0 rest
      return (.member ⟨way, last⟩ item, rest)

def line (cs : List Char) : Option (Line × List Char) := do
  let (l, rest) ← lineBody (skipSpace cs)
  match skipComment (skipSpace rest) with
  | [] => return (l, [])
  | rest =>
    let rest ← lineEnd? rest
    return (l, rest)

/-- The document so far: its members, and the way to the table that members are added to. -/
structure State where
  root : Members := []
  current : List String := []

def State.addMember (s : State) (key : Key) (item : Item) : Option State := do
  let add (origin : Origin) (ms : Members) := addAt origin key item ms
  let root ← changeAt .implied add .explicit s.current s.root
  return { s with root }

def State.apply (s : State) : Line → Option State
  | .empty => some s
  | .member key item => s.addMember key item
  | .header key => do
    let root ← openTable key s.root
    return ⟨root, key.way ++ [key.last]⟩
  | .elementHeader key => do
    let root ← openElement key s.root
    return ⟨root, key.way ++ [key.last]⟩

def readLines : (fuel : Nat) → State → List Char → Option State
  | 0, _, _ => none
  | _ + 1, s, [] => some s
  | fuel + 1, s, cs => do
    let (l, rest) ← line cs
    let s ← s.apply l
    readLines fuel s rest

def read (text : String) : Option Members := do
  let cs := match text.toList with
    | '\uFEFF' :: rest => rest
    | cs => cs
  let s ← readLines (cs.length + 1) {} cs
  return s.root

end Refit.Toml
