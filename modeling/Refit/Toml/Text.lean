import Refit.Json.Reader

namespace Refit.Toml

def isSpace (c : Char) : Bool := c == ' ' || c == '\t'

def skipSpace (cs : List Char) : List Char := cs.dropWhile isSpace

def isPlain (c : Char) : Bool := c == '\t' || (0x20 ≤ c.toNat && c.toNat ≠ 0x7F)

def lineEnd? : List Char → Option (List Char)
  | '\n' :: rest => some rest
  | '\r' :: '\n' :: rest => some rest
  | _ => none

def isScalar (n : Nat) : Bool := n < 0xD800 || (0xE000 ≤ n && n < 0x110000)

def hexNumber : (count : Nat) → Nat → List Char → Option (Nat × List Char)
  | 0, n, cs => some (n, cs)
  | _ + 1, _, [] => none
  | count + 1, n, c :: rest => do
    let d ← Json.hexValue? c
    hexNumber count (16 * n + d) rest

def escape : List Char → Option (Char × List Char)
  | 'b' :: rest => some ('\x08', rest)
  | 't' :: rest => some ('\t', rest)
  | 'n' :: rest => some ('\n', rest)
  | 'f' :: rest => some ('\x0c', rest)
  | 'r' :: rest => some ('\r', rest)
  | '"' :: rest => some ('"', rest)
  | '\\' :: rest => some ('\\', rest)
  | 'u' :: rest => do
    let (n, rest) ← hexNumber 4 0 rest
    if isScalar n then some (Char.ofNat n, rest) else none
  | 'U' :: rest => do
    let (n, rest) ← hexNumber 8 0 rest
    if isScalar n then some (Char.ofNat n, rest) else none
  | _ => none

def basicString : (fuel : Nat) → List Char → Option (List Char × List Char)
  | 0, _ => none
  | _ + 1, [] => none
  | fuel + 1, c :: rest =>
    if c = '"' then some ([], rest)
    else if c = '\\' then do
      let (e, rest) ← escape rest
      let (cs, rest) ← basicString fuel rest
      return (e :: cs, rest)
    else if isPlain c then do
      let (cs, rest) ← basicString fuel rest
      return (c :: cs, rest)
    else none

def literalString : List Char → Option (List Char × List Char)
  | [] => none
  | c :: rest =>
    if c = '\'' then some ([], rest)
    else if isPlain c then (literalString rest).map fun (cs, rest) => (c :: cs, rest)
    else none

/-- The marks that end a string of several lines: three, and up to two more that belong to the
text. Fewer than three are text. -/
def closingMarks (mark : Char) (cs : List Char) : Option (List Char × List Char) :=
  let count := (cs.takeWhile (· == mark)).length
  if count < 3 then none
  else
    let inside := min (count - 3) 2
    some (List.replicate inside mark, cs.drop (inside + 3))

def foldedLines (cs : List Char) : Option (List Char) := do
  let rest ← lineEnd? (skipSpace cs)
  go rest.length rest
where
  go : Nat → List Char → Option (List Char)
    | 0, cs => some cs
    | fuel + 1, cs =>
      match lineEnd? (skipSpace cs) with
      | some rest => go fuel rest
      | none => some (skipSpace cs)

/-- A string of several lines, after its opening marks. Every line end is one line feed, and a
backslash at the end of a line takes the white space after it away. -/
def longString (mark : Char) (escapes : Bool) :
    (fuel : Nat) → List Char → Option (List Char × List Char)
  | 0, _ => none
  | _ + 1, [] => none
  | fuel + 1, c :: rest =>
    if c = mark then
      match closingMarks mark (c :: rest) with
      | some (inside, rest) => some (inside, rest)
      | none => (longString mark escapes fuel rest).map fun (cs, rest) => (c :: cs, rest)
    else if escapes && c == '\\' then
      match foldedLines rest with
      | some rest => longString mark escapes fuel rest
      | none => do
        let (e, rest) ← escape rest
        let (cs, rest) ← longString mark escapes fuel rest
        return (e :: cs, rest)
    else if isPlain c then
      (longString mark escapes fuel rest).map fun (cs, rest) => (c :: cs, rest)
    else do
      let rest ← lineEnd? (c :: rest)
      let (cs, rest) ← longString mark escapes fuel rest
      return ('\n' :: cs, rest)

def longBody (mark : Char) (escapes : Bool) (cs : List Char) : Option (List Char × List Char) :=
  let cs := (lineEnd? cs).getD cs
  longString mark escapes (cs.length + 1) cs

def stringValue (cs : List Char) : Option (String × List Char) :=
  let chars := match cs with
    | '"' :: '"' :: '"' :: rest => longBody '"' true rest
    | '\'' :: '\'' :: '\'' :: rest => longBody '\'' false rest
    | '"' :: rest => basicString (rest.length + 1) rest
    | '\'' :: rest => literalString rest
    | _ => none
  chars.map fun (text, rest) => (String.ofList text, rest)

def isBareKey (c : Char) : Bool := c.isAlphanum || c == '_' || c == '-'

def simpleKey (cs : List Char) : Option (String × List Char) :=
  match cs with
  | '"' :: rest => (basicString (rest.length + 1) rest).map fun (k, rest) => (String.ofList k, rest)
  | '\'' :: rest => (literalString rest).map fun (k, rest) => (String.ofList k, rest)
  | cs =>
    match cs.span isBareKey with
    | ([], _) => none
    | (k, rest) => some (String.ofList k, rest)

def dottedNames : (fuel : Nat) → List Char → Option (List String × List Char)
  | 0, _ => none
  | fuel + 1, cs => do
    let (name, rest) ← simpleKey (skipSpace cs)
    match skipSpace rest with
    | '.' :: rest =>
      let (names, rest) ← dottedNames fuel rest
      return (name :: names, rest)
    | rest => return ([name], rest)

def nestingLimit : Nat := 80

def dottedKey (cs : List Char) : Option ((List String × String) × List Char) := do
  let (names, rest) ← dottedNames (cs.length + 1) cs
  let last ← names.getLast?
  if names.length < nestingLimit then return ((names.dropLast, last), rest) else none

def skipComment : List Char → List Char
  | '#' :: rest => rest.dropWhile isPlain
  | cs => cs

end Refit.Toml
