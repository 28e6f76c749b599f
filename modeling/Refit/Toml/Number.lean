import Refit.Decimal.Literal
import Refit.Toml.Item
import Refit.Toml.Text

namespace Refit.Toml

def moreDigits (isDigit : Char → Bool) : List Char → Option (List Char × List Char)
  | [] => some ([], [])
  | ['_'] => none
  | '_' :: d :: rest =>
    if isDigit d then (moreDigits isDigit rest).map fun (ds, rest) => (d :: ds, rest) else none
  | d :: rest =>
    if isDigit d then (moreDigits isDigit rest).map fun (ds, rest) => (d :: ds, rest)
    else some ([], d :: rest)

def someDigits (isDigit : Char → Bool) : List Char → Option (List Char × List Char)
  | [] => none
  | d :: rest =>
    if isDigit d then (moreDigits isDigit rest).map fun (ds, rest) => (d :: ds, rest) else none

def wholeDigits : List Char → Option (List Char × List Char)
  | '0' :: rest => some (['0'], rest)
  | cs => someDigits Char.isDigit cs

def integer? (n : Int) : Option Item :=
  if -0x8000000000000000 ≤ n ∧ n < 0x8000000000000000 then some (.integer n) else none

def ofBase (base : Nat) (ds : List Char) : Nat :=
  ds.foldl (fun n c => base * n + (Json.hexValue? c).getD 0) 0

def basedInteger (base : Nat) (cs : List Char) : Option (Item × List Char) := do
  let isDigit (c : Char) : Bool := (Json.hexValue? c).any (· < base)
  let (ds, rest) ← someDigits isDigit cs
  let item ← integer? (ofBase base ds)
  return (item, rest)

def exponentPart (cs : List Char) : Option (Option Int × List Char) :=
  match cs with
  | [] => some (none, [])
  | c :: rest =>
    if c = 'e' ∨ c = 'E' then do
      let (negative, rest) := Decimal.takeSign rest
      let (ds, rest) ← someDigits Char.isDigit rest
      let n : Int := Decimal.ofDigits ds
      return (some (if negative then -n else n), rest)
    else some (none, c :: rest)

/-- A float. One too large for 64 bits is refused, unless it is negative. -/
def floatItem (negative : Bool) (whole fraction : List Char) (exponent : Int) : Option Item :=
  let x := (Decimal.Literal.ofParts negative whole fraction exponent).value Decimal.binary64
  if x = .infinite false then none else some (.float x)

def decimalNumber (negative : Bool) (cs : List Char) : Option (Item × List Char) := do
  let (whole, rest) ← wholeDigits cs
  match rest with
  | '.' :: rest =>
    let (fraction, rest) ← someDigits Char.isDigit rest
    let (exponent, rest) ← exponentPart rest
    let item ← floatItem negative whole fraction (exponent.getD 0)
    return (item, rest)
  | rest =>
    match ← exponentPart rest with
    | (some exponent, rest) =>
      let item ← floatItem negative whole [] exponent
      return (item, rest)
    | (none, rest) =>
      let n : Int := Decimal.ofDigits whole
      let item ← integer? (if negative then -n else n)
      return (item, rest)

def number (cs : List Char) : Option (Item × List Char) :=
  match cs with
  | '0' :: 'x' :: rest => basedInteger 16 rest
  | '0' :: 'o' :: rest => basedInteger 8 rest
  | '0' :: 'b' :: rest => basedInteger 2 rest
  | cs =>
    match Decimal.takeSign cs with
    | (negative, 'i' :: 'n' :: 'f' :: rest) => some (.float (.infinite negative), rest)
    | (_, 'n' :: 'a' :: 'n' :: rest) => some (.float .nan, rest)
    | (negative, rest) => decimalNumber negative rest

def fixedNumber (count low high : Nat) (cs : List Char) : Option (Nat × List Char) :=
  let ds := cs.take count
  let n := Decimal.ofDigits ds
  if ds.length = count ∧ ds.all Char.isDigit ∧ low ≤ n ∧ n ≤ high then some (n, cs.drop count)
  else none

def sign (c : Char) (cs : List Char) : Option (List Char) :=
  match cs with
  | [] => none
  | d :: rest => if c = d then some rest else none

def isLeapYear (year : Nat) : Bool :=
  year % 4 == 0 && (year % 100 != 0 || year % 400 == 0)

def daysInMonth (year month : Nat) : Nat :=
  if month = 2 then (if isLeapYear year then 29 else 28)
  else if month = 4 ∨ month = 6 ∨ month = 9 ∨ month = 11 then 30
  else 31

def fullDate (cs : List Char) : Option (List Char) := do
  let (year, cs) ← fixedNumber 4 0 9999 cs
  let cs ← sign '-' cs
  let (month, cs) ← fixedNumber 2 1 12 cs
  let cs ← sign '-' cs
  let (_, cs) ← fixedNumber 2 1 (daysInMonth year month) cs
  return cs

def fractionOfSecond (cs : List Char) : List Char :=
  match cs with
  | '.' :: d :: rest => if d.isDigit then rest.dropWhile Char.isDigit else cs
  | cs => cs

def timeOfDay (cs : List Char) : Option (List Char) := do
  let (_, cs) ← fixedNumber 2 0 23 cs
  let cs ← sign ':' cs
  let (_, cs) ← fixedNumber 2 0 59 cs
  let cs ← sign ':' cs
  let (_, cs) ← fixedNumber 2 0 60 cs
  return fractionOfSecond cs

def offset (cs : List Char) : Option (List Char) :=
  match cs with
  | 'Z' :: rest => some rest
  | 'z' :: rest => some rest
  | c :: rest =>
    if c = '+' ∨ c = '-' then do
      let (_, cs) ← fixedNumber 2 0 23 rest
      let cs ← sign ':' cs
      let (_, cs) ← fixedNumber 2 0 59 cs
      return cs
    else none
  | [] => none

def dateTime (cs : List Char) : Option (List Char) :=
  match fullDate cs with
  | none => timeOfDay cs
  | some rest =>
    let time := match rest with
      | c :: after => if c = 'T' ∨ c = 't' ∨ c = ' ' then timeOfDay after else none
      | [] => none
    match time with
    | none => some rest
    | some rest => some ((offset rest).getD rest)

end Refit.Toml
