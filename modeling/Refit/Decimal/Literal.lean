import Refit.Decimal.Binary
import Refit.Text.Blank

namespace Refit.Decimal

/-- The number `± digits · 10 ^ place`, with the count of digits that were written. -/
structure Literal where
  negative : Bool
  digits : Nat
  written : Nat
  place : Int
  deriving DecidableEq, Repr

def digitValue (c : Char) : Nat := c.toNat - '0'.toNat

def ofDigits (ds : List Char) : Nat := ds.foldl (fun n c => 10 * n + digitValue c) 0

def tooLarge : Int := 400

def tooSmall : Int := -400

def Literal.value (f : Format) (l : Literal) : Number :=
  let first := l.place + l.written
  if l.digits = 0 ∨ first < tooSmall then .finite l.negative 0 f.lowest
  else if tooLarge < l.place then .infinite l.negative
  else if 0 ≤ l.place then round f l.negative (l.digits * Nat.pow 10 l.place.toNat) 1
  else round f l.negative l.digits (Nat.pow 10 (-l.place).toNat)

def Literal.ofParts (negative : Bool) (whole fraction : List Char) (exponent : Int) : Literal :=
  ⟨negative, ofDigits (whole ++ fraction), (whole ++ fraction).length,
    exponent - fraction.length⟩

def takeSign : List Char → Bool × List Char
  | '-' :: rest => (true, rest)
  | '+' :: rest => (false, rest)
  | cs => (false, cs)

def readExponent : List Char → Option Int
  | [] => some 0
  | c :: rest =>
    if c = 'e' ∨ c = 'E' then
      let (negative, ds) := takeSign rest
      if ds ≠ [] ∧ ds.all Char.isDigit then
        let n : Int := ofDigits ds
        some (if negative then -n else n)
      else none
    else none

def readDigits (cs : List Char) : Option (List Char × List Char × List Char) :=
  let (whole, rest) := cs.span Char.isDigit
  let (fraction, rest) := match rest with
    | '.' :: rest => rest.span Char.isDigit
    | rest => ([], rest)
  if whole = [] ∧ fraction = [] then none else some (whole, fraction, rest)

/-- Reads a whole text as a number: a sign, then digits with at most one point and an exponent, or
the words for infinity and for what is no number, in any case. -/
def read (f : Format) (s : String) : Option Number := do
  let (negative, cs) := takeSign s.toList
  let word := String.ofList (cs.map Char.toLower)
  if word = "inf" ∨ word = "infinity" then return .infinite negative
  if word = "nan" then return .nan
  let (whole, fraction, rest) ← readDigits cs
  let exponent ← readExponent rest
  return (Literal.ofParts negative whole fraction exponent).value f

end Refit.Decimal
