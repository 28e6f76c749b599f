import Refit.Decimal.Binary

namespace Refit.Decimal

/-- The numbers that round to `mantissa · 2 ^ exponent` lie between `low` and `high` quarters of
`2 ^ exponent`. The ends belong to them if the mantissa is even. -/
structure Interval where
  low : Nat
  value : Nat
  high : Nat
  closed : Bool
  exponent : Int

/-- The step below a power of two is half as wide as the one above it. -/
def interval (f : Format) (mantissa : Nat) (exponent : Int) : Interval :=
  let narrow := mantissa = Nat.pow 2 (f.precision - 1) ∧ f.lowest < exponent
  ⟨4 * mantissa - (if narrow then 1 else 2), 4 * mantissa, 4 * mantissa + 2, mantissa % 2 = 0,
    exponent - 2⟩

def commonUnits (digits : Nat) (place : Int) (count : Nat) (exponent : Int) : Nat × Nat :=
  let decimal := if 0 ≤ place then digits * Nat.pow 10 place.toNat else digits
  let binary := if 0 ≤ exponent then count * Nat.pow 2 exponent.toNat else count
  let decimal := if 0 ≤ exponent then decimal else decimal * Nat.pow 2 (-exponent).toNat
  let binary := if 0 ≤ place then binary else binary * Nat.pow 10 (-place).toNat
  (decimal, binary)

def Interval.holds (i : Interval) (digits : Nat) (place : Int) : Bool :=
  let (d, low) := commonUnits digits place i.low i.exponent
  let (_, high) := commonUnits digits place i.high i.exponent
  if i.closed then low ≤ d && d ≤ high else low < d && d < high

def Interval.floor (i : Interval) (place : Int) : Nat :=
  let (unit, value) := commonUnits 1 place i.value i.exponent
  value / unit

def Interval.upperIsNearer (i : Interval) (tieUp : Bool) (digits : Nat) (place : Int) : Bool :=
  let (d, value) := commonUnits (2 * digits + 1) place (2 * i.value) i.exponent
  if tieUp then d ≤ value else d < value

def Interval.onGrid (i : Interval) (tieUp : Bool) (place : Int) : Option Nat :=
  let below := i.floor place
  match i.holds below place, i.holds (below + 1) place with
  | true, true =>
    some (if i.upperIsNearer tieUp below place || below == 0 then below + 1 else below)
  | true, false => some below
  | false, true => some (below + 1)
  | false, false => none

def search (i : Interval) (tieUp : Bool) : (grids : Nat) → (place : Int) → Nat × Int
  | 0, place => (i.floor place, place)
  | grids + 1, place =>
    match i.onGrid tieUp place with
    | some digits => (digits, place)
    | none => search i tieUp grids (place - 1)

/-- The digits of a positive number and the place of the last of them. The grid at the place of
the last bit holds the number itself, so the search ends there at the latest. -/
def shortest (f : Format) (tieUp : Bool) (mantissa : Nat) (exponent : Int) : Nat × Int :=
  let top : Nat := f.highest.toNat + f.precision
  search (interval f mantissa exponent) tieUp (top + (-f.lowest).toNat) top

def digitText (n : Nat) : List Char := Nat.toDigits 10 n

def zeros (n : Nat) : List Char := List.replicate n '0'

def positional (whole : List Char) (digits : Nat) (place : Int) : List Char :=
  let ds := digitText digits
  if 0 ≤ place then ds ++ zeros place.toNat ++ whole
  else
    let after := (-place).toNat
    if after < ds.length then ds.take (ds.length - after) ++ '.' :: ds.drop (ds.length - after)
    else '0' :: '.' :: zeros (after - ds.length) ++ ds

def scientific (digits : Nat) (place : Int) : List Char :=
  let ds := digitText digits
  let exponent := place + (ds.length - 1 : Nat)
  let mark := 'e' :: (if exponent < 0 then '-' else '+') :: digitText exponent.natAbs
  match ds with
  | first :: second :: rest => first :: '.' :: second :: rest ++ mark
  | ds => ds ++ mark

def signText (negative : Bool) : List Char := if negative then ['-'] else []

/-- A number for messages: never with an exponent, and without a point if it is whole. -/
def Number.plainText (f : Format) : Number → String
  | .nan => "NaN"
  | .infinite negative => if negative then "-inf" else "inf"
  | .finite negative m e =>
    let text :=
      if m = 0 then ['0']
      else
        let (digits, place) := shortest f true m e
        positional [] digits place
    String.ofList (signText negative ++ text)

/-- A number for JSON texts: with a point, and with an exponent where its first digit stands at a
place outside of -5 to 15. What is no finite number is null. -/
def Number.jsonText (f : Format) : Number → String
  | .finite negative m e =>
    let text :=
      if m = 0 then ['0', '.', '0']
      else
        let (digits, place) := shortest f false m e
        let first := place + ((digitText digits).length - 1 : Nat)
        if -5 ≤ first ∧ first ≤ 15 then positional ['.', '0'] digits place
        else scientific digits place
    String.ofList (signText negative ++ text)
  | _ => "null"

end Refit.Decimal
