namespace Refit.Decimal

/-- The bits of a mantissa, and the exponents of its last bit. -/
structure Format where
  precision : Nat
  lowest : Int
  highest : Int
  deriving DecidableEq, Repr

def binary32 : Format := ⟨24, -149, 104⟩

def binary64 : Format := ⟨53, -1074, 971⟩

inductive Number where
  | nan
  | infinite (negative : Bool)
  | finite (negative : Bool) (mantissa : Nat) (exponent : Int)
  deriving DecidableEq, Repr

def zero : Number := .finite false 0 0

def scaled (num den : Nat) (exponent : Int) : Nat × Nat :=
  if 0 ≤ exponent then (num, den * Nat.pow 2 exponent.toNat)
  else (num * Nat.pow 2 (-exponent).toNat, den)

/-- The integer nearest to a quotient; a half goes to the even one. -/
def nearest (num den : Nat) : Nat :=
  let floor := num / den
  let rest := 2 * (num % den)
  if rest < den ∨ (rest = den ∧ floor % 2 = 0) then floor else floor + 1

def firstBit (num den : Nat) : Int :=
  let guess : Int := (num.log2 : Int) - den.log2
  let (n, d) := scaled num den guess
  if n < d then guess - 1 else guess

/-- The nearest number of a format to a quotient; one too large for it becomes infinite. -/
def round (f : Format) (negative : Bool) (num den : Nat) : Number :=
  if num = 0 then .finite negative 0 f.lowest
  else
    let exponent := max (firstBit num den - ((f.precision : Int) - 1)) f.lowest
    let (n, d) := scaled num den exponent
    let mantissa := nearest n d
    let (mantissa, exponent) :=
      if mantissa = Nat.pow 2 f.precision then (mantissa / 2, exponent + 1) else (mantissa, exponent)
    if f.highest < exponent then .infinite negative else .finite negative mantissa exponent

def Number.toFormat (f : Format) : Number → Number
  | .nan => .nan
  | .infinite negative => .infinite negative
  | .finite negative m e =>
    if 0 ≤ e then round f negative (m * Nat.pow 2 e.toNat) 1
    else round f negative m (Nat.pow 2 (-e).toNat)

def ofInt (f : Format) (i : Int) : Number := round f (i < 0) i.natAbs 1

def Number.bits32 : Number → Nat
  | .nan => 0x7FC00000
  | .infinite negative => (if negative then 0x80000000 else 0) + 0x7F800000
  | .finite negative m e =>
    let place := if m = 0 then 0 else (e - binary32.lowest).toNat
    (if negative then 0x80000000 else 0) + place * 0x800000 + m

def Number.inUnit : Number → Bool
  | .finite negative m e =>
    m == 0 || (!negative && if 0 ≤ e then m * Nat.pow 2 e.toNat ≤ 1 else m ≤ Nat.pow 2 (-e).toNat)
  | _ => false

end Refit.Decimal
