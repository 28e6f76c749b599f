import Mathlib.Algebra.Order.Field.Power
import Mathlib.Algebra.Order.Field.Rat
import Mathlib.Data.List.TakeWhile
import Mathlib.Tactic.Positivity
import Refit.Decimal.Literal

namespace Refit.Decimal

def AllDigits (cs : List Char) : Prop := ∀ c ∈ cs, c.isDigit = true

def IsSign (cs : List Char) : Prop := cs = [] ∨ cs = ['+'] ∨ cs = ['-']

def IsExponent (cs : List Char) : Prop :=
  cs = [] ∨ ∃ e sign ds, cs = e :: (sign ++ ds) ∧ (e = 'e' ∨ e = 'E') ∧ IsSign sign ∧ ds ≠ [] ∧
    AllDigits ds

variable {cs sign body whole fraction rest ds : List Char} {c : Char}

theorem IsExponent.head (h : IsExponent cs) : ∀ c ∈ cs.head?, c.isDigit = false ∧ c ≠ '.' := by
  rintro c hc
  obtain rfl | ⟨e, sign, ds, rfl, rfl | rfl, -⟩ := h
  · cases hc
  · cases hc
    decide
  · cases hc
    decide

end Refit.Decimal
