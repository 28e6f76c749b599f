namespace Refit.Diff

inductive Kind where
  | keep
  | remove
  | insert
  deriving DecidableEq, Repr

/-- A run of lines: `oldLen` lines from `old` on, `newLen` lines from `new` on. A removal has no
new lines and an insertion no old ones. -/
structure Edit where
  kind : Kind
  old : Nat
  oldLen : Nat
  new : Nat
  newLen : Nat
  deriving DecidableEq, Repr

def Edit.keep (old new len : Nat) : Edit := ⟨.keep, old, len, new, len⟩

def Edit.remove (old len new : Nat) : Edit := ⟨.remove, old, len, new, 0⟩

def Edit.insert (old new len : Nat) : Edit := ⟨.insert, old, 0, new, len⟩

def Edit.isEmpty (e : Edit) : Bool := e.oldLen == 0 && e.newLen == 0

variable {α : Type} [DecidableEq α]

/-- How many of the `limit` elements from `i` and from `j` on agree, one after the other. -/
def agreeing (a b : Array α) (i j : Nat) : Nat → Nat
  | 0 => 0
  | limit + 1 => if a[i]? = b[j]? then agreeing a b (i + 1) (j + 1) limit + 1 else 0

def agreeingBack (a b : Array α) (i j : Nat) : Nat → Nat
  | 0 => 0
  | limit + 1 =>
    if a[i - 1]? = b[j - 1]? then agreeingBack a b (i - 1) (j - 1) limit + 1 else 0

theorem agreeing_le (a b : Array α) (i j limit : Nat) : agreeing a b i j limit ≤ limit := by
  induction limit generalizing i j with
  | zero => simp [agreeing]
  | succ limit ih =>
    simp only [agreeing]
    split
    · exact Nat.succ_le_succ (ih _ _)
    · exact Nat.zero_le _

theorem agreeingBack_le (a b : Array α) (i j limit : Nat) :
    agreeingBack a b i j limit ≤ limit := by
  induction limit generalizing i j with
  | zero => simp [agreeingBack]
  | succ limit ih =>
    simp only [agreeingBack]
    split
    · exact Nat.succ_le_succ (ih _ _)
    · exact Nat.zero_le _

end Refit.Diff
