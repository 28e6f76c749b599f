import Refit.Diff.Edit

namespace Refit.Diff

structure Window where
  oldLow : Nat
  oldHigh : Nat
  newLow : Nat
  newHigh : Nat
  deriving DecidableEq, Repr

def Window.size (w : Window) : Nat := (w.oldHigh - w.oldLow) + (w.newHigh - w.newLow)

/-- The furthest point on every diagonal, diagonal 0 standing in the middle of the array. -/
structure Reach where
  cells : Array Nat
  zero : Nat

def Reach.empty (limit : Nat) : Reach := ⟨Array.replicate (2 * limit + 2) 0, limit⟩

def Reach.get (r : Reach) (diagonal : Int) : Nat := r.cells.getD (diagonal + r.zero).toNat 0

def Reach.set (r : Reach) (diagonal : Int) (x : Nat) : Reach :=
  { r with cells := r.cells.setIfInBounds (diagonal + r.zero).toNat x }

/-- The start on a diagonal after `steps` edits: one line further than the better neighbour. -/
def Reach.enter (r : Reach) (steps : Nat) (diagonal : Int) : Nat :=
  if diagonal = -(steps : Int) ∨
      (diagonal ≠ steps ∧ r.get (diagonal - 1) < r.get (diagonal + 1)) then
    r.get (diagonal + 1)
  else r.get (diagonal - 1) + 1

def diagonals (steps : Nat) : List Int :=
  (List.range (steps + 1)).map fun (i : Nat) => (steps : Int) - 2 * (i : Int)

structure Reaches where
  forward : Reach
  backward : Reach

variable {α : Type} [DecidableEq α]

def forwardRound (a b : Array α) (w : Window) (steps : Nat) :
    List Int → Reaches → Except (Int × Int) Reaches
  | [], r => .ok r
  | k :: ks, r =>
    let n := w.oldHigh - w.oldLow
    let m := w.newHigh - w.newLow
    let delta : Int := (n : Int) - m
    let x₀ := r.forward.enter steps k
    let y₀ : Int := (x₀ : Int) - k
    let x :=
      if x₀ < n ∧ 0 ≤ y₀ ∧ y₀ < m then
        x₀ + agreeing a b (w.oldLow + x₀) (w.newLow + y₀.toNat) (min (n - x₀) (m - y₀.toNat))
      else x₀
    let r := { r with forward := r.forward.set k x }
    if delta % 2 ≠ 0 ∧ (k - delta).natAbs + 1 ≤ steps ∧ n ≤ x + r.backward.get (delta - k) then
      .error (w.oldLow + x₀, w.newLow + y₀)
    else forwardRound a b w steps ks r

def backwardRound (a b : Array α) (w : Window) (steps : Nat) :
    List Int → Reaches → Except (Int × Int) Reaches
  | [], r => .ok r
  | k :: ks, r =>
    let n := w.oldHigh - w.oldLow
    let m := w.newHigh - w.newLow
    let delta : Int := (n : Int) - m
    let x₀ := r.backward.enter steps k
    let y₀ : Int := (x₀ : Int) - k
    let run :=
      if x₀ < n ∧ 0 ≤ y₀ ∧ y₀ < m then
        agreeingBack a b (w.oldHigh - x₀) (w.newHigh - y₀.toNat) (min (n - x₀) (m - y₀.toNat))
      else 0
    let x := x₀ + run
    let y := y₀ + run
    let r := { r with backward := r.backward.set k x }
    if delta % 2 = 0 ∧ (k - delta).natAbs ≤ steps ∧ n ≤ x + r.forward.get (delta - k) then
      .error ((n : Int) - x + w.oldLow, (m : Int) - y + w.newLow)
    else backwardRound a b w steps ks r

def meet (a b : Array α) (w : Window) : (rounds steps : Nat) → Reaches → Option (Int × Int)
  | 0, _, _ => none
  | rounds + 1, steps, r =>
    let outcome := do
      let r ← forwardRound a b w steps (diagonals steps) r
      backwardRound a b w steps (diagonals steps) r
    match outcome with
    | .error point => some point
    | .ok r => meet a b w rounds (steps + 1) r

def middle (a b : Array α) (w : Window) : Option (Int × Int) :=
  let rounds := (w.size + 1) / 2 + 1
  meet a b w rounds 0 ⟨.empty rounds, .empty rounds⟩

end Refit.Diff
