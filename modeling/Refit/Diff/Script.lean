import Refit.Diff.Middle

namespace Refit.Diff

variable {α : Type} [DecidableEq α]

def Window.sharedStart (a b : Array α) (w : Window) : Nat :=
  agreeing a b w.oldLow w.newLow (min (w.oldHigh - w.oldLow) (w.newHigh - w.newLow))

def Window.sharedEnd (a b : Array α) (w : Window) : Nat :=
  agreeingBack a b w.oldHigh w.newHigh (min (w.oldHigh - w.oldLow) (w.newHigh - w.newLow))

def keepRun (old new len : Nat) : List Edit := if len = 0 then [] else [.keep old new len]

def Window.exchange (w : Window) : List Edit :=
  [.remove w.oldLow (w.oldHigh - w.oldLow) w.newLow,
   .insert w.oldHigh w.newLow (w.newHigh - w.newLow)]

def Window.halves (w : Window) (point : Int × Int) :
    Option { halves : Window × Window // halves.1.size < w.size ∧ halves.2.size < w.size } :=
  let x := point.1.toNat
  let y := point.2.toNat
  let first : Window := ⟨w.oldLow, x, w.newLow, y⟩
  let second : Window := ⟨x, w.oldHigh, y, w.newHigh⟩
  if h : (w.oldLow ≤ x ∧ x ≤ w.oldHigh ∧ w.newLow ≤ y ∧ y ≤ w.newHigh) ∧
      first.size < w.size ∧ second.size < w.size then
    some ⟨(first, second), h.2⟩
  else none

def window (a b : Array α) (w : Window) : List Edit :=
  let start := w.sharedStart a b
  let inner : Window := ⟨w.oldLow + start, w.oldHigh, w.newLow + start, w.newHigh⟩
  let stop := inner.sharedEnd a b
  let core : Window := ⟨inner.oldLow, w.oldHigh - stop, inner.newLow, w.newHigh - stop⟩
  let edits :=
    if core.oldHigh = core.oldLow ∧ core.newHigh = core.newLow then []
    else if core.newHigh = core.newLow then
      [.remove core.oldLow (core.oldHigh - core.oldLow) core.newLow]
    else if core.oldHigh = core.oldLow then
      [.insert core.oldLow core.newLow (core.newHigh - core.newLow)]
    else
      match (middle a b core).bind core.halves with
      | none => core.exchange
      | some ⟨(first, second), h⟩ =>
        have hcore : core.size ≤ w.size := by simp only [Window.size, core, inner]; omega
        have h₁ : first.size < w.size := Nat.lt_of_lt_of_le h.1 hcore
        have h₂ : second.size < w.size := Nat.lt_of_lt_of_le h.2 hcore
        window a b first ++ window a b second
  keepRun w.oldLow w.newLow start ++ edits ++ keepRun core.oldHigh core.newHigh stop
termination_by w.size

def script (a b : Array α) : List Edit := window a b ⟨0, a.size, 0, b.size⟩

end Refit.Diff
