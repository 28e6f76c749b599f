import Refit.Failure
import Refit.Journal

namespace Refit

/-- A step with a result of type `α` or an error of type `ε`. -/
def Step (ε α : Type) : Type := World → Except ε α × World

abbrev Action (α : Type) : Type := Step Failure α

namespace Step

variable {ε δ α β : Type}

def run (x : Step ε α) (w : World) : Except ε α × World := x w

instance : Monad (Step ε) where
  pure a := fun w => (.ok a, w)
  bind x f := fun w =>
    match x w with
    | (.ok a, w) => f a w
    | (.error e, w) => (.error e, w)

def fail (e : ε) : Step ε α := fun w => (.error e, w)

def journal : Step ε Journal := fun w => (.ok w.journal, w)

def tree : Step ε Tree := fun w => (.ok w.tree, w)

def setTree (t : Tree) : Step ε Unit := fun w => (.ok (), { w with tree := t })

def note (e : Event) : Step ε Unit := fun w => (.ok (), w.note e)

def log (r : Log.Record) : Step ε Unit := note (.log r)

def say (tone : Tone) (message : String) : Step ε Unit := note (.status tone message)

def announce (n : Notice) : Step ε Unit := note (.notice n)

/-- The result of a step as a value, so that the steps after it see a failure and go on. -/
def attempt (x : Step ε α) : Step δ (Except ε α) := fun w =>
  let (r, w) := x w
  (.ok r, w)

def ofExcept : Except ε α → Step ε α
  | .ok a => pure a
  | .error e => fail e

def mapError (f : ε → δ) (x : Step ε α) : Step δ α := fun w =>
  let (r, w) := x w
  (r.mapError f, w)

/-- Looks at the tree; an error is one on the given path. -/
def inspect (path : String) (f : Tree → Except FileError α) : Action α := fun w =>
  match f w.tree with
  | .ok a => (.ok a, w)
  | .error cause => (.error (.file path cause), w)

/-- Changes the tree; an error is one on the given path. -/
def change (path : String) (f : Tree → Except FileError Tree) : Action Unit := fun w =>
  match f w.tree with
  | .ok t => (.ok (), { w with tree := t })
  | .error cause => (.error (.file path cause), w)

@[simp] theorem run_pure (a : α) (w : World) : (pure a : Step ε α).run w = (.ok a, w) := rfl

@[simp] theorem run_fail (e : ε) (w : World) : (fail e : Step ε α).run w = (.error e, w) := rfl

theorem run_bind (x : Step ε α) (f : α → Step ε β) (w : World) :
    (x >>= f).run w =
      match x.run w with
      | (.ok a, w) => (f a).run w
      | (.error e, w) => (.error e, w) := rfl

end Step

end Refit
