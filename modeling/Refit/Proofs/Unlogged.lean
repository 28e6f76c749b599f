import Refit.Command.Program
import Refit.Proofs.Step

namespace Refit

variable {w w' : World} {j j' : Journal}

def Event.isLog : Event → Bool
  | .log _ => true
  | _ => false

/-- A journal without its log records. -/
def unlogged (j : Journal) : Journal := j.filter fun e => !e.isLog

@[simp] theorem unlogged_append (j es : Journal) :
    unlogged (j ++ es) = unlogged j ++ unlogged es :=
  List.filter_append j es

/-- Nothing but the log records differs. -/
structure SameButLogs (w w' : World) : Prop where
  tree : w.tree = w'.tree
  journal : unlogged w.journal = unlogged w'.journal

/-- An answer that does not depend on the log records. -/
def Deaf {α : Type} (f : Journal → α) : Prop := ∀ j j', unlogged j = unlogged j' → f j = f j'

theorem deaf_const {α : Type} (a : α) : Deaf fun _ => a := fun _ _ _ => rfl

theorem Deaf.after {α : Type} {f : Journal → α} (h : Deaf f) (hj : unlogged j = unlogged j')
    (es : Journal) : f (j ++ es) = f (j' ++ es) := by
  refine h _ _ ?_
  rw [unlogged_append, unlogged_append, hj]

theorem parallel_sameButLogs : Step.Parallel SameButLogs where
  tree _ _ h := h.tree
  notes w w' es h := by
    refine ⟨h.tree, ?_⟩
    change unlogged (w.journal ++ es) = unlogged (w'.journal ++ es)
    rw [unlogged_append, unlogged_append, h.journal]
  setTree _ _ _ h := ⟨rfl, h.journal⟩

theorem Log.Filter.shows_of_default (r : Log.Record) : (Log.Filter.ofText "error").shows r = false := by
  have h : Log.Filter.ofText "error" = { directives := [⟨none, .error⟩] } := by decide +kernel
  rw [h]
  rfl

theorem Terminal.transcript_unlogged {d : Terminal.Display} (hd : ∀ r, d.filter.shows r = false)
    (j : Journal) : Terminal.transcript d j = Terminal.transcript d (unlogged j) := by
  unfold Terminal.transcript
  congr 1
  induction j with
  | nil => rfl
  | cons e j ih =>
    rw [List.flatMap_cons, ih]
    cases e with
    | log r =>
      change (if d.filter.shows r then _ else _) ++ _ = _
      rw [hd]
      rfl
    | _ => rfl

end Refit
