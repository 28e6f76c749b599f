import Refit.Promotion.Decision
import Refit.Repair.Status

namespace Refit.Run

inductive FileResult where
  | done (status : Repair.Status) (decision : Promotion.Decision)
  | failed
  deriving DecidableEq, Repr

structure Summary where
  promoted : Nat := 0
  skipped : Nat := 0
  unchanged : Nat := 0
  failed : Nat := 0
  unverified : Nat := 0
  deriving DecidableEq, Repr

namespace Summary

def countDecision (s : Summary) : Promotion.Decision → Summary
  | .promoted => { s with promoted := s.promoted + 1 }
  | .declined | .dryRun => { s with skipped := s.skipped + 1 }
  | .unchanged => { s with unchanged := s.unchanged + 1 }

def record (s : Summary) : FileResult → Summary
  | .failed => { s with failed := s.failed + 1 }
  | .done status decision =>
    let s := if status.isUnverified then { s with unverified := s.unverified + 1 } else s
    s.countDecision decision

def total (s : Summary) : Nat := s.promoted + s.skipped + s.unchanged + s.failed

/-- Something is left to look at in the workspace. -/
def needsInspection (s : Summary) : Bool := 0 < s.failed || 0 < s.unverified

theorem total_record (s : Summary) (r : FileResult) : (s.record r).total = s.total + 1 := by
  cases r with
  | failed => simp only [record, total]; omega
  | done status decision =>
    cases decision <;> cases h : status.isUnverified <;>
      simp [record, countDecision, total, h] <;> omega

end Summary

end Refit.Run
