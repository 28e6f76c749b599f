import Refit.Proofs.Repair.Abreast
import Refit.Proofs.Unlogged

namespace Refit.Repair

variable {team : Team}

/-- Those who work together see no log records. -/
structure Team.IsDeaf (team : Team) : Prop where
  oracle : ∀ oracle, team.oracle = some oracle → Deaf oracle.propose
  checker : Deaf team.checker.check

theorem Oracle.agrees_of_deaf {oracle : Oracle} (h : Deaf oracle.propose) :
    oracle.Agrees SameButLogs oracle := by
  intro w w' code instructions hw
  rw [h _ _ hw.journal]
  exact ⟨rfl, parallel_sameButLogs.notes _ _ _ hw⟩

theorem Checker.agrees_of_deaf {checker : Checker} (h : Deaf checker.check) :
    checker.Agrees SameButLogs checker := by
  intro w w' hw
  rw [h _ _ hw.journal, hw.tree]
  exact ⟨rfl, parallel_sameButLogs.setTree _ _ _ (parallel_sameButLogs.notes _ _ _ hw)⟩

/-- Those who see no log records work the same way whatever these are. -/
theorem Team.IsDeaf.agrees (h : team.IsDeaf) : team.Agrees SameButLogs team where
  strategy := rfl
  noted := parallel_sameButLogs.shares.noted
  written := parallel_sameButLogs.shares.written
  oracle := by
    cases ho : team.oracle with
    | none => exact .inl ⟨rfl, rfl⟩
    | some oracle =>
      exact .inr ⟨oracle, oracle, rfl, rfl, Oracle.agrees_of_deaf (h.oracle oracle ho)⟩
  checker := Checker.agrees_of_deaf h.checker

end Refit.Repair
