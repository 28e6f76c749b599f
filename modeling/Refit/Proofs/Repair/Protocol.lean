import Refit.Proofs.Repair.Rounds

/-!
The protocol between a repair, its oracle and its checker. `run_protocol` is the main statement: who
is called when and with what, and what the repair tells in the end.
-/

namespace Refit.Repair

/-- A repair that ends before anyone is called or anything is written. -/
structure Silent (result : Result) (w : World) (status : Status) (trace : List Phase) : Prop where
  status : result.status = .ok status
  trace : result.session.trace = trace
  requested : result.session.requested = 0
  world : result.session.world = w

/-- The requests of the rounds, in their order: the unit at first, and then each proposal with the
diagnostic of its build. -/
structure Opening.Requested (o : Opening) (rounds : List Round) : Prop where
  first : o.request [] =
    (String.ofList o.unit, o.team.strategy.initialInstructions (String.ofList o.unit))
  later : ∀ i (hi : i < rounds.length) d, rounds[i].outcome = .failed d →
    o.request (rounds.take (i + 1)) =
      (rounds[i].proposal, o.team.strategy.fixInstructions rounds[i].proposal d)
  rounds : ∀ i (hi : i < rounds.length), o.Follows (rounds.take i) rounds[i]

theorem Opening.Held.requested {o : Opening} {rounds : List Round} (h : o.Held rounds) :
    o.Requested rounds where
  first := rfl
  later i hi d hd := by
    rw [List.take_succ_eq_append_getElem hi]
    exact request_next hd
  rounds := h.follows

theorem Opening.Ended.length_le {o : Opening} {rounds : List Round} {result : Result}
    (h : o.Ended rounds result) : rounds.length ≤ maxAttempts := by
  cases h with
  | refused few => exact Nat.le_of_lt few
  | unwritable _ _ few => exact Nat.le_of_lt few
  | passed prior r rounds_eq few =>
    rw [rounds_eq, List.length_append]
    exact few
  | spent _ _ _ _ all => exact Nat.le_of_eq all

/-- A repair calls its oracle and its checker in turn, at most three times each, and tells how that
ended; where there is nothing to ask for or nobody to ask, it calls nobody and writes nothing. -/
theorem run_protocol (team : Team) (d : Draft) (w : World) :
    let base := d.applyRules team.strategy.rules
    let result := run team d w
    (team.strategy.needsMigration d.content = false →
      Silent result w .notNeeded [.idle, .screening, .done]) ∧
    (team.strategy.needsMigration d.content = true → base.unit? team.strategy.anchor = none →
      Silent result w (.rulesOnly .unitNotFound)
        [.idle, .screening, .applying, .awaiting, .done]) ∧
    (team.strategy.needsMigration d.content = true → base.unit? team.strategy.anchor ≠ none →
      team.oracle = none →
      Silent result w (.rulesOnly .noOracle) [.idle, .screening, .applying, .awaiting, .done]) ∧
    ∀ oracle before unit after, team.strategy.needsMigration d.content = true →
      team.oracle = some oracle →
      Source.splitUnit? team.strategy.anchor.toList base.content.toList =
        some (before, unit, after) →
      ∃ rounds, rounds.length ≤ maxAttempts ∧
        (opening team oracle before unit after d w).Requested rounds ∧
        (opening team oracle before unit after d w).Ended rounds result := by
  intro base result
  refine ⟨?_, ?_, ?_, ?_⟩
  · intro hn
    have hr := @run_of_not_needed team d w hn
    constructor <;> simp [result, hr]
  · intro hn hu
    have hr := @run_of_no_unit team d w hn hu
    constructor <;> simp [result, hr]
  · intro hn hu ho
    have hr := @run_of_no_oracle team d w hn hu ho
    constructor <;> simp [result, hr]
  · intro oracle before unit after hn ho hu
    obtain ⟨rounds, hh, he⟩ := @run_ended team d w oracle before unit after hn hu ho
    exact ⟨rounds, he.length_le, hh.requested, he⟩

end Refit.Repair
