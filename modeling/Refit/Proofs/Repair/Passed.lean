import Refit.Proofs.Repair.Protocol
import Refit.Proofs.Repair.Splice

namespace Refit.Repair

variable {team : Team} {d : Draft} {w : World} {status : Status}

/-- A repair that asks for a rewrite, with the rounds that it goes through. -/
structure Asked (team : Team) (d : Draft) (w : World) (o : Opening) (rounds : List Round) : Prop where
  needed : team.strategy.needsMigration d.content = true
  opening : ∃ oracle before unit after, team.oracle = some oracle ∧
    Source.splitUnit? team.strategy.anchor.toList
      (d.applyRules team.strategy.rules).content.toList = some (before, unit, after) ∧
    o = opening team oracle before unit after d w
  held : o.Held rounds
  ended : o.Ended rounds (run team d w)

/-- A build of a text has passed in a repair. -/
def Passed (team : Team) (d : Draft) (w : World) (text : String) : Prop :=
  ∃ o rounds, Asked team d w o rounds ∧ ∃ r ∈ rounds, r.outcome = .success ∧ r.draft.content = text

theorem run_asks (team : Team) (d : Draft) (w : World) :
    (∃ o rounds, Asked team d w o rounds) ∨
      (run team d w).session.requested = 0 ∧
        ∃ status, (run team d w).status = .ok status ∧ status.isUnasked := by
  obtain ⟨hneedless, hunitless, horacleless, hasked⟩ := run_protocol team d w
  cases hn : team.strategy.needsMigration d.content with
  | false =>
    have h := hneedless hn
    exact .inr ⟨h.requested, _, h.status, trivial⟩
  | true =>
    by_cases hu : (d.applyRules team.strategy.rules).unit? team.strategy.anchor = none
    · have h := hunitless hn hu
      exact .inr ⟨h.requested, _, h.status, trivial⟩
    · cases ho : team.oracle with
      | none =>
        have h := horacleless hn hu ho
        exact .inr ⟨h.requested, _, h.status, trivial⟩
      | some oracle =>
        have hs : Source.splitUnit? team.strategy.anchor.toList
            (d.applyRules team.strategy.rules).content.toList ≠ none := fun hs => hu (by
          rw [Draft.unit?, hs]
          rfl)
        obtain ⟨⟨before, unit, after⟩, hs⟩ := Option.ne_none_iff_exists'.mp hs
        obtain ⟨rounds, hh, he⟩ := @run_ended team d w oracle before unit after hn hs ho
        exact .inl ⟨_, rounds, hn, ⟨oracle, before, unit, after, ho, hs, rfl⟩, hh, he⟩

theorem Asked.requested {o : Opening} {rounds : List Round} (h : Asked team d w o rounds) :
    0 < (run team d w).session.requested := by
  cases h.ended with
  | refused _ _ _ _ requested => omega
  | unwritable _ _ _ _ _ _ _ requested => omega
  | passed prior r rounds_eq _ _ _ _ requested =>
    rw [requested, rounds_eq, List.length_append, List.length_singleton]
    omega
  | spent prior r _ rounds_eq _ _ _ _ requested =>
    rw [requested, rounds_eq, List.length_append, List.length_singleton]
    omega

theorem not_passed_of_unverified {cause : Cause} {text : String}
    (hs : (run team d w).status = .ok (.unverified cause)) : ¬ Passed team d w text := by
  rintro ⟨o, rounds, hasked, r, hr, hpassed, -⟩
  cases hasked.ended with
  | refused _ failed => exact failed r hr hpassed
  | unwritable _ _ _ failed => exact failed r hr hpassed
  | passed _ _ _ _ _ _ status =>
    rw [status] at hs
    cases hs
  | spent prior last _ rounds_eq _ failed outcome =>
    rw [rounds_eq] at hr
    obtain hr | hr := List.mem_append.mp hr
    · exact failed r hr hpassed
    · rw [List.mem_singleton.mp hr, outcome] at hpassed
      cases hpassed

/-- What a verified repair leaves is the text whose build has passed. -/
theorem Asked.passed {o : Opening} {rounds : List Round} {n : Nat}
    (h : Asked team d w o rounds) (hs : (run team d w).status = .ok (.verified n)) :
    Passed team d w (run team d w).session.draft.content := by
  cases h.ended with
  | refused _ _ _ status =>
    rw [status] at hs
    cases hs
  | unwritable _ _ _ _ _ _ status =>
    rw [status] at hs
    cases hs
  | passed prior r rounds_eq _ _ outcome _ _ _ draft =>
    exact ⟨o, rounds, h, r, by simp [rounds_eq], outcome, by rw [draft]⟩
  | spent _ _ _ _ _ _ _ status =>
    rw [status] at hs
    cases hs

/-- A repair ends unverified if it asked for a rewrite and no build of what it leaves has passed. -/
theorem unverified_iff (hs : (run team d w).status = .ok status) :
    status.isUnverified = true ↔ 0 < (run team d w).session.requested ∧
      ¬ Passed team d w (run team d w).session.draft.content := by
  constructor
  · intro hu
    cases status with
    | unverified cause =>
      obtain ⟨o, rounds, hasked⟩ | ⟨-, status, hs', hunasked⟩ := run_asks team d w
      · exact ⟨hasked.requested, not_passed_of_unverified hs⟩
      · cases hs.symm.trans hs'
        exact hunasked.elim
    | _ => cases hu
  · rintro ⟨hrequested, hnot⟩
    obtain ⟨o, rounds, hasked⟩ | ⟨hnone, -⟩ := run_asks team d w
    · cases hended : hasked.ended with
      | refused _ _ _ status' =>
        rw [status'] at hs
        cases hs
        rfl
      | unwritable _ _ _ _ _ _ status' =>
        rw [status'] at hs
        cases hs
      | passed _ _ _ _ _ _ status' => exact absurd (hasked.passed status') hnot
      | spent _ _ _ _ _ _ _ status' =>
        rw [status'] at hs
        cases hs
        rfl
    · omega

end Refit.Repair
