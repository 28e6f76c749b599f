import Refit.Proofs.Repair.Splice

namespace Refit.Repair

variable {team : Team} {d : Draft} {w : World} {status : Status} {I : World → Prop}

theorem run_onDisk (hs : (run team d w).status = .ok status)
    (hc : ∀ history t, (team.checker.check history t).2.2 = t) :
    (run team d w).session.world.tree = w.tree ∨
      (run team d w).session.world.tree.readText d.path =
        .ok (run team d w).session.draft.content := by
  obtain ⟨hw, -⟩ | ⟨oracle, before, unit, after, rounds, -, hh, he⟩ := run_cases team d w
  · exact .inl (congrArg World.tree hw)
  · have hp := he.spliced hh
    cases hl : rounds.getLast? with
    | none => exact .inl (hp.unproposed status hs (List.getLast?_eq_none_iff.mp hl)).2
    | some r =>
      refine .inr (hp.onDisk status r hs hl ?_)
      have ht : ((opening team oracle before unit after d w).left r).tree = r.built.tree :=
        hc r.built.journal r.built.tree
      rw [ht]

theorem run_notNeeded (hs : (run team d w).status = .ok .notNeeded) :
    (run team d w).session.world = w := by
  obtain ⟨hw, -⟩ | ⟨oracle, before, unit, after, rounds, -, hh, he⟩ := run_cases team d w
  · exact hw
  · cases he with
    | refused _ _ _ status => rw [status] at hs; cases hs
    | unwritable _ _ _ _ _ _ status => rw [status] at hs; cases hs
    | passed _ _ _ _ _ _ status => rw [status] at hs; cases hs
    | spent _ _ _ _ _ _ _ status => rw [status] at hs; cases hs

theorem run_ok (hI : Keeps team.checker d.path I)
    (hwrite : ∀ w text, I w → ∃ t, w.tree.write d.path (String.toUTF8 text) = .ok t) (hw : I w) :
    ∃ status, (run team d w).status = .ok status := by
  rcases run_cases team d w with
    ⟨-, -, status, hs, -⟩ | ⟨oracle, before, unit, after, rounds, -, hh, he⟩
  · exact ⟨status, hs⟩
  · cases he with
    | refused _ _ _ status => exact ⟨_, status⟩
    | passed _ _ _ _ _ _ status => exact ⟨_, status⟩
    | spent _ _ _ _ _ _ _ status => exact ⟨_, status⟩
    | unwritable proposal failure _ _ _ written =>
      let o := opening team oracle before unit after d w
      obtain ⟨t, ht⟩ := hwrite _ (o.spliced proposal).content (hh.keeps hI hw).1
      have hp : (o.spliced proposal).persist (o.due rounds).tree = .ok t :=
        Draft.persist_eq_ok.mpr ht
      rw [written] at hp
      cases hp

theorem run_verified {n : Nat} (hs : (run team d w).status = .ok (.verified n))
    (hI : Keeps team.checker d.path I) (hw : I w) :
    ∃ built : World, I built ∧ (team.checker.check built.journal built.tree).1 = .success ∧
      built.tree.readText d.path = .ok (run team d w).session.draft.content ∧
      built.journal ++ (team.checker.check built.journal built.tree).2.1 <+:
        (run team d w).session.world.journal := by
  rcases run_cases team d w with
    ⟨-, -, status, hu, ha⟩ | ⟨oracle, before, unit, after, rounds, -, hh, he⟩
  · rw [hu] at hs
    cases hs
    exact ha.elim
  · cases he with
    | refused _ _ _ status => rw [status] at hs; cases hs
    | unwritable _ _ _ _ _ _ status => rw [status] at hs; cases hs
    | spent _ _ _ _ _ _ _ status => rw [status] at hs; cases hs
    | passed prior r rounds_eq _ _ outcome _ _ _ draft world =>
      have hr : r ∈ rounds := by simp [rounds_eq]
      obtain ⟨before', hf⟩ := hh.mem hr
      refine ⟨r.built, ((hh.keeps hI hw).2 r hr).1, ?_, ?_, ?_⟩
      · rw [← outcome, hf.outcome]
        rfl
      · rw [draft]
        exact (hh.spliced hr).2
      · rw [world]
        exact List.prefix_append _ _

end Refit.Repair
