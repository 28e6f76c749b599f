import Refit.Proofs.Promotion.Contract
import Refit.Proofs.Repair.Splice
import Refit.Proofs.Run.Pair
import Refit.Proofs.Workspace.Plain

namespace Refit.Run

open Refit.Path Refit.Tree Workspace

variable {job : Job} {r copy original : Place} {file path text : String} {w w' : World}
  {draft d : Draft}

/-- What the rules make of a text. One without a marker is left alone. -/
def rewritten (text : String) : String :=
  if Strategy.webFlux.needsMigration text then
    String.ofList (Source.applyRules Strategy.webFluxRules text.toList)
  else text

/-- A job for the literal rules alone, which saves without asking. -/
structure Job.RulesOnly (job : Job) (r : Place) : Prop where
  workspace : job.workspace = ofPlace r
  strategy : job.team.strategy = Strategy.webFlux
  oracle : job.team.oracle = none
  gate : job.gate = ⟨false, true⟩

def decisionOn (text : String) : Promotion.Decision :=
  if rewritten text = text then .unchanged else .promoted

theorem repair_rulesOnly (hj : job.RulesOnly r) (d : Draft) (w : World) :
    ∃ session status, (job.repair d).run w = (.ok (session, status), w) ∧
      session.draft.path = d.path ∧ session.draft.content = rewritten d.content ∧
      status.isUnverified = false ∧ (status = .notNeeded → rewritten d.content = d.content) := by
  have hrepair : (job.repair d).run w = ((Repair.run job.team d w).status.map fun status =>
      ((Repair.run job.team d w).session, status), (Repair.run job.team d w).session.world) := rfl
  rw [hrepair]
  cases hn : job.team.strategy.needsMigration d.content with
  | false =>
    have hr : rewritten d.content = d.content := by
      rw [hj.strategy] at hn
      rw [rewritten, hn]
      rfl
    rw [Repair.run_of_not_needed hn]
    exact ⟨_, _, rfl, rfl, hr.symm, rfl, fun _ => hr⟩
  | true =>
    have hr : (d.applyRules job.team.strategy.rules).content = rewritten d.content := by
      rw [hj.strategy] at hn ⊢
      rw [rewritten, hn]
      rfl
    by_cases hu : (d.applyRules job.team.strategy.rules).unit? job.team.strategy.anchor = none
    · rw [Repair.run_of_no_unit hn hu]
      exact ⟨_, _, rfl, rfl, hr, rfl, nofun⟩
    · rw [Repair.run_of_no_oracle hn hu hj.oracle]
      exact ⟨_, _, rfl, rfl, hr, rfl, nofun⟩

theorem promote_paired (job : Job) (h : Paired w.tree draft.path file copy original text)
    (hne : draft.content ≠ text) :
    ∃ w', (Promotion.promote ⟨false, true⟩ job.answerer draft file).run w = (.ok .promoted, w') ∧
      Settled w.tree w'.tree copy original draft.content := by
  have halike : AlikeBut copy w.tree w.tree := ⟨fun _ _ => rfl, h.copy.holds.fileAt⟩
  obtain ⟨u, hwrite, hu, hholds⟩ := h.writes halike draft.content.toUTF8
  obtain ⟨runnable, hcopy⟩ := (h.copyAt hu hholds).copy (h.originalAt hu) h.apart
  have horiginal := h.original.ne_nil
  rw [Promotion.run_promote, h.original.readText]
  simp only [if_neg hne, hwrite]
  rw [Promotion.run_decide]
  change ∃ w', (Promotion.save draft file _).run _ = _ ∧ _
  rw [Promotion.run_save]
  simp only [hcopy]
  refine ⟨_, rfl, fun p hp ho => ?_, ?_, holds_put horiginal⟩
  · rw [get?_put _ _ _ _ horiginal, if_neg ho]
    exact hu.1 p hp
  · exact hholds.congr (by rw [get?_put _ _ _ _ horiginal, if_neg h.apart.symm])

theorem job_promote_paired (hj : job.RulesOnly r)
    (h : Paired w.tree draft.path file copy original text) :
    ∃ w', (job.promote draft file).run w =
        (.ok (if draft.content = text then .unchanged else .promoted), w') ∧
      Settled w.tree w'.tree copy original draft.content := by
  unfold Job.promote
  rw [hj.gate, Step.run_bind]
  by_cases hc : draft.content = text
  · have hrun : (Promotion.promote ⟨false, true⟩ job.answerer draft file).run w =
        (.ok .unchanged, w) := by
      rw [Promotion.run_promote, h.original.readText]
      exact if_pos hc
    rw [hrun, if_pos hc, hc]
    exact ⟨w, rfl, fun _ _ _ => rfl, h.copy.holds, h.original.holds⟩
  · obtain ⟨w', hrun, hs⟩ := promote_paired job h hc
    rw [hrun, if_neg hc]
    exact ⟨w', rfl, hs⟩

theorem migrate_text (hj : job.RulesOnly r) (hmap : (ofPlace r).mapPath file = .ok path)
    (h : Paired w.tree path file copy original text) :
    ∃ status w', (job.migrate file).run w = (.ok (.done status (decisionOn text)), w') ∧
      status.isUnverified = false ∧ Settled w.tree w'.tree copy original (rewritten text) := by
  have hload : Draft.load w.tree path = .ok ⟨path, text, text⟩ := by
    unfold Draft.load
    rw [h.copy.readText]
    rfl
  obtain ⟨session, status, hrepair, hpath, hcontent, hv, hnot⟩ :=
    repair_rulesOnly hj ⟨path, text, text⟩ w
  dsimp only at hpath hcontent hnot
  have hrun : (job.migrate file).run w =
      (if status = .notNeeded then return .done status .unchanged
        else return .done status (← job.promote session.draft file) : Action FileResult).run
        ((w.log (Job.traceRecord file session)).announce (.fileDone (Job.nameOf file) status)) := by
    unfold Job.migrate
    rw [hj.workspace, hmap, Step.run_ofExcept_bind]
    dsimp only
    rw [Step.run_tree_bind, hload, Step.run_ofExcept_bind]
    dsimp only
    rw [Step.run_bind, hrepair]
    dsimp only
    rw [Step.log, Step.run_note_bind, Step.announce, Step.run_note_bind]
    rfl
  rw [hrun]
  have hold : Settled w.tree w.tree copy original text :=
    ⟨fun _ _ _ => rfl, h.copy.holds, h.original.holds⟩
  by_cases hn : status = .notNeeded
  · have hsame := hnot hn
    rw [if_pos hn, decisionOn, if_pos hsame, hsame]
    exact ⟨status, _, rfl, hv, hold⟩
  · rw [← hpath] at h
    obtain ⟨w', hpromote, hs⟩ := @job_promote_paired job r copy original file text
      ((w.log (Job.traceRecord file session)).announce (.fileDone (Job.nameOf file) status))
      session.draft hj h
    rw [hcontent] at hpromote hs
    rw [if_neg hn, Step.run_bind, hpromote]
    exact ⟨status, w', rfl, hv, hs⟩

theorem migrate_failed (hj : job.RulesOnly r) (hmap : (ofPlace r).mapPath file = .ok path)
    (hload : ∀ text, w.tree.readText path ≠ .ok text) :
    ∃ e, (job.migrate file).run w = (.error e, w) := by
  have herror : ∃ e, Draft.load w.tree path = .error e := by
    unfold Draft.load
    split
    · exact absurd ‹_› (hload _)
    · exact ⟨_, rfl⟩
  obtain ⟨e, he⟩ := herror
  refine ⟨e, ?_⟩
  unfold Job.migrate
  rw [hj.workspace, hmap, Step.run_ofExcept_bind]
  dsimp only
  rw [Step.run_tree_bind, he, Step.run_ofExcept_bind]

theorem process_text (hj : job.RulesOnly r) (hmap : (ofPlace r).mapPath file = .ok path)
    (h : Paired w.tree path file copy original text) :
    ∃ status w', (job.process file (ε := RunError)).run w =
        (.ok (.done status (decisionOn text)), w') ∧
      status.isUnverified = false ∧ Settled w.tree w'.tree copy original (rewritten text) := by
  obtain ⟨status, w', hrun, hv, hs⟩ := migrate_text hj hmap h
  rw [Job.run_process, hrun]
  exact ⟨status, w', rfl, hv, hs⟩

theorem process_failed (hj : job.RulesOnly r) (hmap : (ofPlace r).mapPath file = .ok path)
    (hload : ∀ text, w.tree.readText path ≠ .ok text) :
    ∃ w', (job.process file (ε := RunError)).run w = (.ok .failed, w') ∧ w'.tree = w.tree := by
  obtain ⟨e, hrun⟩ := migrate_failed hj hmap hload
  rw [Job.run_process, hrun]
  exact ⟨_, rfl, rfl⟩

end Refit.Run
