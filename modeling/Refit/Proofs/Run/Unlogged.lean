import Refit.Proofs.Repair.Unlogged
import Refit.Proofs.Run.Abreast
import Refit.Proofs.Workspace.Exact

namespace Refit

variable {job : Job} {around : Surroundings}

theorem Build.Builder.deaf_check (b : Builder) {tools : Tools} (h : Deaf tools) :
    Deaf (b.check tools) := by
  intro j j' hj
  funext t
  unfold check
  rw [h j j' hj]

namespace Chat.Client

variable {service : Service}

theorem send_deaf (c : Client) (h : Deaf service) (system user : String) :
    Deaf (c.send service system user) := by
  intro j j' hj
  unfold send
  split
  · rfl
  · dsimp only
    rw [h.after hj]

theorem sendWith_deaf (c : Client) (h : Deaf service) (system user : String) (left retry : Nat) :
    Deaf (c.sendWith service system user left retry) := by
  induction left generalizing retry with
  | zero =>
    intro j j' hj
    rw [sendWith, sendWith, send_deaf c h system user j j' hj]
  | succ left ih =>
    intro j j' hj
    rw [sendWith, sendWith, send_deaf c h system user j j' hj]
    rcases c.send service system user j' with ⟨_ | _, events⟩
    · dsimp only
      split
      · rw [(ih (retry + 1)).after hj]
      · rfl
    · rfl

theorem propose_deaf (c : Client) (h : Deaf service) : Deaf (c.propose service) := by
  intro j j' hj
  funext code instructions
  unfold propose complete
  rw [sendWith_deaf c h instructions code _ _ j j' hj]

end Chat.Client

namespace Workspace

theorem alike_cleanup {R : World → World → Prop} (hR : Step.Parallel R) (ws : Workspace) :
    Step.Alike R R ws.cleanup := by
  unfold cleanup
  refine (Step.alike_tree hR).bind fun t => ?_
  split
  · exact (Step.alike_setTree hR _).bind fun _ => Step.alike_note hR _
  · exact Step.alike_pure _
  · exact Step.alike_fail _

end Workspace

namespace Run

/-- Those who a job is done with see no log records. -/
structure Job.IsDeaf (job : Job) : Prop where
  team : job.team.IsDeaf
  answerer : Deaf job.answerer
  interrupted : Deaf job.interrupted

/-- None of the others sees the log records of a run. -/
structure Surroundings.IsDeaf (around : Surroundings) : Prop where
  tools : Deaf around.tools
  service : Deaf around.service
  interrupted : Deaf around.interrupted

theorem Job.IsDeaf.agrees (h : job.IsDeaf) : job.Agrees SameButLogs job where
  workspace := rfl
  gate := rfl
  answerer := rfl
  interrupted := rfl
  team := h.team.agrees
  unanswered _ _ hw := h.answerer _ _ hw.journal
  uninterrupted _ _ hw := h.interrupted _ _ hw.journal

theorem alike_migrateAll (h : job.IsDeaf) (total : Nat) (s : Summary) (files : List String) :
    Step.Alike SameButLogs SameButLogs (migrateAll job total s files) :=
  migrateAll_abreast parallel_sameButLogs.shares h.agrees total s fun _ _ =>
    ⟨trivial, fun _ _ => trivial⟩

theorem alike_conclude (ws : Workspace) (dryRun : Bool) (s : Summary) :
    Step.Alike SameButLogs SameButLogs (conclude ws dryRun s) :=
  conclude_abreast parallel_sameButLogs.shares.noted
    (Workspace.alike_cleanup parallel_sameButLogs ws) dryRun s

end Run

end Refit
