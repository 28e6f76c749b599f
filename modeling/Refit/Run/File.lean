import Refit.Promotion.Gate
import Refit.Repair.Loop
import Refit.Workspace

namespace Refit.Run

/-- What stays the same for all files of a run. -/
structure Job where
  workspace : Workspace
  team : Repair.Team
  gate : Promotion.Gate
  answerer : Promotion.Answerer
  /-- Whether the run has been asked to stop. -/
  interrupted : Journal → Bool

namespace Job

def repair (job : Job) (draft : Draft) : Action (Repair.Session × Repair.Status) := fun w =>
  let result := Repair.run job.team draft w
  (result.status.map fun status => (result.session, status), result.session.world)

def traceRecord (file : String) (s : Repair.Session) : Log.Record :=
  .debug .run
    (file ++ ": " ++ " -> ".intercalate (s.trace.map Repair.Phase.name) ++ " (" ++
      toString s.requested ++ " proposals)")

def nameOf (file : String) : String := (Path.ofText file).label

def promote (job : Job) (draft : Draft) (file : String) : Action Promotion.Decision := do
  let decision ← Promotion.promote job.gate job.answerer draft file
  if decision = .dryRun then Step.announce (.notSaved (nameOf file))
  return decision

/-- Migrates one file. A file that needs no migration does not reach the gate. -/
def migrate (job : Job) (file : String) : Action FileResult := do
  let path ← Step.ofExcept (job.workspace.mapPath file)
  let draft ← Step.ofExcept (Draft.load (← Step.tree) path)
  let (session, status) ← job.repair draft
  Step.log (traceRecord file session)
  Step.announce (.fileDone (nameOf file) status)
  if status = .notNeeded then return .done status .unchanged
  else return .done status (← job.promote session.draft file)

/-- Migrates one file; a failure is told and counted, and does not end the run. -/
def process (job : Job) (file : String) {ε : Type} : Step ε FileResult := do
  match ← Step.attempt (job.migrate file) with
  | .ok result => return result
  | .error e =>
    Step.announce (.fileFailed (nameOf file) e.full)
    return .failed

end Job

end Refit.Run
