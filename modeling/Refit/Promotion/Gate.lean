import Refit.Step
import Refit.Draft

namespace Refit.Promotion

structure Gate where
  dryRun : Bool
  autoApprove : Bool
  deriving DecidableEq, Repr

/-- Who answers questions, with regard to what has happened so far. -/
abbrev Answerer := Journal → (question : String) → Bool

def ask (answerer : Answerer) (question : String) : Action Bool := do
  let answer := answerer (← Step.journal) question
  Step.note (.prompt question answer)
  return answer

def copyRecord (draft : Draft) (file : String) : Log.Record :=
  .debug .promotion ("Promoting " ++ draft.path ++ " -> " ++ file)

def save (draft : Draft) (file name : String) : Action Decision := do
  Step.log (copyRecord draft file)
  Step.change file fun t => t.copy draft.path file
  Step.say .success ("Saved " ++ name)
  return .promoted

def decide (gate : Gate) (answerer : Answerer) (draft : Draft) (file name : String) :
    Action Decision := do
  if gate.dryRun then return .dryRun
  if gate.autoApprove then save draft file name
  else if ← ask answerer ("Apply changes to " ++ name ++ "?") then save draft file name
  else
    Step.say .info ("Skipped " ++ name)
    return .declined

/-- Shows what a draft changes and saves it if that is agreed to. -/
def promote (gate : Gate) (answerer : Answerer) (draft : Draft) (file : String) :
    Action Decision := do
  let current ← Step.inspect file fun t => t.readText file
  if draft.changedFrom current then
    Step.change draft.path fun t => t.write draft.path draft.content.toUTF8
    let name := (Path.ofText file).label
    Step.note (.diff file (draft.diff current ("Original: " ++ name) "Migrated (Sandbox)"))
    decide gate answerer draft file name
  else return .unchanged

end Refit.Promotion
