import Refit.Chat.Client
import Refit.ProjectRoot
import Refit.Run.Error
import Refit.Run.File
import Refit.Settings.Load

namespace Refit.Run

structure Order where
  path : String
  target : String := "webflux"
  dryRun : Bool := false
  autoApprove : Bool := false
  deriving DecidableEq, Repr

/-- What a run meets: variables, the directory it starts in, and those it works with. -/
structure Surroundings where
  environment : Environment
  directory : Place
  tools : Build.Tools
  service : Chat.Service
  interrupted : Journal → Bool

def nobody : Promotion.Answerer := fun _ _ => false

/-- Migrates the files in their order, as long as the run is not interrupted. -/
def migrateAll (job : Job) (total : Nat) : Summary → List String → Step RunError Summary
  | s, [] => pure s
  | s, file :: rest => do
    if job.interrupted (← Step.journal) then
      Step.announce (.interrupted s.total total)
      return s
    else
      let result ← job.process file
      migrateAll job total (s.record result) rest

/-- The client of the selected service. Without any key there is none, but a key for another service
only is an error. -/
def client? (s : Settings) : Step RunError (Option Chat.Client) := do
  if s.hasAnyKey then
    let client ← Step.ofExcept ((Chat.Client.ofSettings s).mapError .chat)
    Step.announce (.using client.provider.name client.model)
    return some client
  else
    Step.announce .noKey
    return none

/-- Makes the workspace. One that cannot be completed is removed as far as possible. -/
def prepare (ws : Workspace) : Step RunError Unit := do
  match ← Step.attempt ws.create with
  | .ok () => Step.announce (.workspaceReady ws.root)
  | .error cause =>
    Step.announce .workspaceFailed
    let _ ← Step.attempt ws.cleanup
    Step.fail (.workspace cause)

/-- Removes the workspace, unless a dry run leaves something to look at, and sums up. -/
def conclude (ws : Workspace) (dryRun : Bool) (s : Summary) : Step RunError Unit := do
  if dryRun && s.needsInspection then Step.announce (.kept ws.root)
  else ws.cleanup.mapError .cleanup
  Step.announce (.summary s dryRun)

def rootRecord (root : String) : Log.Record := .debug .run ("Project root: " ++ root)

def systemRecord (b : Build.Builder) : Log.Record :=
  .debug .run ("Verifying with " ++ b.system.name)

def team (around : Surroundings) (strategy : Strategy) (client : Option Chat.Client)
    (b : Build.Builder) : Repair.Team where
  strategy := strategy
  oracle := client.map fun c => ⟨c.propose around.service⟩
  checker := ⟨b.check around.tools⟩

structure Plan where
  path : String
  strategy : Strategy
  client : Option Chat.Client
  root : String
  files : List String

def plan (around : Surroundings) (order : Order) : Step RunError Plan := do
  let place ← Step.ofExcept
    (((← Step.tree).canonical around.directory order.path).mapError (.pathNotFound order.path))
  let path := place.text
  let strategy ← match Strategy.find? order.target with
    | some strategy => pure strategy
    | none => Step.fail (.unknownTarget order.target)
  let root := ProjectRoot.find (← Step.tree) path
  Step.log (rootRecord root)
  let settings ← Step.ofExcept
    ((Settings.load (← Step.tree) root around.environment).mapError .settings)
  let client ← client? settings
  let files ← Step.ofExcept ((Sources.collect (← Step.tree) path).mapError .search)
  return ⟨path, strategy, client, root, files⟩

/-- Makes the workspace of a project and calls together those who work in it. -/
def setUp (around : Surroundings) (order : Order) (p : Plan) : Step RunError Job := do
  let ws ← Step.ofExcept ((Workspace.forProject (← Step.tree) p.root).mapError .project)
  prepare ws
  Step.announce (.filesFound p.files.length p.strategy.name)
  let b := Build.Builder.forRoot (← Step.tree) ws.root (around.environment "PATH")
  Step.log (systemRecord b)
  return ⟨ws, team around p.strategy p.client b, ⟨order.dryRun, order.autoApprove⟩, nobody,
    around.interrupted⟩

def migrateFiles (around : Surroundings) (order : Order) (p : Plan) : Step RunError Unit := do
  let job ← setUp around order p
  let summary ← migrateAll job p.files.length {} p.files
  conclude job.workspace order.dryRun summary

def migrate (around : Surroundings) (order : Order) : Step RunError Unit := do
  let p ← plan around order
  match p.files with
  | [] => Step.announce (.noSources p.path)
  | _ => migrateFiles around order p

end Refit.Run
