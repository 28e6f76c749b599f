import Refit.Chat.Error
import Refit.Sources
import Refit.Strategy

namespace Refit.Run

inductive RunError where
  | pathNotFound (path : String) (cause : FileError)
  | unknownTarget (target : String)
  | settings (cause : Failure)
  | chat (cause : Chat.ChatError)
  | search (cause : Sources.SearchError)
  | project (cause : Failure)
  | workspace (cause : Failure)
  | cleanup (cause : Failure)
  deriving DecidableEq, Repr

namespace RunError

def targets : String := ", ".intercalate (Strategy.catalogue.map Strategy.name)

def message : RunError → String
  | pathNotFound path _ => "Path not found: " ++ path
  | unknownTarget target => "Unknown target '" ++ target ++ "' (available: " ++ targets ++ ")"
  | settings _ => "Failed to load settings"
  | chat _ => "Failed to initialize rewrite oracle"
  | search cause => cause.message
  | project cause => cause.message
  | workspace _ => "Failed to create workspace"
  | cleanup _ => "Failed to remove workspace"

def causes : RunError → List String
  | pathNotFound _ cause => [cause.message]
  | unknownTarget _ => []
  | settings cause | workspace cause | cleanup cause => cause.message :: cause.causes
  | chat cause => [cause.message]
  | search _ => []
  | project cause => cause.causes

end RunError

end Refit.Run
