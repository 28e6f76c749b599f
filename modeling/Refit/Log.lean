namespace Refit.Log

inductive Level where
  | warn
  | debug
  deriving DecidableEq, Repr

inductive Topic where
  | draft
  | repair
  | workspace
  | promotion
  | build
  | chat
  | run
  deriving DecidableEq, Repr

def Topic.name : Topic → String
  | draft => "modernizer_core::editor"
  | repair => "modernizer_core::orchestrator"
  | workspace => "modernizer_core::workspace"
  | promotion => "modernizer_core::promotion"
  | build => "modernizer_core::verifier"
  | chat => "modernizer_llm"
  | run => "modernizer::migrate"

structure Record where
  level : Level
  topic : Topic
  text : String
  deriving DecidableEq, Repr

def Record.debug (topic : Topic) (text : String) : Record := ⟨.debug, topic, text⟩

def Record.warn (topic : Topic) (text : String) : Record := ⟨.warn, topic, text⟩

end Refit.Log
