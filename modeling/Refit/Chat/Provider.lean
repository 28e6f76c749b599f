import Refit.Text.Blank

namespace Refit.Chat

inductive Provider where
  | anthropic
  | openAi
  deriving DecidableEq, Repr

namespace Provider

def name : Provider → String
  | anthropic => "anthropic"
  | openAi => "openai"

def keyVariable : Provider → String
  | anthropic => "ANTHROPIC_API_KEY"
  | openAi => "OPENAI_API_KEY"

def all : List Provider := [anthropic, openAi]

def ofName? (name : String) : Option Provider := all.find? fun p => p.name == name

def plainName (text : String) : String := Text.lowered (Text.trimmed text)

end Provider

end Refit.Chat
