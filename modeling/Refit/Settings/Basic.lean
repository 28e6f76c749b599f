import Refit.Chat.Provider
import Refit.Decimal.Binary

namespace Refit

/-- Temperatures are numbers of 32 bits. -/
structure Settings where
  provider : Chat.Provider := .anthropic
  model : String := "claude-sonnet-4-5-20250929"
  temperature : Decimal.Number := Decimal.zero
  maxTokens : Nat := 64000
  /-- How often a request is repeated when it fails on its way. -/
  maxRetries : Nat := 3
  baseUrl : Option String := none
  anthropicKey : Option String := none
  openAiKey : Option String := none
  deriving DecidableEq, Repr

namespace Settings

def keyOf (s : Settings) : Chat.Provider → Option String
  | .anthropic => s.anthropicKey
  | .openAi => s.openAiKey

def apiKey (s : Settings) : Option String := s.keyOf s.provider

def hasAnyKey (s : Settings) : Bool := s.anthropicKey.isSome || s.openAiKey.isSome

end Settings

end Refit
