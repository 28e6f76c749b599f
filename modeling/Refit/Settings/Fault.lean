import Refit.Chat.Provider
import Refit.Decimal.Shortest

namespace Refit

inductive SettingFault where
  | unknownProvider (name : String)
  | temperatureText
  | temperatureRange (temperature : Decimal.Number)
  | blankModel
  deriving DecidableEq, Repr

namespace SettingFault

def key : SettingFault → String
  | unknownProvider _ => "MODERNIZER_LLM_PROVIDER"
  | temperatureText => "MODERNIZER_LLM_TEMPERATURE"
  | temperatureRange _ => "llm.temperature"
  | blankModel => "llm.model"

def reason : SettingFault → String
  | unknownProvider name =>
    "unknown provider '" ++ name ++ "' (expected 'anthropic' or 'openai')"
  | temperatureText => "invalid float literal"
  | temperatureRange x => x.plainText Decimal.binary32 ++ " is outside 0.0..=1.0"
  | blankModel => "model must not be empty"

end SettingFault

end Refit
