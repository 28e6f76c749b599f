import Refit.Decimal.Literal
import Refit.Failure
import Refit.Settings.Table

namespace Refit

abbrev Environment := String → Option String

namespace Settings

def fileName : String := "modernizer.toml"

/-- A variable that is set to something other than blanks. -/
def given (env : Environment) (name : String) : Option String :=
  (env name).filter fun value => !Text.allBlank value.toList

def readProvider (text : String) : Except SettingFault Chat.Provider :=
  match Chat.Provider.ofName? (Chat.Provider.plainName text) with
  | some provider => .ok provider
  | none => .error (.unknownProvider (Chat.Provider.plainName text))

def readTemperature (text : String) : Except SettingFault Decimal.Number :=
  match Decimal.read Decimal.binary32 (Text.trimmed text) with
  | some x => .ok x
  | none => .error .temperatureText

/-- A variable wins if it is given, and then it has to be readable. -/
def override {α : Type} (read : String → Except SettingFault α) (fallback : α) :
    Option String → Except SettingFault α
  | none => .ok fallback
  | some text => read text

def overriddenBy (env : Environment) (s : Settings) : Except SettingFault Settings := do
  let provider ← override readProvider s.provider (given env "MODERNIZER_LLM_PROVIDER")
  let temperature ←
    override readTemperature s.temperature (given env "MODERNIZER_LLM_TEMPERATURE")
  return {
    s with
    provider
    model := (given env "MODERNIZER_LLM_MODEL").getD s.model
    temperature
    baseUrl := given env "MODERNIZER_LLM_BASE_URL" <|> s.baseUrl
    anthropicKey := given env Chat.Provider.anthropic.keyVariable <|> s.anthropicKey
    openAiKey := given env Chat.Provider.openAi.keyVariable <|> s.openAiKey
  }

def check (s : Settings) : Except SettingFault Settings :=
  if !s.temperature.inUnit then .error (.temperatureRange s.temperature)
  else if Text.allBlank s.model.toList then .error .blankModel
  else .ok s

/-- The settings of the file, or the defaults if there is none. -/
def ofFile (t : Tree) (path : String) : Except Failure Settings :=
  if t.isFile path then
    match t.readText path with
    | .error cause => .error (.file path cause)
    | .ok text =>
      match ofText text with
      | some s => .ok s
      | none => .error (.configuration path)
  else .ok {}

def load (t : Tree) (projectRoot : String) (env : Environment) : Except Failure Settings := do
  let s ← ofFile t (joinPath projectRoot fileName)
  match s.overriddenBy env >>= check with
  | .ok s => return s
  | .error fault => throw (.setting fault)

end Settings

end Refit
