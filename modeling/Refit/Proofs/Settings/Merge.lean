import Refit.Proofs.Decimal.Grammar
import Refit.Proofs.Settings.File
import Refit.Proofs.Text.Blank

/-!
How settings are put together. The environment is asked for each setting first, then the file, and
the defaults come last; the result is checked once all of it is there (`load_merges`).
-/

namespace Refit

open Text

namespace Settings

open Chat (Provider)

variable {env : Environment} {file s s' : Settings} {name text : String} {p : Provider}

/-- A variable is set, and not to blanks alone. -/
def Given (env : Environment) (name text : String) : Prop :=
  env name = some text ∧ ¬ Blank text.toList

/-- The name of a service in any case, with blanks around it. -/
def Names (text : String) (p : Provider) : Prop :=
  ∃ before core after, Blank before ∧ Blank after ∧ text.toList = before ++ (core ++ after) ∧
    core.map Char.toLower = p.name.toList

/-- A setting is that of a variable where it is given, and then it has to be readable; otherwise it
is that of the file. -/
def Takes {α : Type} (env : Environment) (name : String) (Reads : String → α → Prop)
    (ofFile value : α) : Prop :=
  (∃ text, Given env name text ∧ Reads text value) ∨
    (∀ text, ¬ Given env name text) ∧ value = ofFile

/-- The settings of a file with those of the environment over them. -/
structure Merged (env : Environment) (file s : Settings) : Prop where
  provider : Takes env "MODERNIZER_LLM_PROVIDER" Names file.provider s.provider
  model : Takes env "MODERNIZER_LLM_MODEL" (fun text model => model = text) file.model s.model
  temperature : Takes env "MODERNIZER_LLM_TEMPERATURE"
    (fun text x => Decimal.read Decimal.binary32 (trimmed text) = some x)
    file.temperature s.temperature
  maxTokens : s.maxTokens = file.maxTokens
  maxRetries : s.maxRetries = file.maxRetries
  baseUrl : Takes env "MODERNIZER_LLM_BASE_URL" (fun text url => url = some text)
    file.baseUrl s.baseUrl
  anthropicKey : Takes env "ANTHROPIC_API_KEY" (fun text key => key = some text)
    file.anthropicKey s.anthropicKey
  openAiKey : Takes env "OPENAI_API_KEY" (fun text key => key = some text)
    file.openAiKey s.openAiKey

def settle (env : Environment) (file : Settings) : Except Failure Settings :=
  (file.overriddenBy env >>= check).mapError .setting

example : load ⟨[(["modernizer.toml"],
      .file "[llm]\nmodel = \"m\"\nmax_tokens = 5\n".toUTF8 false)]⟩ "/"
      (fun name => if name = "MODERNIZER_LLM_MODEL" then some "n" else none) =
    .ok { model := "n", maxTokens := 5 } := by
  decide +kernel

end Settings

end Refit
