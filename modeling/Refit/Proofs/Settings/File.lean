import Mathlib.Data.List.Induction
import Refit.Proofs.Tree.Trail
import Refit.Settings.Load

namespace Refit.Settings

open Toml (Item Members member?)

variable {α : Type} {s s' : Settings} {ms : Members} {name text path : String} {item : Item}
  {t : Tree}

/-- A setting that a file can give: the name of its member, how that is read, and what is set. -/
structure Setting (α : Type) where
  name : String
  read : Item → Option α
  get : Settings → Option α

namespace Setting

def provider : Setting Chat.Provider := ⟨"provider", provider?, fun s => some s.provider⟩

def model : Setting String := ⟨"model", text?, fun s => some s.model⟩

def temperature : Setting Decimal.Number := ⟨"temperature", temperature?, fun s => some s.temperature⟩

def maxTokens : Setting Nat := ⟨"max_tokens", count?, fun s => some s.maxTokens⟩

def maxRetries : Setting Nat := ⟨"max_retries", count?, fun s => some s.maxRetries⟩

def baseUrl : Setting String := ⟨"base_url", text?, fun s => s.baseUrl⟩

def anthropicKey : Setting String := ⟨"anthropic_api_key", text?, fun s => s.anthropicKey⟩

def openAiKey : Setting String := ⟨"openai_api_key", text?, fun s => s.openAiKey⟩

/-- What the members say of a setting: the last of its name counts. -/
def written (f : Setting α) (ms : Members) : Option α := (member? f.name ms.reverse).bind f.read

end Setting

def Readable (name : String) (item : Item) : Prop := (assign {} name item).isSome = true

/-- The settings that a table says. -/
structure Says (ms : Members) (s : Settings) : Prop where
  readable : ∀ x ∈ ms, Readable x.1 x.2
  provider : s.provider = (Setting.provider.written ms).getD .anthropic
  model : s.model = (Setting.model.written ms).getD "claude-sonnet-4-5-20250929"
  temperature : s.temperature = (Setting.temperature.written ms).getD Decimal.zero
  maxTokens : s.maxTokens = (Setting.maxTokens.written ms).getD 64000
  maxRetries : s.maxRetries = (Setting.maxRetries.written ms).getD 3
  baseUrl : s.baseUrl = Setting.baseUrl.written ms
  anthropicKey : s.anthropicKey = Setting.anthropicKey.written ms
  openAiKey : s.openAiKey = Setting.openAiKey.written ms

theorem Says.unique (h : Says ms s) (h' : Says ms s') : s = s' := by
  cases s
  cases s'
  simp only [mk.injEq]
  exact ⟨h.provider.trans h'.provider.symm, h.model.trans h'.model.symm,
    h.temperature.trans h'.temperature.symm, h.maxTokens.trans h'.maxTokens.symm,
    h.maxRetries.trans h'.maxRetries.symm, h.baseUrl.trans h'.baseUrl.symm,
    h.anthropicKey.trans h'.anthropicKey.symm, h.openAiKey.trans h'.openAiKey.symm⟩

def membersOf? : Item → Option Members
  | .inlineTable _ ms | .table _ ms => some ms
  | .array items => some (names.zip items)
  | .tables each => some (names.zip (each.map (Item.table .explicit)))
  | .dateTime => some []
  | _ => none

def listed? (text : String) : Option Members :=
  (Toml.read text).bind fun document =>
    match member? "llm" document with
    | none => some []
    | some item => membersOf? item

/-- What there is to know of a settings file: that there is none, that it is no text, that the text
is not one of settings, or what it says. -/
inductive Holds (t : Tree) (path : String) : Except Failure Settings → Prop
  | absent (none : t.isFile path = false) : Holds t path (.ok {})
  | notText {bytes : ByteArray} (read : t.read path = .ok bytes)
      (invalid : String.fromUTF8? bytes = none) : Holds t path (.error (.file path .notText))
  | malformed {bytes : ByteArray} {text : String} (read : t.read path = .ok bytes)
      (valid : String.fromUTF8? bytes = some text)
      (nothing : ¬ ∃ ms s, listed? text = some ms ∧ Says ms s) :
      Holds t path (.error (.configuration path))
  | settings {bytes : ByteArray} {text : String} {ms : Members} {s : Settings}
      (read : t.read path = .ok bytes) (valid : String.fromUTF8? bytes = some text)
      (listed : listed? text = some ms) (said : Says ms s) : Holds t path (.ok s)

end Refit.Settings
