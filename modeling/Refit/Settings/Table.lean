import Refit.Settings.Basic
import Refit.Toml.Document

namespace Refit.Settings

open Toml (Item)

def text? : Item → Option String
  | .string s => some s
  | _ => none

def count? : Item → Option Nat
  | .integer n => if 0 ≤ n ∧ n < 0x100000000 then some n.toNat else none
  | _ => none

def temperature? : Item → Option Decimal.Number
  | .integer n => some (Decimal.ofInt Decimal.binary32 n)
  | .float x => some (x.toFormat Decimal.binary32)
  | _ => none

def isEmpty : Item → Bool
  | .array [] | .inlineTable _ [] | .table _ [] => true
  | _ => false

/-- A service is named by a string, or by the only member of a table, which has to be empty. -/
def provider? : Item → Option Chat.Provider
  | .string s => Chat.Provider.ofName? s
  | .inlineTable _ [(name, item)] | .table _ [(name, item)] =>
    if isEmpty item then Chat.Provider.ofName? name else none
  | _ => none

/-- The names of the settings, in the order in which an array gives them. -/
def names : List String :=
  ["provider", "model", "temperature", "max_tokens", "max_retries", "base_url",
   "anthropic_api_key", "openai_api_key"]

def assign (s : Settings) (name : String) (item : Item) : Option Settings :=
  match name with
  | "provider" => (provider? item).map fun provider => { s with provider }
  | "model" => (text? item).map fun model => { s with model }
  | "temperature" => (temperature? item).map fun temperature => { s with temperature }
  | "max_tokens" => (count? item).map fun maxTokens => { s with maxTokens }
  | "max_retries" => (count? item).map fun maxRetries => { s with maxRetries }
  | "base_url" => (text? item).map fun url => { s with baseUrl := some url }
  | "anthropic_api_key" => (text? item).map fun key => { s with anthropicKey := some key }
  | "openai_api_key" => (text? item).map fun key => { s with openAiKey := some key }
  | _ => some s

def ofMembers (ms : List (String × Item)) : Option Settings :=
  ms.foldlM (fun s (name, item) => s.assign name item) {}

def ofItem : Item → Option Settings
  | .inlineTable _ ms | .table _ ms => ofMembers ms
  | .array items => ofMembers (names.zip items)
  | .tables each => ofMembers (names.zip (each.map (Item.table .explicit)))
  | .dateTime => some {}
  | _ => none

def ofText (text : String) : Option Settings := do
  let document ← Toml.read text
  match Toml.member? "llm" document with
  | none => return {}
  | some item => ofItem item

end Refit.Settings
