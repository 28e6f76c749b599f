import Refit.Chat.Provider
import Refit.Json.Reader

namespace Refit.Chat

open Json (Value)

/-- The values of the named fields. No field may be given twice. -/
def fields (names : List String) : Value → Option (List (Option Value))
  | .array items =>
    if items.length ≤ names.length then
      some (items.map some ++ List.replicate (names.length - items.length) none)
    else none
  | .object members =>
    let count (name : String) : Nat := (members.filter fun m => m.1 == some name).length
    if (members.all fun m => m.1.isSome) && (names.all fun name => count name ≤ 1) then
      some (names.map fun name => (members.find? fun m => m.1 == some name).map Prod.snd)
    else none
  | _ => none

def text? : Value → Option String
  | .string s => s
  | _ => none

def optionalText : Option Value → Option (Option String)
  | none | some .null => some none
  | some v => (text? v).map some

def listOf {α : Type} (read : Value → Option α) : Option Value → Option (List α)
  | none => some []
  | some (.array items) => items.mapM read
  | some _ => none

def block (v : Value) : Option String := do
  match ← fields ["type", "text"] v with
  | [some kind, content] =>
    let kind ← text? kind
    let content ← optionalText content
    return if kind = "text" then content.getD "" else ""
  | _ => none

def choice (v : Value) : Option String := do
  match ← fields ["message"] v with
  | [some message] =>
    match ← fields ["content"] message with
    | [content] => return (← optionalText content).getD ""
    | _ => none
  | _ => none

/-- The text of a whole reply: of all blocks one after the other, or of the first choice. -/
def replyText (provider : Provider) (v : Value) : Option String :=
  match provider with
  | .anthropic => do
    match ← fields ["content"] v with
    | [content] => return String.join (← listOf block content)
    | _ => none
  | .openAi => do
    match ← fields ["choices"] v with
    | [choices] => return (← listOf choice choices).headD ""
    | _ => none

def readReply (provider : Provider) (body : String) : Option String :=
  (Json.document body).bind (replyText provider)

end Refit.Chat
