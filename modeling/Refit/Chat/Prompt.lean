import Refit.Chat.Provider
import Refit.Decimal.Shortest
import Refit.Json.Value

namespace Refit.Chat

structure Prompt where
  model : String
  temperature : Decimal.Number
  maxTokens : Nat
  system : String
  user : String
  deriving DecidableEq, Repr

def Provider.messagesPath : Provider → String
  | anthropic => "/v1/messages"
  | openAi => "/v1/chat/completions"

def Provider.defaultUrl : Provider → String
  | anthropic => "https://api.anthropic.com"
  | openAi => "https://api.openai.com"

namespace Prompt

def ofNumber : Decimal.Number → Json.Value
  | .finite negative m e => .number ((Decimal.Number.finite negative m e).jsonText Decimal.binary32)
  | _ => .null

def message (role content : String) : Json.Value :=
  .record [("role", .str role), ("content", .str content)]

def toJson (p : Prompt) : Provider → Json.Value
  | .anthropic =>
    .record [("model", .str p.model), ("max_tokens", .number (toString p.maxTokens)),
      ("temperature", ofNumber p.temperature), ("system", .str p.system),
      ("messages", .array [message "user" p.user])]
  | .openAi =>
    .record [("model", .str p.model), ("temperature", ofNumber p.temperature),
      ("messages", .array [message "system" p.system, message "user" p.user])]

end Prompt

end Refit.Chat
