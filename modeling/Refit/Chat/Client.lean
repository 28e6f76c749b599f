import Refit.Chat.Error
import Refit.Chat.Fence
import Refit.Chat.Prompt
import Refit.Chat.Reply
import Refit.Journal
import Refit.Settings.Basic
import Refit.Text.Measure

namespace Refit.Chat

/-- A chat service, as it behaves after what has happened so far. -/
abbrev Service := Journal → Request → Exchange

structure Client where
  provider : Provider
  model : String
  temperature : Decimal.Number
  maxTokens : Nat
  maxRetries : Nat
  baseUrl : String
  apiKey : String
  deriving DecidableEq, Repr

namespace Client

def withoutSlashes (url : String) : String :=
  String.ofList (url.toList.reverse.dropWhile (· == '/')).reverse

/-- The client of the selected service, which needs a key. -/
def ofSettings (s : Settings) : Except ChatError Client :=
  match s.apiKey with
  | none => .error (.missingKey s.provider)
  | some apiKey =>
    .ok {
      provider := s.provider
      model := s.model
      temperature := s.temperature
      maxTokens := s.maxTokens
      maxRetries := s.maxRetries
      baseUrl := withoutSlashes (s.baseUrl.getD s.provider.defaultUrl)
      apiKey
    }

def isHeaderText (s : String) : Bool :=
  s.toList.all fun c => c == '\t' || (0x20 ≤ c.toNat && c.toNat != 0x7F)

def headers (c : Client) : Headers :=
  match c.provider with
  | .anthropic => { apiKey := some c.apiKey, version := some "2023-06-01" }
  | .openAi => { authorization := some ("Bearer " ++ c.apiKey) }

def prompt (c : Client) (system user : String) : Prompt :=
  ⟨c.model, c.temperature, c.maxTokens, system, user⟩

@[irreducible]
def request? (c : Client) (system user : String) : Option Request :=
  match Url.ofText? (c.baseUrl ++ c.provider.messagesPath) with
  | some url =>
    if isHeaderText c.apiKey then
      some ⟨url, c.headers, ((c.prompt system user).toJson c.provider).text⟩
    else none
  | none => none

def read (c : Client) (r : Request) : Exchange → Except ChatError String
  | .broken => .error (.unreachable (.broken r.url))
  | .failed fault => .error (.unreachable fault)
  | .response status body =>
    let body := contentOf status body
    if isSuccess status then
      match readReply c.provider body with
      | none => .error .unreadable
      | some text =>
        if Text.allBlank text.toList then .error (.emptyReply c.provider) else .ok text
    else .error (.status c.provider status body)

def sendingRecord (c : Client) (user : String) : Log.Record :=
  .debug .chat
    ("Sending " ++ toString (Text.byteSize user.toList) ++ " chars to " ++ c.provider.name ++
      " (" ++ c.model ++ ")")

def send (c : Client) (service : Service) (system user : String) (history : Journal) :
    Except ChatError String × List Event :=
  let sending := Event.log (c.sendingRecord user)
  match c.request? system user with
  | none => (.error .unsendable, [sending])
  | some r =>
    let events := [sending, .request r]
    (c.read r (service (history ++ events) r), events)

def retryRecord (c : Client) (e : ChatError) (retry : Nat) : Log.Record :=
  .warn .chat
    (c.provider.name ++ " request failed (" ++ e.message ++ "), retry " ++ toString retry ++ "/" ++
      toString c.maxRetries)

/-- The pause before a retry grows by two seconds each time. -/
def pauseBefore (retry : Nat) : Nat := 2000 * retry

/-- Sends a request and repeats it `left` times at most; `retry` is the number of the next
repetition. -/
def sendWith (c : Client) (service : Service) (system user : String) :
    (left retry : Nat) → Journal → Except ChatError String × List Event
  | left, retry, history =>
    match c.send service system user history with
    | (.ok text, events) => (.ok text, events)
    | (.error e, events) =>
      match left with
      | 0 => (.error e, events)
      | left + 1 =>
        if e.isRetryable then
          let events := events ++ [.log (c.retryRecord e retry), .pause (pauseBefore retry)]
          let (result, more) :=
            c.sendWith service system user left (retry + 1) (history ++ events)
          (result, events ++ more)
        else (.error e, events)

def complete (c : Client) (service : Service) (system user : String) (history : Journal) :
    Except ChatError String × List Event :=
  c.sendWith service system user c.maxRetries 1 history

def failedRecord (c : Client) (e : ChatError) : Log.Record :=
  .warn .chat (c.provider.name ++ " call failed: " ++ e.message)

/-- A new version of a code: the reply without its code fence, if anything is left of it. -/
def propose (c : Client) (service : Service) (history : Journal) (code instructions : String) :
    Option String × List Event :=
  match c.complete service instructions code history with
  | (.ok reply, events) =>
    let code := unfenced reply
    (if code = "" then none else some code, events)
  | (.error e, events) => (none, events ++ [.log (c.failedRecord e)])

end Client

end Refit.Chat
