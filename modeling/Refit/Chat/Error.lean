import Refit.Chat.Request
import Refit.Chat.Provider

namespace Refit.Chat

inductive ChatError where
  | missingKey (provider : Provider)
  /-- There is no request with this address and this key. -/
  | unsendable
  | unreachable (fault : TransportFault)
  | status (provider : Provider) (code : Nat) (body : String)
  | unreadable
  | emptyReply (provider : Provider)
  deriving DecidableEq, Repr

namespace ChatError

def message : ChatError → String
  | missingKey provider =>
    provider.keyVariable ++ " is not set; export it or add it to modernizer.toml"
  | unsendable => "request failed: builder error"
  | unreachable fault => "request failed: " ++ fault.text
  | status provider code body =>
    provider.name ++ " returned " ++ statusText code ++ ": " ++ body
  | unreadable => "request failed: error decoding response body"
  | emptyReply provider => provider.name ++ " returned an empty reply"

/-- Some faults of the transport, too many requests, and the faults of a server may pass. -/
def isRetryable : ChatError → Bool
  | unreachable fault => fault.isPassing
  | status _ code _ => code == 429 || (500 ≤ code && code < 600)
  | _ => false

end ChatError

end Refit.Chat
