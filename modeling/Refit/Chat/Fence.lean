import Refit.Text.Blank
import Refit.Text.Lines

namespace Refit.Chat

open Text

def fence : List Char := ['`', '`', '`']

def dropClosing (cs : List Char) : List Char :=
  if fence.isSuffixOf cs then cs.take (cs.length - fence.length) else cs

def dropFirstLine (cs : List Char) : List Char := (cutLine cs).2.getD cs

def unfence (cs : List Char) : List Char :=
  let text := trim cs
  if fence.isPrefixOf text then trim (dropClosing (dropFirstLine text)) else text

def unfenced (reply : String) : String := String.ofList (unfence reply.toList)

end Refit.Chat
