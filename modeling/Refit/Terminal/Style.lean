import Refit.Text.Search

namespace Refit.Terminal

inductive Style where
  | green
  | red
  | yellow
  | cyan
  | dim
  | bold
  deriving DecidableEq, Repr

def Style.code : Style → String
  | green => "32"
  | red => "31"
  | yellow => "33"
  | cyan => "36"
  | dim => "2"
  | bold => "1"

def opening (code : String) : List Char := '\x1b' :: '[' :: code.toList ++ ['m']

def reset : List Char := "\x1b[0m".toList

def styledWith (color : Bool) (code text : String) : String :=
  if color then
    String.ofList
      (opening code ++ Text.replaceAll reset (reset ++ opening code) text.toList ++ reset)
  else text

def styled (color : Bool) (style : Style) (text : String) : String :=
  styledWith color style.code text

inductive Icon where
  | success
  | error
  | warning
  | info
  deriving DecidableEq, Repr

def Icon.text (color : Bool) : Icon → String
  | success => styledWith color "1;32" "✓"
  | error => styledWith color "1;31" "✗"
  | warning => styledWith color "1;33" "!"
  | info => styledWith color "1;34" "•"

end Refit.Terminal
