import Refit.Text.Search

namespace Refit.Source

structure Rule where
  pattern : String
  replacement : String
  deriving DecidableEq, Repr

def Rule.apply (r : Rule) (cs : List Char) : List Char :=
  Text.replaceAll r.pattern.toList r.replacement.toList cs

def applyRules (rules : List Rule) (cs : List Char) : List Char :=
  rules.foldl (fun cs r => r.apply cs) cs

end Refit.Source
