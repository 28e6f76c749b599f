import Refit.Text.Lines
import Refit.Text.Search

namespace Refit.Build

open Text

def errorLines : Nat := 15

def tailLines : Nat := 20

def tellsError (marker line : List Char) : Bool :=
  occurs marker line || occurs "FAILED".toList line

def takeLast (n : Nat) (xs : List (List Char)) : List (List Char) := xs.drop (xs.length - n)

def excerptLines (marker : List Char) (log : List (List Char)) : List (List Char) :=
  match (log.filter (tellsError marker)).take errorLines with
  | [] => takeLast tailLines log
  | errors => errors

def unlines (ls : List (List Char)) : List Char := (ls.intersperse ['\n']).flatten

/-- The excerpt of the two output streams, the first followed by the second. -/
def excerpt (stdout stderr marker : String) : String :=
  String.ofList (unlines (excerptLines marker.toList (lines (stdout.toList ++ stderr.toList))))

end Refit.Build
