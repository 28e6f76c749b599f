import Refit.Log
import Refit.Text.Blank
import Refit.Text.Search

namespace Refit.Log

inductive Threshold where
  | off
  | error
  | warn
  | info
  | debug
  | trace
  deriving DecidableEq, Repr

namespace Threshold

def names : List (String × Threshold) :=
  [("off", off), ("error", error), ("warn", warn), ("info", info), ("debug", debug),
   ("trace", trace)]

def ofName? (name : String) : Option Threshold := names.lookup (Text.lowered name)

def shows : Threshold → Level → Bool
  | off, _ | error, _ => false
  | warn, level | info, level => level == .warn
  | debug, _ | trace, _ => true

end Threshold

/-- A level for the topics whose names start with a text; without a text, for all. -/
structure Directive where
  start : Option String
  threshold : Threshold
  deriving DecidableEq, Repr

structure Filter where
  directives : List Directive := []
  /-- Only records with this text are shown. -/
  word : Option String := none
  warnings : List String := []
  deriving DecidableEq, Repr

namespace Filter

/-- A directive for a text that has one already replaces that. -/
def add (f : Filter) (d : Directive) : Filter :=
  if f.directives.any fun e => e.start == d.start then
    { f with directives := f.directives.map fun e => if e.start = d.start then d else e }
  else { f with directives := f.directives ++ [d] }

def warn (f : Filter) (part : String) : Filter :=
  { f with warnings := f.warnings ++ ["invalid logging spec '" ++ part ++ "'"] }

def partsAt (mark : Char) (s : String) : List String :=
  (Text.splitMarks mark s.toList).map String.ofList

def addPart (f : Filter) (part : String) : Filter :=
  match partsAt '=' part with
  | [name] =>
    if name = "" then f
    else
      match Threshold.ofName? name with
      | some threshold => f.add ⟨none, threshold⟩
      | none => f.add ⟨some name, .trace⟩
  | [name, level] =>
    if Text.trimmed level = "" then f.add ⟨some name, .trace⟩
    else
      match Threshold.ofName? (Text.trimmed level) with
      | some threshold => f.add ⟨some (Text.trimmed name), threshold⟩
      | none => f.warn (Text.trimmed level)
  | _ => f.warn part

/-- Reads a filter text: parts with commas between them, and after a slash a word that records have
to hold. A filter without any directive shows errors only. -/
def ofText (s : String) : Filter :=
  match partsAt '/' s with
  | [parts] => ((partsAt ',' parts).map Text.trimmed).foldl addPart {}
  | [parts, word] => ((partsAt ',' parts).map Text.trimmed).foldl addPart { word := some word }
  | _ => { warnings := ["invalid logging spec '" ++ s ++ "' (too many '/'s)"] }

def fits (topic : Topic) (d : Directive) : Bool :=
  match d.start with
  | some start => start.toList.isPrefixOf topic.name.toList
  | none => true

def Directive.length (d : Directive) : Nat := (d.start.map String.utf8ByteSize).getD 0

def directive? (f : Filter) (topic : Topic) : Option Directive :=
  (f.directives.filter (fits topic)).foldl (fun best d =>
    match best with
    | none => some d
    | some b => some (if Directive.length b ≤ Directive.length d then d else b)) none

def shows (f : Filter) (r : Record) : Bool :=
  (match f.directive? r.topic with
    | some d => d.threshold.shows r.level
    | none => false) &&
  (match f.word with
    | some word => Text.occurs word.toList r.text.toList
    | none => true)

end Filter

end Refit.Log
