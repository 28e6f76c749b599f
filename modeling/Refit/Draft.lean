import Refit.Diff.Unified
import Refit.Failure
import Refit.Log
import Refit.Source.Rule
import Refit.Source.Unit
import Refit.Text.Quoted

namespace Refit

open Text

structure Draft where
  path : String
  opened : String
  content : String
  deriving DecidableEq, Repr

namespace Draft

def ofSource (path source : String) : Draft := ⟨path, source, source⟩

def load (t : Tree) (path : String) : Except Failure Draft :=
  match t.readText path with
  | .ok source => .ok (ofSource path source)
  | .error cause => .error (.file path cause)

def label (d : Draft) : String := (Path.ofText d.path).label

def unit? (d : Draft) (anchor : String) : Option String :=
  (Source.splitUnit? anchor.toList d.content.toList).map fun (_, unit, _) => String.ofList unit

def locate (d : Draft) (anchor : String) : Option Span :=
  Source.findUnit anchor.toList d.content.toList

/-- Replaces a span and tells where the new text stands; none, and no change, where the span does
not fit the text. -/
def replaceSpan (d : Draft) (span : Span) (text : String) : Option (Draft × Span) :=
  (span.split? d.content.toList).map fun (before, _, after) =>
    ({ d with content := String.ofList (before ++ (text.toList ++ after)) },
     ⟨span.start, span.start + byteSize text.toList⟩)

/-- Replaces the unit at an anchor. Where there is none, the draft stays and a record says so. -/
def replaceUnit (d : Draft) (anchor text : String) : Draft × List Log.Record :=
  match d.locate anchor with
  | none =>
    (d, [.debug .draft
      (d.path ++ ": no unit at " ++ quoted anchor ++ ", nothing replaced")])
  | some span => (((d.replaceSpan span text).map Prod.fst).getD d, [])

def applyRules (d : Draft) (rules : List Source.Rule) : Draft :=
  { d with content := String.ofList (Source.applyRules rules d.content.toList) }

def changedFrom (d : Draft) (reference : String) : Bool := d.content != reference

def diff (d : Draft) (reference fromLabel toLabel : String) : String :=
  String.ofList (Diff.unified reference.toList d.content.toList fromLabel toLabel)

def persist (d : Draft) (t : Tree) : Except Failure Tree :=
  match t.write d.path d.content.toUTF8 with
  | .ok t => .ok t
  | .error cause => .error (.file d.path cause)

theorem persist_eq_ok {d : Draft} {t t' : Tree} :
    d.persist t = .ok t' ↔ t.write d.path d.content.toUTF8 = .ok t' := by
  unfold persist
  split <;> simp_all

end Draft

end Refit
