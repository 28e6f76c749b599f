import Refit.Diff.Compact
import Refit.Diff.Hunk
import Refit.Diff.Script
import Refit.Text.Lines

namespace Refit.Diff

open Refit.Text

def hunksBetween (a b : Array (List Char)) : List (List Block) :=
  hunks (blocks (compact a b (script a b)))

/-- A place in a hunk header: the first line counted from one, and the length unless it is one. An
empty range stands after the line it names. -/
def rangeText (start stop : Nat) : String :=
  let len := stop - start
  if len = 1 then toString (start + 1)
  else if len = 0 then toString start ++ ",0"
  else toString (start + 1) ++ "," ++ toString len

def hunkHeader (hunk : List Block) : String :=
  match hunk.head?, hunk.getLast? with
  | some first, some last =>
    "@@ -" ++ rangeText first.oldStart (last.oldStart + last.oldLen) ++
      " +" ++ rangeText first.newStart (last.newStart + last.newLen) ++ " @@\n"
  | _, _ => ""

/-- A line with its mark. A line without an end says so on a line of its own. -/
def markedLine (mark : Char) (line : List Char) : List Char :=
  let ended := line.getLast? = some '\n' ∨ line.getLast? = some '\r'
  mark :: line ++ if ended then [] else "\n\\ No newline at end of file\n".toList

def markedLines (mark : Char) (lines : Array (List Char)) (start len : Nat) : List Char :=
  ((lines.extract start (start + len)).toList.map (markedLine mark)).flatten

def blockText (a b : Array (List Char)) : Block → List Char
  | .keep r => markedLines ' ' a r.old r.len
  | .change removed added =>
    (removed.map fun r => markedLines '-' a r.old r.len).getD [] ++
      (added.map fun r => markedLines '+' b r.new r.len).getD []

def hunkText (a b : Array (List Char)) (hunk : List Block) : List Char :=
  (hunkHeader hunk).toList ++ (hunk.map (blockText a b)).flatten

/-- The unified diff of two texts; empty when they agree. -/
def unified (old new : List Char) (fromLabel toLabel : String) : List Char :=
  let a := (pieces old).toArray
  let b := (pieces new).toArray
  match hunksBetween a b with
  | [] => []
  | hunks =>
    ("--- " ++ fromLabel ++ "\n+++ " ++ toLabel ++ "\n").toList ++
      (hunks.map (hunkText a b)).flatten

end Refit.Diff
