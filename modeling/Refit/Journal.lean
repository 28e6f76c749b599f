import Refit.Chat.Request
import Refit.Log
import Refit.Run.Summary
import Refit.Tree

namespace Refit

inductive Tone where
  | info
  | success
  | warning
  | error
  deriving DecidableEq, Repr

/-- Lines that the run of the whole program shows between the messages about single files. -/
inductive Notice where
  | noKey
  | using (provider model : String)
  | noSources (path : String)
  | workspaceFailed
  | workspaceReady (root : String)
  | filesFound (count : Nat) (target : String)
  | fileDone (name : String) (status : Repair.Status)
  | notSaved (name : String)
  | fileFailed (name error : String)
  | interrupted (done total : Nat)
  | kept (root : String)
  | summary (counts : Run.Summary) (dryRun : Bool)
  deriving DecidableEq, Repr

inductive Event where
  | log (record : Log.Record)
  | status (tone : Tone) (message : String)
  | diff (file text : String)
  | prompt (question : String) (answer : Bool)
  | notice (n : Notice)
  /-- A new version of `code` is asked for. -/
  | asked (code instructions : String)
  /-- A build is about to be checked, with the draft and the file as they are then. -/
  | building (draft : String) (onDisk : Option ByteArray)
  /-- A build tool runs. -/
  | tool (program directory : String) (arguments : List String)
  | request (r : Chat.Request)
  | pause (milliseconds : Nat)
  deriving DecidableEq

/-- What has happened so far, the oldest first. -/
abbrev Journal := List Event

structure World where
  tree : Tree
  journal : Journal := []

namespace World

def note (w : World) (e : Event) : World := { w with journal := w.journal ++ [e] }

def notes (w : World) (es : List Event) : World := { w with journal := w.journal ++ es }

def log (w : World) (r : Log.Record) : World := w.note (.log r)

def say (w : World) (tone : Tone) (message : String) : World := w.note (.status tone message)

def announce (w : World) (n : Notice) : World := w.note (.notice n)

end World

end Refit
