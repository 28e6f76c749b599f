import Refit.Command.Usage
import Refit.Run.Migration

namespace Refit.Command

inductive Invocation where
  | migrate (order : Run.Order) (debug : Bool)
  | shown (text : String)
  | refused (error : UsageError)
  deriving DecidableEq, Repr

inductive Argument where
  /-- Everything after it is a value. -/
  | separator
  | long (name : String) (value : Option String)
  | short (letters : List Char)
  | plain (text : String)
  deriving DecidableEq, Repr

def Argument.ofText (s : String) : Argument :=
  match s.toList with
  | ['-', '-'] => .separator
  | '-' :: '-' :: rest =>
    match rest.span (· ≠ '=') with
    | (name, '=' :: value) => .long (String.ofList name) (some (String.ofList value))
    | (name, _) => .long (String.ofList name) none
  | '-' :: c :: rest => .short (c :: rest)
  | _ => .plain s

structure Given where
  path : Option String := none
  target : Option String := none
  dryRun : Bool := false
  autoApprove : Bool := false
  debug : Bool := false
  /-- The options that were given, as they are listed in a usage line. -/
  used : List String := []
  deriving DecidableEq, Repr

namespace Given

def finish (d : Given) : Invocation :=
  match d.path with
  | none => .refused (.missingPath d.used)
  | some path =>
    .migrate ⟨path, d.target.getD "webflux", d.dryRun, d.autoApprove⟩ d.debug

def setPath (d : Given) (path : String) (hyphen : Bool) : Except UsageError Given :=
  if d.path.isSome then .error (.unexpected path .migrate hyphen)
  else if path = "" then .error (.missingValue "<PATH>")
  else .ok { d with path := some path }

def setTarget (d : Given) (target : String) : Except UsageError Given :=
  if d.target.isSome then .error (.repeated "--target <TARGET>" .migrate)
  else .ok { d with target := some target, used := d.used ++ ["--target <TARGET>"] }

def setDryRun (d : Given) : Except UsageError Given :=
  if d.dryRun then .error (.repeated "--dry-run" .migrate)
  else .ok { d with dryRun := true, used := d.used ++ ["--dry-run"] }

def setAutoApprove (d : Given) : Except UsageError Given :=
  if d.autoApprove then .error (.repeated "--auto-approve" .migrate)
  else .ok { d with autoApprove := true, used := d.used ++ ["--auto-approve"] }

def setDebug (d : Given) : Except UsageError Given := .ok { d with debug := true }

def setLetter (d : Given) (c : Char) : Except UsageError (Option Given) :=
  match c with
  | 'y' => d.setAutoApprove.map some
  | 'd' => d.setDebug.map some
  | 'h' => .ok none
  | c => .error (.unexpected ("-" ++ c.toString) .migrate true)

def setLetters (d : Given) : List Char → Except UsageError (Option Given)
  | [] => .ok (some d)
  | c :: rest =>
    match d.setLetter c with
    | .ok (some d) => d.setLetters rest
    | other => other

def setFlag (d : Given) (name : String) : Except UsageError (Option Given) :=
  match name with
  | "dry-run" => d.setDryRun.map some
  | "auto-approve" => d.setAutoApprove.map some
  | "debug" => d.setDebug.map some
  | "help" => .ok none
  | name => .error (.unexpected ("--" ++ name) .migrate true)

def isFlag (name : String) : Bool := ["dry-run", "auto-approve", "debug", "help"].contains name

def setLong (d : Given) (name : String) (value : Option String) :
    Except UsageError (Option Given) :=
  match value with
  | none => d.setFlag name
  | some value =>
    if name = "target" then (d.setTarget value).map some
    else if isFlag name then .error (.unexpectedValue value ("--" ++ name) .migrate)
    else .error (.unexpected ("--" ++ name) .migrate true)

def readPlain (d : Given) : List String → Invocation
  | [] => d.finish
  | s :: rest =>
    match d.setPath s false with
    | .ok d => d.readPlain rest
    | .error e => .refused e

def isValue (s : String) : Bool :=
  match Argument.ofText s with
  | .plain _ => true
  | _ => false

def read (d : Given) : List String → Invocation
  | [] => d.finish
  | s :: rest =>
    match Argument.ofText s with
    | .separator => d.readPlain rest
    | .plain path =>
      match d.setPath path false with
      | .ok d => d.read rest
      | .error e => .refused e
    | .long "target" none =>
      match rest with
      | [] => .refused (.missingValue "--target <TARGET>")
      | value :: rest =>
        if isValue value then
          match d.setTarget value with
          | .ok d => d.read rest
          | .error e => .refused e
        else .refused (.missingValue "--target <TARGET>")
    | .long name value =>
      match d.setLong name value with
      | .ok (some d) => d.read rest
      | .ok none => .shown migrateHelp
      | .error e => .refused e
    | .short letters =>
      match d.setLetters letters with
      | .ok (some d) => d.read rest
      | .ok none => .shown migrateHelp
      | .error e => .refused e

end Given

def isMigrate (name : String) : Bool := name == "migrate" || name == "m"

def readHelp : List String → Invocation
  | [] => .shown overview
  | name :: _ =>
    if isMigrate name then .shown migrateHelp
    else if name = "help" then .shown overview
    else .refused (.unknownCommand name)

def readLetters (go : Invocation) : List Char → Invocation
  | [] => go
  | 'd' :: rest => readLetters go rest
  | 'h' :: _ => .shown overview
  | 'V' :: _ => .shown version
  | c :: _ => .refused (.unexpected ("-" ++ c.toString) .program true)

def readFrom (debug : Bool) : List String → Invocation
  | [] => .refused .missingCommand
  | s :: rest =>
    match Argument.ofText s with
    | .plain name =>
      if isMigrate name then Given.read { debug } rest
      else if name = "help" then readHelp rest
      else .refused (.unknownCommand name)
    | .short letters => readLetters (readFrom true rest) letters
    | .long "debug" none => readFrom true rest
    | .long "help" none => .shown overview
    | .long "version" none => .shown version
    | .long name _ => .refused (.unexpected ("--" ++ name) .program true)
    | .separator => .refused .missingCommand

def readArguments (arguments : List String) : Invocation :=
  if arguments = [] then .refused .nothingGiven else readFrom false arguments

end Refit.Command
