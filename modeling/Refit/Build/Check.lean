import Refit.Build.Excerpt
import Refit.Build.System
import Refit.Journal
import Refit.Text.Utf8

namespace Refit.Build

inductive Exit where
  | code (n : Nat)
  | signal (n : Nat)
  deriving DecidableEq, Repr

def signalNames : List String :=
  ["SIGHUP", "SIGINT", "SIGQUIT", "SIGILL", "SIGTRAP", "SIGABRT", "SIGBUS", "SIGFPE", "SIGKILL",
   "SIGUSR1", "SIGSEGV", "SIGUSR2", "SIGPIPE", "SIGALRM", "SIGTERM", "SIGSTKFLT", "SIGCHLD",
   "SIGCONT", "SIGSTOP", "SIGTSTP", "SIGTTIN", "SIGTTOU", "SIGURG", "SIGXCPU", "SIGXFSZ",
   "SIGVTALRM", "SIGPROF", "SIGWINCH", "SIGIO", "SIGPWR", "SIGSYS"]

def Exit.message : Exit → String
  | code n => "exit status: " ++ toString n
  | signal n =>
    "signal: " ++ toString n ++
      match n with
      | 0 => ""
      | n + 1 => (signalNames[n]?.map fun name => " (" ++ name ++ ")").getD ""

/-- What a run of a tool leaves behind. -/
structure ToolRun where
  exit : Exit
  stdout : ByteArray
  stderr : ByteArray
  tree : Tree

/-- The build tools, as they behave after what has happened so far: a program, the directory that it
runs in, and its arguments. -/
abbrev Tools := Journal → Tree → (program directory : String) → List String → ToolRun

inductive Outcome where
  | success
  | failed (diagnostic : String)
  deriving DecidableEq, Repr

def isRunnable (t : Tree) (path : String) : Bool :=
  match t.entryAt path with
  | .ok (_, .file _ runnable) => runnable
  | _ => false

def splitColons : List Char → List (List Char)
  | [] => [[]]
  | ':' :: rest => [] :: splitColons rest
  | c :: rest =>
    match splitColons rest with
    | [] => [[c]]
    | part :: more => (c :: part) :: more

def lookUp (t : Tree) (searchPath : Option String) (name : String) : Option String :=
  let directories := (searchPath.map fun s => splitColons s.toList).getD []
  let candidates := (directories.filter fun d => d.head? = some '/').map fun d =>
    joinPath (String.ofList d) name
  candidates.find? (isRunnable t)

structure Builder where
  root : String
  system : System
  searchPath : Option String

namespace Builder

def forRoot (t : Tree) (root : String) (searchPath : Option String) : Builder :=
  ⟨root, System.detect t root, searchPath⟩

/-- The program that builds the project, or why there is none. A wrapper script in the project
goes before an installed tool. -/
def program (b : Builder) (t : Tree) : Except String String :=
  match b.system with
  | .gradle =>
    let wrapper := joinPath b.root "gradlew"
    if t.exists? wrapper then .ok wrapper
    else
      match lookUp t b.searchPath "gradle" with
      | some path => .ok path
      | none => .error "Gradle executable not found: cannot find binary path"
  | .maven =>
    match lookUp t b.searchPath "mvn" with
    | some path => .ok path
    | none => .error "Maven executable not found."

def runRecord (b : Builder) (program : String) : Log.Record :=
  .debug .build
    ("Running " ++ program ++ " " ++ " ".intercalate b.system.arguments ++ " in " ++ b.root)

def exitRecord (b : Builder) (exit : Exit) : Log.Record :=
  .debug .build (b.system.name ++ " build exited with " ++ exit.message)

/-- Runs the build: its outcome, what there is to note, and the tree as the tool leaves it. -/
def check (b : Builder) (tools : Tools) (history : Journal) (t : Tree) :
    Outcome × List Event × Tree :=
  match b.program t with
  | .error diagnostic => (.failed diagnostic, [], t)
  | .ok program =>
    let started := .log (b.runRecord program)
    if isRunnable t program then
      let arguments := b.system.arguments
      let run := tools history t program b.root arguments
      let events := [started, .tool program b.root arguments]
      if run.exit = .code 0 then (.success, events, run.tree)
      else
        (.failed (excerpt (Text.decodeLossy run.stdout) (Text.decodeLossy run.stderr)
            b.system.errorMarker),
          events ++ [.log (b.exitRecord run.exit)], run.tree)
    else (.failed ("Failed to run " ++ program ++ ": " ++ FileError.denied.message), [started], t)

end Builder

end Refit.Build
