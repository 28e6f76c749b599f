import Refit.Command.Arguments
import Refit.Terminal.Transcript

namespace Refit.Command

structure Ending where
  exitCode : Nat
  stdout : String
  stderr : String
  world : World

def wantsColor (env : Environment) : Bool :=
  match env "CLICOLOR_FORCE" with
  | some value => value != "0"
  | none => false

def wantsLogColor (env : Environment) : Bool :=
  wantsColor env && ((env "NO_COLOR").getD "" == "")

/-- The log filter of the environment; without one errors are shown, and on request everything. -/
def logFilter (env : Environment) (debug : Bool) : Log.Filter :=
  .ofText ((env "RUST_LOG").getD (if debug then "debug" else "error"))

def display (env : Environment) (debug : Bool) (clock : String) : Terminal.Display where
  color := wantsColor env
  logColor := wantsLogColor env
  filter := logFilter env debug
  clock := clock

/-- A run with its transcript. An error that ends the run is told at its end. -/
def perform (around : Run.Surroundings) (order : Run.Order) (d : Terminal.Display) (w : World) :
    Ending :=
  let (result, after) := (Run.migrate around order).run w
  let errors := match result with
    | .ok () => []
    | .error e => d.showError e
  let shown :=
    Terminal.textOf d.showWarnings ++ Terminal.transcript d after.journal ++
      Terminal.textOf errors
  ⟨if errors.isEmpty then 0 else 1, "", shown, after⟩

/-- The program. `clock` is the time that log records show. -/
def program (around : Run.Surroundings) (clock : String) (arguments : List String) (t : Tree) :
    Ending :=
  match readArguments arguments with
  | .migrate order debug => perform around order (display around.environment debug clock) ⟨t, []⟩
  | .shown text => ⟨0, text, "", ⟨t, []⟩⟩
  | .refused e => ⟨2, "", e.message, ⟨t, []⟩⟩

end Refit.Command
