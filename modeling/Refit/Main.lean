import Refit.Command.Program

namespace Refit.Command

def variableNames : List String :=
  ["PATH", "CLICOLOR_FORCE", "NO_COLOR", "RUST_LOG", "MODERNIZER_LLM_PROVIDER",
   "MODERNIZER_LLM_MODEL", "MODERNIZER_LLM_TEMPERATURE", "MODERNIZER_LLM_BASE_URL",
   "ANTHROPIC_API_KEY", "OPENAI_API_KEY"]

def readVariables : IO (List (String × String)) :=
  variableNames.filterMapM fun name => do
    return (← IO.getEnv name).map fun value => (name, value)

partial def readPaths (input : IO.FS.Stream) (paths : List String) : IO (List String) := do
  let line ← input.getLine
  if line.isEmpty then return paths.reverse
  let path := String.ofList (line.toList.filter (· ≠ '\n'))
  readPaths input (if path = "" then paths else path :: paths)

def addFile (t : Tree) (path : String) : IO Tree := do
  try
    let bytes ← IO.FS.readBinFile path
    let directory := (((Path.ofText path).parent?).map Path.text).getD "/"
    return ((t.makeDirectories directory).bind fun t => t.write path bytes).toOption.getD t
  catch _ => return t

def writeBack (before after : Tree) : IO Unit := do
  for (place, entry) in after.entries do
    match entry with
    | .file bytes _ =>
      if before.get? place ≠ some entry then
        IO.FS.createDirAll (Place.text place.dropLast)
        IO.FS.writeBinFile (Place.text place) bytes
    | _ => pure ()

def runHere (arguments : List String) : IO UInt32 := do
  let values ← readVariables
  let directory := (Path.ofText ((← IO.getEnv "PWD").getD "/")).names
  let paths ← readPaths (← IO.getStdin) []
  let start := (Tree.makeDirectories ⟨[]⟩ (Place.text directory)).toOption.getD ⟨[]⟩
  let t ← paths.foldlM addFile start
  let around : Run.Surroundings :=
    { environment := fun name => values.lookup name
      directory
      tools := fun _ t _ _ _ => ⟨.code 127, ByteArray.empty, ByteArray.empty, t⟩
      service := fun _ _ => .broken
      interrupted := fun _ => false }
  let ending := program around "now" arguments t
  (← IO.getStdout).putStr ending.stdout
  (← IO.getStderr).putStr ending.stderr
  writeBack t ending.world.tree
  return ending.exitCode.toUInt32

end Refit.Command

def main (arguments : List String) : IO UInt32 := Refit.Command.runHere arguments
