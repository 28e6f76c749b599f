import Refit.Tree

namespace Refit.ProjectRoot

def descriptors : List String := ["pom.xml", "build.gradle", "build.gradle.kts"]

def isBuildable (t : Tree) (directory : String) : Bool :=
  descriptors.any fun name => t.isFile (joinPath directory name)

def above : (count : Nat) → Path → List Path
  | 0, _ => []
  | count + 1, p =>
    match p.parent? with
    | none => []
    | some q => q :: above count q

def ancestors (path : String) : List String :=
  let p := Path.ofText path
  path :: (above p.segments.length p).map Path.text

/-- Where the search starts: at a directory itself, and otherwise at the directory of a file. -/
def start (t : Tree) (path : String) : String :=
  if t.isDirectory path then path else (((Path.ofText path).parent?).map Path.text).getD path

/-- The nearest ancestor with a build descriptor, or the start if there is none. -/
def find (t : Tree) (path : String) : String :=
  ((ancestors (start t path)).find? (isBuildable t)).getD (start t path)

end Refit.ProjectRoot
