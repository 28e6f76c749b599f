import Refit.Tree

namespace Refit.Build

inductive System where
  | gradle
  | maven
  deriving DecidableEq, Repr

namespace System

def name : System → String
  | gradle => "gradle"
  | maven => "maven"

/-- Gradle where there is a Gradle build script, and Maven everywhere else. -/
def detect (t : Tree) (root : String) : System :=
  if t.exists? (joinPath root "build.gradle") || t.exists? (joinPath root "build.gradle.kts") then
    gradle
  else maven

def errorMarker : System → String
  | gradle => "error:"
  | maven => "[ERROR]"

def arguments : System → List String
  | gradle => ["clean", "compileJava", "-x", "test", "--no-daemon", "--console=plain"]
  | maven => ["clean", "compile", "-DskipTests"]

end System

end Refit.Build
