import Refit.Settings.Fault
import Refit.Tree

namespace Refit

inductive WalkError where
  | file (path : String) (cause : FileError)
  | loop (link ancestor : String)
  deriving DecidableEq, Repr

def WalkError.message : WalkError → String
  | file path cause => "IO error for operation on " ++ path ++ ": " ++ cause.message
  | loop link ancestor =>
    "File system loop found: " ++ link ++ " points to an ancestor " ++ ancestor

inductive Failure where
  | file (path : String) (cause : FileError)
  | walk (cause : WalkError)
  | outside (path root : String)
  | configuration (path : String)
  | setting (fault : SettingFault)
  deriving DecidableEq, Repr

namespace Failure

def message : Failure → String
  | file path cause => "I/O error on " ++ path ++ ": " ++ cause.message
  | walk cause => "failed to copy project tree into workspace: " ++ cause.message
  | outside path root => path ++ " is not inside the project root " ++ root
  | configuration path => "invalid configuration in " ++ path
  | setting fault => "invalid setting " ++ fault.key ++ ": " ++ fault.reason

def causes : Failure → List String
  | file _ cause => [cause.message]
  | walk (.file path cause) => [(WalkError.file path cause).message, cause.message]
  | walk (.loop link ancestor) => [(WalkError.loop link ancestor).message]
  | _ => []

def full (f : Failure) : String := ": ".intercalate (f.message :: f.causes)

end Failure

end Refit
