import Refit.Log.Filter
import Refit.Run.Error
import Refit.Terminal.Style
import Refit.Text.Lines

namespace Refit.Terminal

open Text (splitFeeds)

structure Display where
  color : Bool
  /-- Whether log records are shown in colours. -/
  logColor : Bool
  filter : Log.Filter
  /-- What stands for the time of a log record. -/
  clock : String

namespace Display

variable (d : Display)

def paint (style : Style) (text : String) : String := styled d.color style text

def withIcon (icon : Icon) (text : String) : String := icon.text d.color ++ " " ++ text

def showStatus (message : String) : Tone → String
  | .info => d.withIcon .info message
  | .success => d.withIcon .success (d.paint .green message)
  | .warning => d.withIcon .warning (d.paint .yellow message)
  | .error => d.withIcon .error (d.paint .red message)

def diffStyle (line : List Char) : Option Style :=
  if "+++".toList.isPrefixOf line ∨ "---".toList.isPrefixOf line then some .bold
  else if "@@".toList.isPrefixOf line then some .cyan
  else
    match line with
    | '+' :: _ => some .green
    | '-' :: _ => some .red
    | _ => none

def showDiffLine (line : List Char) : String :=
  match diffStyle line with
  | some style => d.paint style (String.ofList line)
  | none => String.ofList line

def showDiff (file text : String) : List String :=
  "" :: d.paint .bold ("Changes for " ++ file) :: (Text.lines text.toList).map d.showDiffLine

def showResult (name : String) : Repair.Status → List String
  | .notNeeded => [d.withIcon .info (d.paint .dim (name ++ ": no migration needed"))]
  | .rulesOnly .noOracle => [d.withIcon .info (name ++ ": rules applied, no oracle configured")]
  | .rulesOnly .unitNotFound =>
    [d.withIcon .info (name ++ ": rules applied, no rewritable unit found")]
  | .verified attempt =>
    [d.withIcon .success
      (d.paint .green (name ++ ": build verified on attempt " ++ toString (attempt + 1)))]
  | .unverified (.noProposal _) =>
    [d.withIcon .warning (d.paint .yellow (name ++ ": build not verified, no rewrite proposal"))]
  | .unverified (.budgetSpent diagnostic) =>
    [d.withIcon .warning
      (d.paint .yellow (name ++ ": build still failing after every attempt")),
     d.paint .dim diagnostic]

def showSummary (s : Run.Summary) (dryRun : Bool) : List String :=
  let skipped := if dryRun then "not saved" else "skipped"
  let failed := d.paint (if 0 < s.failed then .red else .dim) (toString s.failed)
  let counts :=
    d.paint .bold "Summary:" ++ " " ++ d.paint .green (toString s.promoted) ++ " promoted, " ++
      toString s.skipped ++ " " ++ skipped ++ ", " ++ toString s.unchanged ++ " unchanged, " ++
      failed ++ " failed"
  let unverified :=
    if 0 < s.unverified then
      ["  " ++ d.paint .yellow (toString s.unverified) ++
        " file(s) were changed without a passing build"]
    else []
  "" :: counts :: unverified

def showNotice : Notice → List String
  | .noKey => [d.withIcon .warning "No API key configured, only deterministic rules will run"]
  | .using provider model => [d.withIcon .info ("Using " ++ provider ++ " (" ++ model ++ ")")]
  | .noSources path => [d.withIcon .info ("No .java files found in " ++ path)]
  | .workspaceFailed => [d.withIcon .error "Failed to create workspace"]
  | .workspaceReady root => [d.withIcon .success ("Workspace ready at " ++ root)]
  | .filesFound count target =>
    ["Found " ++ toString count ++ " file(s) to process for " ++ d.paint .cyan target]
  | .fileDone name status => d.showResult name status
  | .notSaved name => [d.withIcon .info (name ++ ": dry run, not saved")]
  | .fileFailed name error => [d.withIcon .error (d.paint .red name ++ ": " ++ error)]
  | .interrupted done total =>
    [d.withIcon .warning
      ("Interrupted after " ++ toString done ++ " of " ++ toString total ++ " file(s)")]
  | .kept root => [d.withIcon .info ("Workspace kept for inspection at " ++ root)]
  | .summary counts dryRun => d.showSummary counts dryRun

def levelText : Log.Level → String
  | .warn => "WARN "
  | .debug => "DEBUG"

def levelCode : Log.Level → String
  | .warn => "33"
  | .debug => "34"

/-- A record on one line with its time, level and topic; further lines of its text are indented. -/
def showRecord (r : Log.Record) : String :=
  let bracket (text : String) : String := styledWith d.logColor "90" text
  bracket "[" ++ d.clock ++ " " ++ styledWith d.logColor (levelCode r.level) (levelText r.level) ++
    " " ++ r.topic.name ++ bracket "]" ++ " " ++
    "\n    ".intercalate ((splitFeeds r.text.toList).map String.ofList)

def question (text : String) : String :=
  d.withIcon .warning
    (text ++ " (not a terminal, answering no; pass --auto-approve to apply)")

def showEvent : Event → List String
  | .log r => if d.filter.shows r then [d.showRecord r] else []
  | .status tone message => [d.showStatus message tone]
  | .diff file text => d.showDiff file text
  | .prompt text _ => [d.question text]
  | .notice n => d.showNotice n
  | _ => []

def showError (e : Run.RunError) : List String :=
  (d.paint .red "Error:" ++ " " ++ e.message) :: e.causes.map fun cause => "  " ++ cause

def showWarnings : List String :=
  d.filter.warnings.map fun warning => "warning: " ++ warning ++ ", ignoring it"

end Display

def textOf (lines : List String) : String := String.join (lines.map fun line => line ++ "\n")

def transcript (d : Display) (journal : Journal) : String := textOf (journal.flatMap d.showEvent)

end Refit.Terminal
