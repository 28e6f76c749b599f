import Refit.Ignore.Glob
import Refit.Text.Blank
import Refit.Text.Lines

namespace Refit.Ignore

inductive Verdict where
  | ignored
  | kept
  deriving DecidableEq, Repr

structure Pattern where
  verdict : Verdict
  onlyDirectories : Bool
  tokens : List Token

def trimLine (line : List Char) : List Char :=
  if ['\\', ' '].isSuffixOf line then line else Text.trimEnd line

def readMark (line : List Char) : Verdict × Bool × List Char :=
  match line with
  | '\\' :: '!' :: rest => (.ignored, false, '!' :: rest)
  | '\\' :: '#' :: rest => (.ignored, false, '#' :: rest)
  | '!' :: '/' :: rest => (.kept, true, rest)
  | '!' :: rest => (.kept, false, rest)
  | '/' :: rest => (.ignored, true, rest)
  | line => (.ignored, false, line)

def dropLastSlash (line : List Char) : Bool × List Char :=
  if line.getLast? = some '/' then
    let line := line.dropLast
    (true, if line.getLast? = some '\\' then line.dropLast else line)
  else (false, line)

/-- The glob of a pattern. Without a slash it matches at any depth, and at the end `**` matches what
is in a directory but not the directory. -/
def globText (anchored : Bool) (line : List Char) : List Char :=
  let deep := "**/".toList.isPrefixOf line || line == "**".toList
  let line := if anchored || line.contains '/' || deep then line else "**/".toList ++ line
  if "/**".toList.isSuffixOf line then line ++ "/*".toList else line

def readLine (line : List Char) : Except GlobFault (Option Pattern) :=
  if line.head? = some '#' ∨ trimLine line = [] then .ok none
  else
    let (verdict, anchored, line) := readMark (trimLine line)
    let (onlyDirectories, line) := dropLastSlash line
    (readGlob (globText anchored line)).map fun tokens => some ⟨verdict, onlyDirectories, tokens⟩

structure LineFault where
  number : Nat
  line : String
  fault : GlobFault
  deriving DecidableEq, Repr

structure PatternFile where
  patterns : List Pattern := []
  faults : List LineFault := []

namespace PatternFile

def addLine (f : PatternFile) (number : Nat) (line : List Char) : PatternFile :=
  match readLine line with
  | .ok none => f
  | .ok (some p) => { f with patterns := f.patterns ++ [p] }
  | .error fault =>
    { f with faults := f.faults ++ [⟨number, String.ofList (trimLine line), fault⟩] }

def ofLines (f : PatternFile) (number : Nat) : List (List Char) → PatternFile
  | [] => f
  | line :: rest => (f.addLine number line).ofLines (number + 1) rest

def splitBytes : List UInt8 → List (List UInt8)
  | [] => [[]]
  | b :: rest =>
    if b = 0x0A then [] :: splitBytes rest
    else
      match splitBytes rest with
      | [] => [[b]]
      | line :: more => (b :: line) :: more

def readableText (bytes : ByteArray) : List Char :=
  let texts := (splitBytes bytes.data.toList).map fun line => String.fromUTF8? ⟨line.toArray⟩
  let readable := (texts.takeWhile Option.isSome).map fun s => (s.getD "").toList
  let text := List.intercalate ['\n'] readable
  if readable.length < texts.length then text ++ ['\n'] else text

/-- Byte order marks at the start do not count. -/
def ofBytes (bytes : ByteArray) : PatternFile :=
  PatternFile.ofLines {} 1 (Text.lines ((readableText bytes).dropWhile (· == '\uFEFF')))

def verdict? (f : PatternFile) (path : List UInt8) (isDirectory : Bool) : Option Verdict :=
  let matching := f.patterns.filter fun p =>
    (!p.onlyDirectories || isDirectory) && globMatches p.tokens path
  matching.getLast?.map Pattern.verdict

end PatternFile

end Refit.Ignore
