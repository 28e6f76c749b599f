import Refit.Path
import Refit.Text.Blank

namespace Refit.Chat

/-- An address of the web. The server is given with its scheme, and the path with its query. -/
structure Url where
  server : String
  path : String
  deriving DecidableEq, Repr

namespace Url

def text (u : Url) : String := u.server ++ u.path

def hexDigits (n : Nat) : List Char :=
  let digit (d : Nat) : Char := "0123456789ABCDEF".toList.getD d '0'
  [digit (n / 16), digit (n % 16)]

def percentEncoded (c : Char) : List Char :=
  c.toString.toUTF8.data.toList.flatMap fun b => '%' :: hexDigits b.toNat

def encodeWith (special : List Char) (cs : List Char) : List Char :=
  cs.flatMap fun c =>
    if c.toNat < 0x20 ∨ 0x7E < c.toNat ∨ c ∈ special then percentEncoded c else [c]

def pathSpecials : List Char := [' ', '"', '<', '>', '`', '#', '?', '\x7b', '\x7d']

def querySpecials : List Char := [' ', '"', '<', '>', '#', '\'']

def isSlash (c : Char) : Bool := c == '/' || c == '\\'

def plainDots : List Char → List Char
  | '%' :: '2' :: 'e' :: rest | '%' :: '2' :: 'E' :: rest => '.' :: plainDots rest
  | c :: rest => c :: plainDots rest
  | [] => []

/-- Takes `.` and `..` out of a path; the segments before are given from the last to the first. -/
def resolveDots : (before : List (List Char)) → List (List Char) → List (List Char)
  | before, [] => before.reverse
  | before, segment :: rest =>
    match plainDots segment with
    | ['.'] => resolveDots (if rest = [] then [] :: before else before) rest
    | ['.', '.'] => resolveDots (if rest = [] then [] :: before.drop 1 else before.drop 1) rest
    | _ => resolveDots (segment :: before) rest

def encodePath (cs : List Char) : List Char :=
  let segments := Path.splitSlashes ((cs.map fun c => if isSlash c then '/' else c).drop 1)
  (resolveDots [] segments).flatMap fun segment => '/' :: encodeWith pathSpecials segment

def encodeTarget (cs : List Char) : List Char :=
  let (path, rest) := cs.span fun c => c != '?' && c != '#'
  let query := match rest with
    | '?' :: rest => '?' :: encodeWith querySpecials (rest.takeWhile (· != '#'))
    | _ => []
  encodePath path ++ query

def splitScheme (cs : List Char) : Option (List Char × List Char) :=
  let (scheme, rest) := cs.span (· != ':')
  let scheme := scheme.map Char.toLower
  if scheme = "http".toList ∨ scheme = "https".toList then
    match rest with
    | ':' :: rest => some (scheme, rest.dropWhile isSlash)
    | _ => none
  else none

def hostForbidden : List Char :=
  [' ', '"', '#', '%', '/', '<', '>', '?', '@', '[', '\\', ']', '^', '`', '|', '\x7b', '\x7d']

def isHost (host : List Char) : Bool :=
  host != [] && host.all fun c => !(c.toNat < 0x20 || c == '\x7f' || hostForbidden.contains c)

def isSocketNumber (digits : List Char) : Bool :=
  digits.all Char.isDigit && digits.foldl (fun n c => 10 * n + (c.toNat - 48)) 0 < 65536

def isAuthority (cs : List Char) : Bool :=
  let (host, number) := cs.span (· != ':')
  isHost host && isSocketNumber (number.drop 1)

/-- Controls and spaces at the ends do not count, nor do tabs and line ends anywhere. -/
def cleaned (cs : List Char) : List Char :=
  let outer (c : Char) : Bool := c.toNat ≤ 0x20
  let cs := ((cs.dropWhile outer).reverse.dropWhile outer).reverse
  cs.filter fun c => c != '\t' && c != '\n' && c != '\r'

/-- Reads an address whose server is given by a name or by a dotted number. Left out are addresses
with a user in front of the server, with the server as a bracketed number, or with escapes in it. -/
def ofText? (s : String) : Option Url := do
  let (scheme, rest) ← splitScheme (cleaned s.toList)
  let (authority, target) := rest.span fun c => !isSlash c && c != '?' && c != '#'
  if isAuthority authority then
    return ⟨String.ofList (scheme ++ "://".toList ++ authority.map Char.toLower),
      String.ofList (encodeTarget target)⟩
  else none

end Url

end Refit.Chat
