namespace Refit.Ignore

inductive Token where
  | char (c : Char)
  | any
  | star
  /-- At the start: nothing, or directories with their slashes. -/
  | leading
  /-- A slash, with directories after it or not. -/
  | between
  /-- At the end: a slash and all that follows. -/
  | trailing
  | oneOf (negated : Bool) (ranges : List (UInt8 × UInt8))
  | either (alternatives : List (List Token))

def slash : UInt8 := 0x2F

def afterSlashes : List UInt8 → List (List UInt8)
  | [] => []
  | b :: rest => if b = slash then rest :: afterSlashes rest else afterSlashes rest

def withinName : List UInt8 → List (List UInt8)
  | [] => [[]]
  | b :: rest => (b :: rest) :: if b = slash then [] else withinName rest

def suffixes : List UInt8 → List (List UInt8)
  | [] => [[]]
  | b :: rest => (b :: rest) :: suffixes rest

def afterWord (word s : List UInt8) : List (List UInt8) :=
  if word.isPrefixOf s then [s.drop word.length] else []

def afterByte (accepts : UInt8 → Bool) : List UInt8 → List (List UInt8)
  | [] => []
  | b :: rest => if accepts b then [rest] else []

def afterSlash (next : List UInt8 → List (List UInt8)) : List UInt8 → List (List UInt8)
  | [] => []
  | b :: rest => if b = slash then next rest else []

def inRanges (ranges : List (UInt8 × UInt8)) (b : UInt8) : Bool :=
  ranges.any fun (low, high) => low ≤ b && b ≤ high

mutual

def Token.isVoid : Token → Bool
  | .either alternatives => allVoid alternatives
  | _ => false

def isVoid : List Token → Bool
  | [] => true
  | t :: ts => t.isVoid && isVoid ts

def allVoid : List (List Token) → Bool
  | [] => true
  | ts :: rest => isVoid ts && allVoid rest

end

mutual

def Token.rests : Token → List UInt8 → List (List UInt8)
  | .char c, s => afterWord (String.utf8EncodeChar c) s
  | .any, s => afterByte (· != slash) s
  | .star, s => withinName s
  | .leading, s => s :: afterSlashes s
  | .between, s => afterSlash (fun rest => rest :: afterSlashes rest) s
  | .trailing, s => afterSlash suffixes s
  | .oneOf negated ranges, s => afterByte (fun b => inRanges ranges b != negated) s
  | .either alternatives, s => if allVoid alternatives then [s] else restsOfAny alternatives s

/-- What can be left after a list of tokens. -/
def rests : List Token → List UInt8 → List (List UInt8)
  | [], s => [s]
  | t :: ts, s => (t.rests s).flatMap fun s => rests ts s

def restsOfAny : List (List Token) → List UInt8 → List (List UInt8)
  | [], _ => []
  | ts :: more, s => (if isVoid ts then [] else rests ts s) ++ restsOfAny more s

end

/-- Whether a pattern matches a whole text. `**` alone matches everything. -/
def globMatches (tokens : List Token) (s : List UInt8) : Bool :=
  match tokens with
  | [.leading] => true
  | tokens => (rests tokens s).any List.isEmpty

inductive GlobFault where
  | invalidRange (low high : Char)
  | unopenedGroup
  | unclosedGroup
  | danglingEscape
  deriving DecidableEq, Repr

def GlobFault.message : GlobFault → String
  | invalidRange low high =>
    "invalid range; '" ++ low.toString ++ "' > '" ++ high.toString ++ "'"
  | unopenedGroup =>
    "unopened alternate group; missing '\x7b' (maybe escape '\x7d' with '[\x7d]'?)"
  | unclosedGroup =>
    "unclosed alternate group; missing '\x7d' (maybe escape '\x7b' with '[\x7b]'?)"
  | danglingEscape => "dangling '\\'"

/-- A group of alternatives that is still open: the tokens before it and the alternatives that are
complete, both with the last first. -/
structure Group where
  before : List Token
  complete : List (List Token)

/-- A pattern that has been read in part, with its last token first. -/
structure Partial where
  current : List Token := []
  groups : List Group := []
  previous : Option Char := none
  /-- After a class that is never closed, brackets are ordinary characters. -/
  plainBrackets : Bool := false

namespace Partial

def push (p : Partial) (token : Token) (last : Char) : Partial :=
  { p with current := token :: p.current, previous := some last }

def absorb (p : Partial) (token : Token) (last : Char) : Partial :=
  let current := match p.current with
    | .leading :: before => .leading :: before
    | .trailing :: before => .trailing :: before
    | _ :: before => token :: before
    | [] => [token]
  { p with current, previous := some last }

def openGroup (p : Partial) : Partial :=
  { p with current := [], groups := ⟨p.current, []⟩ :: p.groups, previous := some '\x7b' }

def comma (p : Partial) : Partial :=
  match p.groups with
  | [] => p.push (.char ',') ','
  | g :: outer =>
    { p with
      current := []
      groups := { g with complete := p.current.reverse :: g.complete } :: outer
      previous := some ',' }

def closeGroup (p : Partial) : Except GlobFault Partial :=
  match p.groups with
  | [] => .error .unopenedGroup
  | g :: outer =>
    .ok { p with
      current := .either (p.current.reverse :: g.complete).reverse :: g.before
      groups := outer
      previous := some '\x7d' }

def twoStars (p : Partial) : Partial := (p.push .star '*').push .star '*'

def atNameStart (p : Partial) : Bool :=
  p.previous == some '/' ||
    (!p.groups.isEmpty && (p.previous == some ',' || p.previous == some '\x7b'))

def star (p : Partial) : List Char → Partial × List Char
  | '*' :: rest =>
    if p.current.isEmpty then
      match rest with
      | [] => (p.push .leading '*', [])
      | '/' :: rest => (p.push .leading '/', rest)
      | rest => (p.twoStars, rest)
    else if p.atNameStart then
      match rest with
      | [] => (p.absorb .trailing '*', [])
      | '/' :: rest => (p.absorb .between '/', rest)
      | c :: rest =>
        if !p.groups.isEmpty && (c == ',' || c == '\x7d') then (p.absorb .trailing '*', c :: rest)
        else (p.twoStars, c :: rest)
    else (p.twoStars, rest)
  | rest => (p.push .star '*', rest)

end Partial

def extendRange (c : Char) : List (Char × Char) → Except GlobFault (List (Char × Char))
  | [] => .ok [(c, c)]
  | (low, _) :: ranges => if c < low then .error (.invalidRange low c) else .ok ((low, c) :: ranges)

def classRanges (first inRange : Bool) (ranges : List (Char × Char)) :
    List Char → Except GlobFault (Option (List (Char × Char) × List Char))
  | [] => .ok none
  | c :: rest =>
    if c = ']' ∧ !first then .ok (some (if inRange then ('-', '-') :: ranges else ranges, rest))
    else if c = '-' ∧ !first ∧ !inRange then classRanges false true ranges rest
    else if inRange then
      match extendRange c ranges with
      | .ok ranges => classRanges false false ranges rest
      | .error e => .error e
    else classRanges false false ((c, c) :: ranges) rest

/-- A range of characters as ranges of bytes: the last byte of its low end and the first byte of its
high end bound a range, and the other bytes stand for themselves. -/
def byteRanges (range : Char × Char) : List (UInt8 × UInt8) :=
  let low := String.utf8EncodeChar range.1
  let high := String.utf8EncodeChar range.2
  if range.1 = range.2 then low.map fun b => (b, b)
  else
    (low.dropLast.map fun b => (b, b)) ++ [(low.getLastD 0, high.headD 0)] ++
      high.tail.map fun b => (b, b)

def readClass (cs : List Char) : Except GlobFault (Option (Token × List Char)) :=
  let (negated, body) := match cs with
    | '!' :: rest => (true, rest)
    | '^' :: rest => (true, rest)
    | cs => (false, cs)
  (classRanges true false [] body).map fun found =>
    found.map fun (ranges, rest) => (.oneOf negated (ranges.flatMap byteRanges), rest)

def readToken (p : Partial) (c : Char) (rest : List Char) :
    Except GlobFault (Partial × List Char) :=
  match c with
  | '?' => .ok (p.push .any c, rest)
  | '*' => .ok (p.star rest)
  | '[' =>
    if p.plainBrackets then .ok (p.push (.char c) c, rest)
    else
      match readClass rest with
      | .error e => .error e
      | .ok (some (token, rest)) => .ok (p.push token ']', rest)
      | .ok none => .ok ({ p with plainBrackets := true }.push (.char c) c, rest)
  | '\x7b' => .ok (p.openGroup, rest)
  | '\x7d' => p.closeGroup.map fun p => (p, rest)
  | ',' => .ok (p.comma, rest)
  | '\\' =>
    match rest with
    | [] => .error .danglingEscape
    | c :: rest => .ok (p.push (.char c) c, rest)
  | c => .ok (p.push (.char c) c, rest)

def readTokens : (fuel : Nat) → Partial → List Char → Except GlobFault (List Token)
  | 0, p, _ | _, p, [] => if p.groups.isEmpty then .ok p.current.reverse else .error .unclosedGroup
  | fuel + 1, p, c :: rest =>
    match readToken p c rest with
    | .error e => .error e
    | .ok (p, rest) => readTokens fuel p rest

def readGlob (cs : List Char) : Except GlobFault (List Token) := readTokens cs.length {} cs

end Refit.Ignore
