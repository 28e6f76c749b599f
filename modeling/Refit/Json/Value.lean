namespace Refit.Json

inductive Value where
  | null
  | bool (b : Bool)
  | number (literal : String)
  | string (text : Option String)
  | array (items : List Value)
  | object (members : List (Option String × Value))

namespace Value

def str (s : String) : Value := .string (some s)

def record (members : List (String × Value)) : Value :=
  .object (members.map fun (key, value) => (some key, value))

end Value

def hexDigit (n : Nat) : Char := "0123456789abcdef".toList.getD n '0'

def escapedChar (c : Char) : List Char :=
  match c with
  | '"' => ['\\', '"']
  | '\\' => ['\\', '\\']
  | '\x08' => ['\\', 'b']
  | '\t' => ['\\', 't']
  | '\n' => ['\\', 'n']
  | '\x0c' => ['\\', 'f']
  | '\r' => ['\\', 'r']
  | c =>
    if c.toNat < 0x20 then "\\u00".toList ++ [hexDigit (c.toNat / 16), hexDigit (c.toNat % 16)]
    else [c]

def escaped (s : String) : List Char := '"' :: (s.toList.map escapedChar).flatten ++ ['"']

def commaSeparated : List (List Char) → List Char
  | [] => []
  | [s] => s
  | s :: rest => s ++ ',' :: commaSeparated rest

mutual

def Value.render : Value → List Char
  | .null => "null".toList
  | .bool true => "true".toList
  | .bool false => "false".toList
  | .number literal => literal.toList
  | .string text => escaped (text.getD "")
  | .array items => '[' :: commaSeparated (renderItems items) ++ [']']
  | .object members => '\x7b' :: commaSeparated (renderMembers members) ++ ['\x7d']

def renderItems : List Value → List (List Char)
  | [] => []
  | v :: rest => v.render :: renderItems rest

def renderMembers : List (Option String × Value) → List (List Char)
  | [] => []
  | (key, v) :: rest => (escaped (key.getD "") ++ ':' :: v.render) :: renderMembers rest

end

def Value.text (v : Value) : String := String.ofList v.render

end Refit.Json
