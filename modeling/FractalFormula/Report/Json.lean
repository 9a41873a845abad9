import FractalFormula.Decimal.Layout

/-!
JSON values and their text, on one line or spread over lines with two blanks for each level.
-/

namespace FractalFormula
namespace Report

/-- A JSON value.  The members of an object stand in the order in which they are written. -/
inductive Json where
  | null
  | bool (b : Bool)
  | int (n : Int)
  | float (x : Float)
  | string (s : String)
  | array (items : List Json)
  | object (members : List (String × Json))

namespace Json

def nat (n : Nat) : Json :=
  .int n

def strings (texts : List String) : Json :=
  .array (texts.map .string)

/-- Quotes, backslashes and control characters are escaped, everything else stands for itself. -/
def escape (c : Char) : List Char :=
  if c = '"' then ['\\', '"']
  else if c = '\\' then ['\\', '\\']
  else if c = '\n' then ['\\', 'n']
  else if c = '\r' then ['\\', 'r']
  else if c = '\t' then ['\\', 't']
  else if c = '\x08' then ['\\', 'b']
  else if c = '\x0c' then ['\\', 'f']
  else if c < ' ' then
    ['\\', 'u', '0', '0', Nat.digitChar (c.toNat / 16), Nat.digitChar (c.toNat % 16)]
  else [c]

def quote (s : String) : String :=
  "\"" ++ String.ofList (s.toList.flatMap escape) ++ "\""

def indent (depth : Nat) : String :=
  String.ofList (List.replicate (2 * depth) ' ')

/-- Brackets around parts that are on one line if there is no depth, and otherwise on lines of their
own, one level further in. -/
def enclose (depth : Option Nat) (left right : String) (parts : List String) : String :=
  if parts.isEmpty then left ++ right
  else
    match depth with
    | none => left ++ String.intercalate "," parts ++ right
    | some d =>
      left ++ "\n" ++ String.intercalate ",\n" (parts.map (indent (d + 1) ++ ·)) ++ "\n"
        ++ indent d ++ right

/-- What stands between a key and its value. -/
def colon (depth : Option Nat) : String :=
  if depth.isSome then ": " else ":"

mutual

def write (depth : Option Nat) : Json → String
  | .null => "null"
  | .bool b => toString b
  | .int n => toString n
  | .float x => Decimal.Layout.json.format x
  | .string s => quote s
  | .array items => enclose depth "[" "]" (writeItems (depth.map (· + 1)) items)
  | .object members => enclose depth "\x7b" "\x7d" (writeMembers (depth.map (· + 1)) members)

def writeItems (depth : Option Nat) : List Json → List String
  | [] => []
  | j :: rest => write depth j :: writeItems depth rest

def writeMembers (depth : Option Nat) : List (String × Json) → List String
  | [] => []
  | (key, value) :: rest =>
    (quote key ++ colon depth ++ write depth value) :: writeMembers depth rest

end

/-- The text without blanks. -/
def compact (j : Json) : String :=
  j.write none

/-- The text spread over lines. -/
def pretty (j : Json) : String :=
  j.write (some 0)

end Json
end Report
end FractalFormula
