import Datapack.Number.Double

/-!
JSON values and their texts. Members of an object keep the order they were given in; the compact text of a
value with sorted members is the form that commands carry.
-/

namespace Datapack

/-- A number is an integer, or a double if it was written with a point or an exponent or is too large. -/
inductive Json.Number
  | int (value : Int)
  | real (value : Double)
deriving Repr, DecidableEq, Inhabited

inductive Json
  | null
  | bool (value : Bool)
  | number (value : Json.Number)
  | string (value : String)
  | array (items : List Json)
  | object (members : List (String × Json))
deriving Repr, BEq, Inhabited

namespace Json

def hexDigit (n : Nat) : Char :=
  if n < 10 then Char.ofNat ('0'.toNat + n) else Char.ofNat ('a'.toNat + (n - 10))

/-- How a character is written inside quotes: control characters, the quote and the backslash are escaped,
everything else stands for itself. -/
def escape (c : Char) : List Char :=
  match c with
  | '"' => ['\\', '"']
  | '\\' => ['\\', '\\']
  | '\n' => ['\\', 'n']
  | '\r' => ['\\', 'r']
  | '\t' => ['\\', 't']
  | _ =>
    if c.toNat = 8 then ['\\', 'b']
    else if c.toNat = 12 then ['\\', 'f']
    else if c.toNat < 32 then ['\\', 'u', '0', '0', hexDigit (c.toNat / 16), hexDigit (c.toNat % 16)]
    else [c]

def quote (text : String) : String :=
  String.ofList ('"' :: (text.toList.flatMap escape ++ ['"']))

/-- The text of a double: positional with at least one decimal place where at most sixteen digits stand
before the point and at most four zeros after it, otherwise with an exponent that shows its sign. Of two
equally near numerals it is the one with an even last digit. -/
def doubleText (x : Double) : String :=
  let (digits, power) := x.shortest .even
  let shown := Nat.toDigits 10 digits
  let magnitude : Int := shown.length + power
  (if x.negative then "-" else "") ++
    if digits = 0 then "0.0"
    else if 0 ≤ power ∧ magnitude ≤ 16 then Double.positional digits power ++ ".0"
    else if -5 < magnitude ∧ magnitude ≤ 16 then Double.positional digits power
    else
      String.ofList (shown.take 1 ++ (if shown.length = 1 then [] else '.' :: shown.drop 1)) ++
        (if 1 < magnitude then "e+" else "e") ++ toString (magnitude - 1)

def Number.text : Number → String
  | .int value => toString value
  | .real value => doubleText value

def insertMember (name : String) (value : Json) : List (String × Json) → List (String × Json)
  | [] => [(name, value)]
  | (other, held) :: rest =>
    if name < other then (name, value) :: (other, held) :: rest
    else if name = other then (name, value) :: rest
    else (other, held) :: insertMember name value rest

mutual

def sorted : Json → Json
  | .array items => .array (sortedItems items)
  | .object members => .object (sortedMembers [] members)
  | other => other

def sortedItems : List Json → List Json
  | [] => []
  | item :: rest => sorted item :: sortedItems rest

def sortedMembers (done : List (String × Json)) : List (String × Json) → List (String × Json)
  | [] => done
  | (name, value) :: rest => sortedMembers (insertMember name (sorted value) done) rest

end

mutual

def compact : Json → String
  | .null => "null"
  | .bool true => "true"
  | .bool false => "false"
  | .number n => n.text
  | .string s => quote s
  | .array items => "[" ++ String.intercalate "," (compactItems items) ++ "]"
  | .object members => "\x7b" ++ String.intercalate "," (compactMembers members) ++ "\x7d"

def compactItems : List Json → List String
  | [] => []
  | item :: rest => compact item :: compactItems rest

def compactMembers : List (String × Json) → List String
  | [] => []
  | (name, value) :: rest => (quote name ++ ":" ++ compact value) :: compactMembers rest

end

def indent (depth : Nat) : String := "\n" ++ String.ofList (List.replicate (2 * depth) ' ')

mutual

def pretty (depth : Nat) : Json → String
  | .array [] => "[]"
  | .object [] => "\x7b\x7d"
  | .array items =>
    "[" ++ String.intercalate "," (prettyItems (depth + 1) items) ++ indent depth ++ "]"
  | .object members =>
    "\x7b" ++ String.intercalate "," (prettyMembers (depth + 1) members) ++ indent depth ++ "\x7d"
  | .null => "null"
  | .bool true => "true"
  | .bool false => "false"
  | .number n => n.text
  | .string s => quote s

def prettyItems (depth : Nat) : List Json → List String
  | [] => []
  | item :: rest => (indent depth ++ pretty depth item) :: prettyItems depth rest

def prettyMembers (depth : Nat) : List (String × Json) → List String
  | [] => []
  | (name, value) :: rest =>
    (indent depth ++ quote name ++ ": " ++ pretty depth value) :: prettyMembers depth rest

end

end Json

end Datapack
