import Datapack.Json.Basic

/-!
Reading JSON. The reader accepts exactly the standard grammar, with nothing but blanks around the value.
Members of the outermost object that nobody asks for are held to the grammar only: an escape in them may
name half of a surrogate pair, and their numbers may be of any size.
-/

namespace Datapack.Json

def isSpace (c : Char) : Bool := c == ' ' || c == '\n' || c == '\t' || c == '\r'

def skipSpace (cs : List Char) : List Char := cs.dropWhile isSpace

def hexValue? (c : Char) : Option Nat :=
  if '0' ≤ c ∧ c ≤ '9' then some (c.toNat - '0'.toNat)
  else if 'a' ≤ c ∧ c ≤ 'f' then some (c.toNat - 'a'.toNat + 10)
  else if 'A' ≤ c ∧ c ≤ 'F' then some (c.toNat - 'A'.toNat + 10)
  else none

def hexQuad? (a b c d : Char) : Option Nat :=
  match hexValue? a, hexValue? b, hexValue? c, hexValue? d with
  | some a, some b, some c, some d => some (((a * 16 + b) * 16 + c) * 16 + d)
  | _, _, _, _ => none

def simpleEscape? : Char → Option Char
  | '"' => some '"'
  | '\\' => some '\\'
  | '/' => some '/'
  | 'b' => some (Char.ofNat 8)
  | 'f' => some (Char.ofNat 12)
  | 'n' => some '\n'
  | 'r' => some '\r'
  | 't' => some '\t'
  | _ => none

def replacement : Char := Char.ofNat 0xFFFD

/-- The rest of a string after its opening quote, `seen` being what was read so far in reverse. A strict
reading refuses halves of surrogate pairs that stand alone. -/
def readString (strict : Bool) (seen : List Char) : List Char → Option (String × List Char)
  | [] => none
  | '"' :: rest => some (.ofList seen.reverse, rest)
  | '\\' :: 'u' :: a :: b :: c :: d :: '\\' :: 'u' :: e :: f :: g :: h :: rest =>
    match hexQuad? a b c d with
    | none => none
    | some high =>
      if high < 0xD800 ∨ 0xE000 ≤ high then
        readString strict (.ofNat high :: seen) ('\\' :: 'u' :: e :: f :: g :: h :: rest)
      else
        match hexQuad? e f g h with
        | none => none
        | some low =>
          if high < 0xDC00 ∧ 0xDC00 ≤ low ∧ low < 0xE000 then
            readString strict (.ofNat (0x10000 + (high - 0xD800) * 0x400 + (low - 0xDC00)) :: seen) rest
          else if strict then none
          else readString strict (replacement :: seen) ('\\' :: 'u' :: e :: f :: g :: h :: rest)
  | '\\' :: 'u' :: a :: b :: c :: d :: rest =>
    match hexQuad? a b c d with
    | none => none
    | some code =>
      if code < 0xD800 ∨ 0xE000 ≤ code then readString strict (.ofNat code :: seen) rest
      else if strict then none
      else readString strict (replacement :: seen) rest
  | '\\' :: c :: rest =>
    match simpleEscape? c with
    | some meant => readString strict (meant :: seen) rest
    | none => none
  | c :: rest => if c.toNat < 32 then none else readString strict (c :: seen) rest

def isDigit (c : Char) : Bool := '0' ≤ c && c ≤ '9'

def readDigits? (cs : List Char) : Option (List Char × List Char) :=
  let digits := cs.takeWhile isDigit
  if digits.isEmpty then none else some (digits, cs.dropWhile isDigit)

/-- The whole part of a number: a zero alone, or digits that do not begin with zero. -/
def readWhole? : List Char → Option (List Char × List Char)
  | '0' :: rest =>
    match rest with
    | c :: _ => if isDigit c then none else some (['0'], rest)
    | [] => some (['0'], rest)
  | cs => readDigits? cs

def readFraction? : List Char → Option (Option (List Char) × List Char)
  | '.' :: rest =>
    match readDigits? rest with
    | some (digits, rest) => some (some digits, rest)
    | none => none
  | cs => some (none, cs)

def readPower? : List Char → Option (Option Int × List Char)
  | [] => some (none, [])
  | c :: rest =>
    if c = 'e' ∨ c = 'E' then
      let (minus, rest) :=
        match rest with
        | '-' :: more => (true, more)
        | '+' :: more => (false, more)
        | more => (false, more)
      match readDigits? rest with
      | some (digits, rest) =>
        let value : Int := Double.digitsValue digits
        some (some (if minus then -value else value), rest)
      | none => none
    else some (none, c :: rest)

/-- The value of leading digits after a value, as long as 64 bits hold it, and the number of digits left. -/
def takeDigits (value : Nat) : List Char → Nat × Nat
  | [] => (value, 0)
  | c :: rest =>
    let next := value * 10 + (c.toNat - '0'.toNat)
    if next < Nat.pow 2 64 then takeDigits next rest else (value, rest.length + 1)

def largestPower : Nat := 308

/-- A significand times a power of ten. The significand and the power are rounded before they are multiplied
or divided. A power below the smallest one is divided by in two parts; a third would leave nothing. -/
def scaledDouble (negative : Bool) (significand : Nat) (power : Int) : Double :=
  let x := Double.nearest negative significand 1
  let ten (n : Nat) : Double := .nearest false (Nat.pow 10 n) 1
  let size := power.natAbs
  if significand = 0 then x
  else if 0 ≤ power then
    if size ≤ largestPower then x.mul (ten size) else .infinite negative
  else if size ≤ largestPower then x.div (ten size)
  else if size ≤ 2 * largestPower then (x.div (ten largestPower)).div (ten (size - largestPower))
  else .nearest negative 0 1

/-- The double of a number from its whole digits, its digits after the point and its exponent. Digits of
the whole part that do not fit count as zeros, those after the point are left out. -/
def doubleOf (negative : Bool) (whole places : List Char) (power : Int) : Double :=
  let (significand, dropped) := takeDigits 0 whole
  let (significand, ignored) := takeDigits significand places
  scaledDouble negative significand (power + dropped - (places.length - ignored : Nat))

/-- A number. Integers of 64 bits are kept exactly, a negative zero and all others as doubles; a strict
reading refuses those too large for a double. -/
def readNumber? (strict : Bool) (cs : List Char) : Option (Number × List Char) :=
  let (negative, unsigned) :=
    match cs with
    | '-' :: rest => (true, rest)
    | rest => (false, rest)
  match readWhole? unsigned with
  | none => none
  | some (whole, rest) =>
    match readFraction? rest with
    | none => none
    | some (fraction, rest) =>
      match readPower? rest with
      | none => none
      | some (power, rest) =>
        let magnitude := Double.digitsValue whole
        let isInteger :=
          fraction.isNone && power.isNone &&
            (if negative then decide (0 < magnitude ∧ magnitude ≤ Nat.pow 2 63) else decide (magnitude < Nat.pow 2 64))
        if isInteger then
          some (.int (if negative then -(magnitude : Int) else magnitude), rest)
        else
          let value := doubleOf negative whole (fraction.getD []) (power.getD 0)
          if strict && value.isInfinite then none else some (.real value, rest)

mutual

/-- A value, with the blanks before it. The bound limits the number of calls; every call takes a
character. -/
def readValue? : (bound : Nat) → (strict : Bool) → List Char → Option (Json × List Char)
  | 0, _, _ => none
  | n + 1, strict, cs =>
    match skipSpace cs with
    | 'n' :: 'u' :: 'l' :: 'l' :: rest => some (.null, rest)
    | 't' :: 'r' :: 'u' :: 'e' :: rest => some (.bool true, rest)
    | 'f' :: 'a' :: 'l' :: 's' :: 'e' :: rest => some (.bool false, rest)
    | '"' :: rest =>
      match readString strict [] rest with
      | some (text, rest) => some (.string text, rest)
      | none => none
    | '[' :: rest =>
      match skipSpace rest with
      | ']' :: rest => some (.array [], rest)
      | rest =>
        match readItems? n strict rest with
        | some (items, rest) => some (.array items, rest)
        | none => none
    | '\x7b' :: rest =>
      match skipSpace rest with
      | '\x7d' :: rest => some (.object [], rest)
      | rest =>
        match readMembers? n strict (fun _ => strict) rest with
        | some (members, rest) => some (.object members, rest)
        | none => none
    | rest =>
      match readNumber? strict rest with
      | some (value, rest) => some (.number value, rest)
      | none => none

def readItems? : (bound : Nat) → (strict : Bool) → List Char → Option (List Json × List Char)
  | 0, _, _ => none
  | n + 1, strict, cs =>
    match readValue? n strict cs with
    | none => none
    | some (item, rest) =>
      match skipSpace rest with
      | ',' :: rest =>
        match readItems? n strict rest with
        | some (items, rest) => some (item :: items, rest)
        | none => none
      | ']' :: rest => some ([item], rest)
      | _ => none

/-- The members of an object up to its closing brace. The value of a member is read strictly if its name
is wanted. -/
def readMembers? : (bound : Nat) → (strict : Bool) → (wanted : String → Bool) → List Char →
    Option (List (String × Json) × List Char)
  | 0, _, _, _ => none
  | n + 1, strict, wanted, cs =>
    match skipSpace cs with
    | '"' :: rest =>
      match readString strict [] rest with
      | none => none
      | some (name, rest) =>
        match skipSpace rest with
        | ':' :: rest =>
          match readValue? n (wanted name) rest with
          | none => none
          | some (value, rest) =>
            match skipSpace rest with
            | ',' :: rest =>
              match readMembers? n strict wanted rest with
              | some (members, rest) => some ((name, value) :: members, rest)
              | none => none
            | '\x7d' :: rest => some ([(name, value)], rest)
            | _ => none
        | _ => none
    | _ => none

end

/-- Reads a text that holds one value. Of the members of an outermost object only the wanted ones are read
strictly. -/
def parse? (wanted : String → Bool) (text : String) : Option Json :=
  let cs := skipSpace text.toList
  let bound := 2 * cs.length + 2
  let result :=
    match cs with
    | '\x7b' :: rest =>
      match skipSpace rest with
      | '\x7d' :: rest => some (.object [], rest)
      | rest =>
        match readMembers? bound true wanted rest with
        | some (members, rest) => some (.object members, rest)
        | none => none
    | cs => readValue? bound true cs
  match result with
  | some (value, rest) => if (skipSpace rest).isEmpty then some value else none
  | none => none

/-- Reads a text that holds one value, all of it strictly. -/
def ofText? (text : String) : Option Json := parse? (fun _ => true) text

end Datapack.Json
