/-!
Double-precision numbers as exact values: a sign, a significand and a power of two. Decimal notation is
read to the nearest double and written back with the fewest digits that still name it, all in exact
arithmetic on natural numbers.
-/

namespace Datapack

/-- The number `± significand · 2 ^ exponent`. In normal form the significand is below `2 ^ 53`, the
exponent at least `-1074`, and one of the two is as small as it can be without losing a digit. The value
`2 ^ 1024` stands for everything too large. -/
structure Double where
  negative : Bool
  significand : Nat
  exponent : Int
deriving Repr, DecidableEq, Inhabited

namespace Double

/-- The quotient of two natural numbers rounded to the nearest, halves to even. -/
def roundedQuotient (num den : Nat) : Nat :=
  let q := num / den
  let r := num % den
  if 2 * r > den ∨ (2 * r = den ∧ q % 2 = 1) then q + 1 else q

def scaled (base : Nat) (power : Int) (num den : Nat) : Nat × Nat :=
  if 0 ≤ power then (num * base.pow power.toNat, den) else (num, den * base.pow (-power).toNat)

def infinite (negative : Bool) : Double := ⟨negative, Nat.pow 2 52, 972⟩

/-- The double nearest to a fraction, halves to the even significand. -/
def nearest (negative : Bool) (num den : Nat) : Double :=
  if num = 0 then ⟨negative, 0, -1074⟩
  else
    let guess : Int := (num.log2 : Int) - (den.log2 : Int) - 53
    let (n, d) := scaled 2 (-guess) num den
    let fitted := if n / d < Nat.pow 2 53 then guess else guess + 1
    let exponent := max fitted (-1074)
    let (n, d) := scaled 2 (-exponent) num den
    let q := roundedQuotient n d
    let (q, exponent) := if q = Nat.pow 2 53 then (Nat.pow 2 52, exponent + 1) else (q, exponent)
    if exponent > 971 then infinite negative else ⟨negative, q, exponent⟩

/-- The double nearest to `digits · 10 ^ power`. Zero is zero whatever the power. Numerals far outside the
range of doubles are not worked out: they are too large, or too small to differ from zero. -/
def ofDecimal (negative : Bool) (digits : Nat) (power : Int) : Double :=
  let leading := power + ((Nat.toDigits 10 digits).length : Int)
  if digits = 0 ∨ leading < -400 then nearest negative 0 1
  else if 400 < leading then infinite negative
  else
    let (n, d) := scaled 10 power digits 1
    nearest negative n d

def digitsValue (digits : List Char) : Nat :=
  digits.foldl (fun value c => value * 10 + (c.toNat - '0'.toNat)) 0

def isDecimalDigit (c : Char) : Bool := '0' ≤ c && c ≤ '9'

def readExponent? : List Char → Option Int
  | [] => some 0
  | c :: cs =>
    if c = 'e' ∨ c = 'E' then
      let (minus, digits) :=
        match cs with
        | '-' :: rest => (true, rest)
        | '+' :: rest => (false, rest)
        | rest => (false, rest)
      if digits.isEmpty || !digits.all isDecimalDigit then none
      else
        let value : Int := digitsValue digits
        some (if minus then -value else value)
    else none

def ofText? (text : List Char) : Option Double :=
  let (negative, unsigned) :=
    match text with
    | '-' :: rest => (true, rest)
    | '+' :: rest => (false, rest)
    | rest => (false, rest)
  let whole := unsigned.takeWhile isDecimalDigit
  let (fraction, rest) :=
    match unsigned.dropWhile isDecimalDigit with
    | '.' :: more => (more.takeWhile isDecimalDigit, more.dropWhile isDecimalDigit)
    | more => ([], more)
  if whole.isEmpty && fraction.isEmpty then none
  else
    match readExponent? rest with
    | none => none
    | some power =>
      some (ofDecimal negative (digitsValue (whole ++ fraction)) (power - fraction.length))

def magnitude (x : Double) : Nat × Nat := scaled 2 x.exponent x.significand 1

def mul (x y : Double) : Double :=
  let (a, b) := x.magnitude
  let (c, d) := y.magnitude
  nearest (x.negative != y.negative) (a * c) (b * d)

def div (x y : Double) : Double :=
  let (a, b) := x.magnitude
  let (c, d) := y.magnitude
  nearest (x.negative != y.negative) (a * d) (b * c)

def scaleBy (x : Double) (factor : Nat) : Double :=
  let (n, d) := scaled 2 x.exponent (x.significand * factor) 1
  nearest x.negative n d

/-- The absolute value rounded to a natural number, halves away from zero. -/
def roundedMagnitude (x : Double) : Nat :=
  let (n, d) := x.magnitude
  (2 * n + d) / (2 * d)

/-- The pattern of 64 bits of a double: sign, biased exponent, fraction. -/
def bits (x : Double) : Nat :=
  (if x.negative then Nat.pow 2 63 else 0) +
    (if x.significand < Nat.pow 2 52 then x.significand
    else (x.exponent + 1075).toNat * Nat.pow 2 52 + (x.significand - Nat.pow 2 52))

/-- The number of decimal digits before the point of a positive fraction; for a fraction below one, less
the number of zeros after the point. -/
def decimalMagnitude (num den : Nat) : Int :=
  if den ≤ num then ((Nat.toDigits 10 (num / den)).length : Int)
  else 1 - ((Nat.toDigits 10 (den / num)).length : Int)

inductive Tie
  | larger | even
deriving Repr, DecidableEq, Inhabited

/-- The point of the grid of multiples of `10 ^ power` that lies in the interval and next to the value, the
nearer one if there are two. The value and the ends of the interval are numerators over `den`. -/
def gridPoint? (tie : Tie) (power : Int) (value low high den : Nat) (closed : Bool) : Option Nat :=
  let below := let (n, d) := scaled 10 (-power) value den; n / d
  let inside (point : Nat) : Bool :=
    let (p, q) := scaled 10 power point 1
    let at_ := p * den
    let (l, h) := (low * q, high * q)
    if closed then decide (l ≤ at_ ∧ at_ ≤ h) else decide (l < at_ ∧ at_ < h)
  match inside below, inside (below + 1) with
  | false, false => none
  | true, false => some below
  | false, true => some (below + 1)
  | true, true =>
    let (n, d) := scaled 10 (-power) value den
    if 2 * (n % d) < d ∨ (2 * (n % d) = d ∧ tie = .even ∧ below % 2 = 0) then some below
    else some (below + 1)

def searchDigits (tie : Tie) (magnitude : Int) (value low high den : Nat) (closed : Bool) :
    (tries count : Nat) → Nat × Int
  | 0, count =>
    let power := magnitude - count
    let (n, d) := scaled 10 (-power) value den
    (roundedQuotient n d, power)
  | tries + 1, count =>
    let power := magnitude - count
    match gridPoint? tie power value low high den closed with
    | some point => (point, power)
    | none => searchDigits tie magnitude value low high den closed tries (count + 1)

def dropZeros : (bound : Nat) → Nat × Int → Nat × Int
  | 0, numeral => numeral
  | bound + 1, (digits, power) =>
    if digits ≠ 0 ∧ digits % 10 = 0 then dropZeros bound (digits / 10, power + 1) else (digits, power)

/-- The shortest decimal numeral that reads back as the absolute value of a double, as digits and a power
of ten; of several the nearest, and of two equally near ones the one that `tie` tells. The interval of
numbers that read back reaches half way to either neighbour, and includes its ends if the significand is
even. -/
def shortest (tie : Tie) (x : Double) : Nat × Int :=
  if x.significand = 0 then (0, 0)
  else
    let quarter := x.exponent - 2
    let (value, den) := scaled 2 quarter (4 * x.significand) 1
    let (high, _) := scaled 2 quarter (4 * x.significand + 2) 1
    let lowNumerator :=
      if x.significand = Nat.pow 2 52 ∧ x.exponent > -1074 then 4 * x.significand - 1 else 4 * x.significand - 2
    let (low, _) := scaled 2 quarter lowNumerator 1
    dropZeros 400
      (searchDigits tie (decimalMagnitude value den) value low high den (x.significand % 2 = 0) 17 1)

def positional (digits : Nat) (power : Int) : String :=
  let shown := Nat.toDigits 10 digits
  if 0 ≤ power then String.ofList (shown ++ List.replicate power.toNat '0')
  else
    let places := (-power).toNat
    if places < shown.length then
      String.ofList (shown.take (shown.length - places) ++ '.' :: shown.drop (shown.length - places))
    else String.ofList ('0' :: '.' :: (List.replicate (places - shown.length) '0' ++ shown))

def isInfinite (x : Double) : Bool := x.exponent > 971

/-- The shortest notation of a double without exponent; of two equally near numerals the larger one. -/
def text (x : Double) : String :=
  (if x.negative then "-" else "") ++
    if x.isInfinite then "inf"
    else
      let (digits, power) := x.shortest .larger
      positional digits power

end Double

end Datapack
