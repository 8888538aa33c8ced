/-!
Arithmetic of scoreboard cells: 32-bit words in two's complement that wrap around, with a division that
rounds towards negative infinity and a remainder that takes the sign of the divisor.
-/

namespace Datapack.Word

/-- Division rounding towards negative infinity: the truncated quotient, less one if the division leaves a
remainder and the signs differ. -/
def floorDiv (a b : Int32) : Int32 :=
  let q := a / b
  if a % b ≠ 0 ∧ (decide (a < 0) ≠ decide (b < 0)) then q - 1 else q

/-- The remainder that goes with `floorDiv`: the truncated remainder, moved by the divisor if the signs
differ. -/
def floorMod (a b : Int32) : Int32 :=
  let r := a % b
  if r ≠ 0 ∧ (decide (r < 0) ≠ decide (b < 0)) then r + b else r

def pred (a : Int32) : Int32 := if a = Int32.minValue then a else a - 1

def succ (a : Int32) : Int32 := if a = Int32.maxValue then a else a + 1

def ofBool (b : Bool) : Int32 := if b then 1 else 0

def text (a : Int32) : String := toString a.toInt

def distanceText (a : Int32) : String := toString a.toInt.natAbs

end Datapack.Word
