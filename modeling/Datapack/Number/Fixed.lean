import Datapack.Number.Word

/-!
Fixed-point numbers with three decimal places, held in a word as the number of thousandths.
-/

namespace Datapack.Fixed

def scale : Int32 := 1000

/-- The product of two fixed-point numbers. The exact product is cut towards zero before it wraps. -/
def mul (a b : Int32) : Int32 := .ofInt ((a.toInt * b.toInt).tdiv scale.toInt)

/-- The quotient of two fixed-point numbers, cut towards zero before it wraps. -/
def div (a b : Int32) : Int32 := .ofInt ((a.toInt * scale.toInt).tdiv b.toInt)

def text (a : Int32) : String :=
  let units := a.toInt.natAbs
  let places := toString (units % 1000)
  (if a < 0 then "-" else "") ++ toString (units / 1000) ++ "." ++
    String.ofList (List.replicate (3 - places.length) '0') ++ places

end Datapack.Fixed
