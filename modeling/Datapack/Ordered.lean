/-!
Maps that remember the order in which their keys were first put in, as lists of pairs, and lists of
distinct values in the order of their first occurrence.
-/

namespace Datapack.Ordered

variable {κ β : Type} [DecidableEq κ]

def get? (key : κ) : List (κ × β) → Option β
  | [] => none
  | (k, v) :: rest => if k = key then some v else get? key rest

def put (key : κ) (value : β) : List (κ × β) → List (κ × β)
  | [] => [(key, value)]
  | (k, v) :: rest => if k = key then (k, value) :: rest else (k, v) :: put key value rest

def modify (key : κ) (f : β → β) : List (κ × β) → List (κ × β)
  | [] => []
  | (k, v) :: rest => if k = key then (k, f v) :: rest else (k, v) :: modify key f rest

def ofPairs (pairs : List (κ × β)) : List (κ × β) :=
  pairs.foldl (fun m p => put p.1 p.2 m) []

def register (value : κ) : List κ → Nat × List κ
  | [] => (0, [value])
  | v :: rest =>
    if v = value then (0, v :: rest)
    else
      let (index, grown) := register value rest
      (index + 1, v :: grown)

end Datapack.Ordered
