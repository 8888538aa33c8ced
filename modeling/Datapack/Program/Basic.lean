import Datapack.Program.Instr
import Datapack.Text.Source

/-!
Programs: routines with trees of instructions, in the order in which they were made. Only guarded
instructions are meant to have others below them. Every node may carry the span it was compiled from and
the number of its emission.
-/

namespace Datapack

structure Node where
  instr : Instr
  children : List Node
  location : Option Span
  index : Option Nat
deriving Repr, Inhabited

namespace Node

def leaf (instr : Instr) : Node := ⟨instr, [], none, none⟩

def guarded (conditions : List Condition) (children : List Node) : Node :=
  ⟨.guarded conditions, children, none, none⟩

mutual

def size : Node → Nat
  | ⟨_, children, _, _⟩ => 1 + sizeAll children

def sizeAll : List Node → Nat
  | [] => 0
  | node :: rest => size node + sizeAll rest

end

mutual

def calls : Node → List String
  | ⟨.call routine, children, _, _⟩ => routine :: callsAll children
  | ⟨_, children, _, _⟩ => callsAll children

def callsAll : List Node → List String
  | [] => []
  | node :: rest => calls node ++ callsAll rest

end

mutual

def number : Nat → Node → Nat × Node
  | next, ⟨instr, children, location, _⟩ =>
    let (after, children) := numberAll (next + 1) children
    (after, ⟨instr, children, location, some next⟩)

def numberAll : Nat → List Node → Nat × List Node
  | next, [] => (next, [])
  | next, node :: rest =>
    let (next, node) := number next node
    let (next, rest) := numberAll next rest
    (next, node :: rest)

end

def isCallOf (routine : String) (node : Node) : Bool :=
  match node.instr with
  | .call r => r == routine
  | _ => false

end Node

/-- A named list of instructions. A dropped routine is no longer part of the program, though it is still
listed. -/
structure Routine where
  name : String
  body : List Node
  dropped : Bool := false
  location : Option Span := none
  index : Option Nat := none
deriving Repr, Inhabited

def Routine.calls (r : Routine) : List String := Node.callsAll r.body

structure Program where
  routines : List Routine
  nextIndex : Nat
deriving Repr, Inhabited

def Program.routine? (p : Program) (name : String) : Option Routine :=
  p.routines.find? (·.name == name)

def Program.live (p : Program) : List Routine := p.routines.filter fun r => !r.dropped

end Datapack
