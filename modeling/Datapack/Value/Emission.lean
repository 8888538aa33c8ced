import Datapack.Program.Instr
import Datapack.Value.Basic

/-!
Emission: operations on values write the instructions that do their work at run time. They take temporaries
from a counter and note the constants that have to be in their cells.
-/

namespace Datapack

inductive ValueError
  | invalidOperands (op : String) (a b : Kind)
  | invalidOperand (op : String) (kind : Kind)
  | divisionByZero
  | notStorable (kind : Kind)
deriving Repr, DecidableEq

def ValueError.message : ValueError → String
  | .invalidOperands op a b =>
    "operator `" ++ op ++ "` cannot be applied to " ++ a.text ++ " and " ++ b.text
  | .invalidOperand op kind => "operator `" ++ op ++ "` cannot be applied to " ++ kind.text
  | .divisionByZero => "division by zero"
  | .notStorable kind => "a value of type " ++ kind.text ++ " cannot be stored at runtime"

structure Emission where
  nextTemporary : Nat
  instrs : Array Instr := #[]
  constants : Array Int32 := #[]
deriving Inhabited

abbrev Emit := StateM Emission

/-- Operations that write instructions and may fail; what was written stays. -/
abbrev TryEmit := ExceptT ValueError Emit

namespace Emit

def instr (i : Instr) : Emit Unit := modify fun e => { e with instrs := e.instrs.push i }

def freshNumber : Emit Nat := do
  let e ← get
  set { e with nextTemporary := e.nextTemporary + 1 }
  return e.nextTemporary

def freshCell : Emit Cell := Cell.temporary <$> freshNumber

def freshPath : Emit Path := Path.temporary <$> freshNumber

def freshSlot : Emit Slot := do
  let cell ← freshCell
  let path ← freshPath
  return { cell, path, temporary := true }

def constant (value : Int32) : Emit Unit :=
  modify fun e => { e with constants := e.constants.push value }

end Emit

end Datapack
