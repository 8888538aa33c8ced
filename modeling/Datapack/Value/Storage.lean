import Datapack.Value.Emission

/-!
Storing values at slots. A simple value takes one instruction, none if it is there already; structs and
arrays are stored part by part at the slots derived for their parts.
-/

namespace Datapack

def storeWord (target : Cell) : Datum Int32 Cell → Emit Unit
  | .static n => Emit.instr (.setScore target n)
  | .dynamic source _ => if source = target then pure () else Emit.instr (.copyScore target source)

def storeBool (target : Cell) : Datum Bool Cell → Emit Unit
  | .static b => storeWord target (.static (Word.ofBool b))
  | .dynamic source temporary => storeWord target (.dynamic source temporary)

def textLiteral (text : String) : String := Json.quote text

def storeText (target : Path) : Datum String Path → Emit Unit
  | .static s => Emit.instr (.storeData target (textLiteral s))
  | .dynamic source _ => if source = target then pure () else Emit.instr (.copyData target source)

namespace Value

mutual

/-- Stores a value at a slot and gives the value that lives there. Functions and struct types cannot be
stored. -/
def store (slot : Slot) : Value → TryEmit Value
  | .number d => do
    storeWord slot.cell d
    return .number (.dynamic slot.cell slot.temporary)
  | .fixed d => do
    storeWord slot.cell d
    return .fixed (.dynamic slot.cell slot.temporary)
  | .bool d => do
    storeBool slot.cell d
    return .bool (.dynamic slot.cell slot.temporary)
  | .string d => do
    storeText slot.path d
    return .string (.dynamic slot.path slot.temporary)
  | .null => return .null
  | .struct id name fields => return .struct id name (← storeFields slot fields)
  | .array items => return .array (← storeItems slot 0 items)
  | .structType _ _ => throw (.notStorable .type)
  | .builtin _ | .function _ => throw (.notStorable .function)

def storeFields (slot : Slot) : List (String × Value) → TryEmit (List (String × Value))
  | [] => return []
  | (name, value) :: rest => do
    let stored ← store (slot.member name) value
    return (name, stored) :: (← storeFields slot rest)

def storeItems (slot : Slot) (position : Nat) : List Value → TryEmit (List Value)
  | [] => return []
  | value :: rest => do
    let stored ← store (slot.element position) value
    return stored :: (← storeItems slot (position + 1) rest)

end

def detach (value : Value) : TryEmit Value := do
  if value.borrows then
    let slot ← Emit.freshSlot
    value.store slot
  else return value

end Value

end Datapack
