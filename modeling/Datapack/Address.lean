import Datapack.Number.Word

/-!
Where values live while a pack runs: cells of the scoreboard hold words, paths in the storage hold
structured data. A slot is the place of a variable, one of each; parts of a variable live at slots derived
from it.
-/

namespace Datapack

structure Cell where
  name : String
deriving Repr, DecidableEq, Inhabited

structure Path where
  name : String
deriving Repr, DecidableEq, Inhabited

def Cell.temporary (n : Nat) : Cell := ⟨".tmp" ++ toString n⟩

def Path.temporary (n : Nat) : Path := ⟨"tmp" ++ toString n⟩

def Cell.constant (value : Int32) : Cell :=
  if value < 0 then ⟨".const_m" ++ Word.distanceText value⟩ else ⟨".const_" ++ Word.text value⟩

/-- The place of a variable or of a part of one: numbers live in its cell, texts at its path. What lives at
a temporary slot belongs to the expression that is being evaluated. -/
structure Slot where
  cell : Cell
  path : Path
  temporary : Bool := false
deriving Repr, DecidableEq, Inhabited

def Slot.ofVariable (frame : Nat) (name : String) : Slot where
  cell := ⟨".exp" ++ toString frame ++ "_" ++ name⟩
  path := ⟨toString frame ++ "_" ++ name⟩

def Slot.member (slot : Slot) (field : String) : Slot where
  cell := ⟨slot.cell.name ++ "." ++ field⟩
  path := ⟨slot.path.name ++ "." ++ field⟩

def Slot.element (slot : Slot) (index : Nat) : Slot where
  cell := ⟨slot.cell.name ++ ".e" ++ toString index⟩
  path := ⟨slot.path.name ++ ".e" ++ toString index⟩

end Datapack
