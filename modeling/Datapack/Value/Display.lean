import Datapack.Program.Command
import Datapack.Value.Emission

/-!
Values as text components: plain texts for what is known, and references to cells and paths for the rest.
Neighbouring plain texts are joined.
-/

namespace Datapack

inductive Component
  | plain (text : String)
  | score (cell : Cell)
  | data (path : Path)
deriving Repr, DecidableEq

def Component.json (s : Settings) : Component → Json
  | .plain text => .object [("text", .string text)]
  | .score cell =>
    .object [("score", .object [("name", .string cell.name), ("objective", .string s.objective)])]
  | .data path => .object [("nbt", .string path.name), ("storage", .string s.storageName)]

def Component.addPlain (text : String) : List Component → List Component
  | .plain before :: rest => .plain (before ++ text) :: rest
  | seen => .plain text :: seen

/-- The JSON form of a message: its components after an empty text, which keeps them from inheriting the
style of the first one. -/
def Component.message (s : Settings) (components : List Component) : Json :=
  .array (.string "" :: components.map (json s))

namespace Value

/-- Fixed-point numbers are shown by storing them as doubles of a thousandth. -/
def displayScale : Double := Double.nearest false 1 1000

mutual

/-- Adds the components of a value to those seen so far, in reverse order. Fails with the type of a part
that has no text. -/
def display (seen : List Component) : Value → ExceptT Kind Emit (List Component)
  | .number (.dynamic cell _) => return .score cell :: seen
  | .bool (.dynamic cell _) => return .score cell :: seen
  | .fixed (.dynamic cell _) => do
    let target ← Emit.freshPath
    Emit.instr (.scoreToData target cell displayScale .double)
    return .data target :: seen
  | .string (.dynamic path _) => return .data path :: seen
  | .struct id name fields =>
    if isFullyStatic (.struct id name fields) then displayLiteral seen (.struct id name fields)
    else do
      let seen ← displayFields true (Component.addPlain (name ++ "(") seen) fields
      return Component.addPlain ")" seen
  | .array items =>
    if isFullyStatic (.array items) then displayLiteral seen (.array items)
    else do
      let seen ← displayItems true (Component.addPlain "[" seen) items
      return Component.addPlain "]" seen
  | value => displayLiteral seen value

def displayFields (first : Bool) (seen : List Component) :
    List (String × Value) → ExceptT Kind Emit (List Component)
  | [] => return seen
  | (name, value) :: rest => do
    let seen := Component.addPlain ((if first then "" else ", ") ++ name ++ ": ") seen
    let seen ← display seen value
    displayFields false seen rest

def displayItems (first : Bool) (seen : List Component) :
    List Value → ExceptT Kind Emit (List Component)
  | [] => return seen
  | value :: rest => do
    let seen := if first then seen else Component.addPlain ", " seen
    let seen ← display seen value
    displayItems false seen rest

def displayLiteral (seen : List Component) (value : Value) : ExceptT Kind Emit (List Component) :=
  match value.literalText? with
  | some text => return Component.addPlain text seen
  | none => throw value.kind

end

def displayAll (seen : List Component) : List Value → ExceptT Kind Emit (List Component)
  | [] => return seen.reverse
  | value :: rest => do
    let seen ← display seen value
    displayAll seen rest

end Value

end Datapack
