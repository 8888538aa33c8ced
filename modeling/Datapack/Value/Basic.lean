import Datapack.Address
import Datapack.Json.Basic
import Datapack.Number.Fixed
import Datapack.Ordered

/-!
Values as the compiler sees them: known outright, or known by the place where they will be at run time.
Structs, arrays and functions always are shapes known to the compiler, though their parts need not be.
-/

namespace Datapack

inductive Builtin
  | print | range | fixed | int | arrayOf | len | setBlock | run | debugVariable | isRaining
  | isThundering | isFeature
deriving Repr, DecidableEq, Inhabited

def Builtin.all : List Builtin :=
  [.print, .range, .fixed, .int, .arrayOf, .len, .setBlock, .run, .debugVariable, .isRaining,
    .isThundering, .isFeature]

def Builtin.name : Builtin → String
  | .print => "print"
  | .range => "range"
  | .fixed => "fixed"
  | .int => "int"
  | .arrayOf => "arrayOf"
  | .len => "len"
  | .setBlock => "setBlock"
  | .run => "run"
  | .debugVariable => "_debugVariable"
  | .isRaining => "isRaining"
  | .isThundering => "isThundering"
  | .isFeature => "isFeature"

def Builtin.ofName? (name : String) : Option Builtin := all.find? (·.name == name)

/-- A value of one word or text: known, or kept somewhere. An expression that keeps it in a temporary place
may change it there; other places belong to variables. -/
inductive Datum (α place : Type)
  | static (value : α)
  | dynamic (place : place) (temporary : Bool)
deriving Repr, DecidableEq, Inhabited

namespace Datum

variable {α place : Type}

def isStatic : Datum α place → Bool
  | .static _ => true
  | .dynamic _ _ => false

def isBorrowed : Datum α place → Bool
  | .static _ => false
  | .dynamic _ temporary => !temporary

def mark (temporary : Bool) : Datum α place → Datum α place
  | .static value => .static value
  | .dynamic p _ => .dynamic p temporary

def same [BEq α] [BEq place] : Datum α place → Datum α place → Bool
  | .static a, .static b => a == b
  | .dynamic p _, .dynamic q _ => p == q
  | _, _ => false

end Datum

inductive Kind
  | number | fixed | bool | string | null | array | function | type
  | struct (id : Nat) (name : String)
  | any
deriving Repr, DecidableEq, Inhabited

namespace Kind

def text : Kind → String
  | .number => "Number"
  | .fixed => "Fixed"
  | .bool => "Bool"
  | .string => "String"
  | .null => "Null"
  | .array => "Array"
  | .function => "Function"
  | .type => "Type"
  | .struct _ name => name
  | .any => "Any"

def ofName? : String → Option Kind
  | "Number" | "Int" => some .number
  | "Fixed" => some .fixed
  | "Bool" => some .bool
  | "String" => some .string
  | "Null" => some .null
  | "Array" => some .array
  | "Function" => some .function
  | "Type" => some .type
  | "Any" => some .any
  | _ => none

/-- Whether values of another type can stand where this type is asked for. -/
def accepts : Kind → Kind → Bool
  | .any, _ => true
  | .struct a _, .struct b _ => a == b
  | a, b => a == b

def isSimple : Kind → Bool
  | .number | .fixed | .bool | .string => true
  | _ => false

end Kind

/-- Values. A fixed-point number is held as its number of thousandths. -/
inductive Value
  | number (datum : Datum Int32 Cell)
  | fixed (datum : Datum Int32 Cell)
  | bool (datum : Datum Bool Cell)
  | string (datum : Datum String Path)
  | null
  | structType (id : Nat) (name : String)
  | struct (id : Nat) (name : String) (fields : List (String × Value))
  | array (items : List Value)
  | builtin (function : Builtin)
  | function (id : Nat)
deriving Repr, Inhabited

def Kind.atSlot? (slot : Slot) : Kind → Option Value
  | .number => some (.number (.dynamic slot.cell slot.temporary))
  | .fixed => some (.fixed (.dynamic slot.cell slot.temporary))
  | .bool => some (.bool (.dynamic slot.cell slot.temporary))
  | .string => some (.string (.dynamic slot.path slot.temporary))
  | .null => some .null
  | _ => none

namespace Value

def kind : Value → Kind
  | .number _ => .number
  | .fixed _ => .fixed
  | .bool _ => .bool
  | .string _ => .string
  | .null => .null
  | .structType _ _ => .type
  | .struct id name _ => .struct id name
  | .array _ => .array
  | .builtin _ | .function _ => .function

/-- Whether the compiler knows a value. Structs and arrays count as known even if their parts are not. -/
def isStatic : Value → Bool
  | .number d | .fixed d => d.isStatic
  | .bool d => d.isStatic
  | .string d => d.isStatic
  | _ => true

mutual

def isFullyStatic : Value → Bool
  | .number d | .fixed d => d.isStatic
  | .bool d => d.isStatic
  | .string d => d.isStatic
  | .struct _ _ fields => allFieldsStatic fields
  | .array items => allStatic items
  | .null | .structType _ _ | .builtin _ | .function _ => true

def allFieldsStatic : List (String × Value) → Bool
  | [] => true
  | (_, value) :: rest => isFullyStatic value && allFieldsStatic rest

def allStatic : List Value → Bool
  | [] => true
  | value :: rest => isFullyStatic value && allStatic rest

end

mutual

def borrows : Value → Bool
  | .number d | .fixed d => d.isBorrowed
  | .bool d => d.isBorrowed
  | .string d => d.isBorrowed
  | .struct _ _ fields => anyFieldBorrows fields
  | .array items => anyBorrows items
  | .null | .structType _ _ | .builtin _ | .function _ => false

def anyFieldBorrows : List (String × Value) → Bool
  | [] => false
  | (_, value) :: rest => borrows value || anyFieldBorrows rest

def anyBorrows : List Value → Bool
  | [] => false
  | value :: rest => borrows value || anyBorrows rest

end

mutual

/-- The text of a value that is known in all its parts. Functions have none. -/
def literalText? : Value → Option String
  | .number (.static n) => some (Word.text n)
  | .fixed (.static n) => some (Fixed.text n)
  | .bool (.static b) => some (if b then "true" else "false")
  | .string (.static s) => some s
  | .null => some "null"
  | .structType _ name => some name
  | .struct _ name fields =>
    match fieldTexts? fields with
    | some texts => some (name ++ "(" ++ String.intercalate ", " texts ++ ")")
    | none => none
  | .array items =>
    match itemTexts? items with
    | some texts => some ("[" ++ String.intercalate ", " texts ++ "]")
    | none => none
  | _ => none

def fieldTexts? : List (String × Value) → Option (List String)
  | [] => some []
  | (name, value) :: rest =>
    match literalText? value, fieldTexts? rest with
    | some text, some texts => some ((name ++ ": " ++ text) :: texts)
    | _, _ => none

def itemTexts? : List Value → Option (List String)
  | [] => some []
  | value :: rest =>
    match literalText? value, itemTexts? rest with
    | some text, some texts => some (text :: texts)
    | _, _ => none

end

mutual

def mark (temporary : Bool) : Value → Value
  | .number d => .number (d.mark temporary)
  | .fixed d => .fixed (d.mark temporary)
  | .bool d => .bool (d.mark temporary)
  | .string d => .string (d.mark temporary)
  | .struct id name fields => .struct id name (markFields temporary fields)
  | .array items => .array (markAll temporary items)
  | other => other

def markFields (temporary : Bool) : List (String × Value) → List (String × Value)
  | [] => []
  | (name, value) :: rest => (name, mark temporary value) :: markFields temporary rest

def markAll (temporary : Bool) : List Value → List Value
  | [] => []
  | value :: rest => mark temporary value :: markAll temporary rest

end

def pinned (value : Value) : Value := value.mark false

def inPlace (value : Value) : Value := value.mark true

mutual

/-- Whether two values are the same: known ones by what they are, others by their places. The order of
fields does not matter. -/
def same : Value → Value → Bool
  | .number a, .number b => a.same b
  | .fixed a, .fixed b => a.same b
  | .bool a, .bool b => a.same b
  | .string a, .string b => a.same b
  | .null, .null => true
  | .structType i n, .structType j m => i == j && n == m
  | .struct i n fields, .struct j m others =>
    i == j && n == m && fields.length == others.length && sameFields fields others
  | .array items, .array others => sameItems items others
  | .builtin a, .builtin b => a == b
  | .function a, .function b => a == b
  | _, _ => false

def sameFields : List (String × Value) → List (String × Value) → Bool
  | [], _ => true
  | (name, value) :: rest, others =>
    (match Ordered.get? name others with
      | some other => same value other
      | none => false) && sameFields rest others

def sameItems : List Value → List Value → Bool
  | [], [] => true
  | a :: as, b :: bs => same a b && sameItems as bs
  | _, _ => false

end

def isNull : Value → Bool
  | .null => true
  | _ => false

end Value

end Datapack
