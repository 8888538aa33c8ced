import Datapack.Address
import Datapack.Json.Basic

/-!
The instructions that scripts compile to, one command each, and the conditions they are guarded by.
-/

namespace Datapack

inductive ScoreOp
  | add | sub | mul | div | mod
deriving Repr, DecidableEq, Inhabited

def ScoreOp.symbol : ScoreOp → String
  | .add => "+="
  | .sub => "-="
  | .mul => "*="
  | .div => "/="
  | .mod => "%="

inductive Relation
  | equal | notEqual | less | lessEqual | greater | greaterEqual
deriving Repr, DecidableEq, Inhabited

def Relation.swapped : Relation → Relation
  | .less => .greater
  | .lessEqual => .greaterEqual
  | .greater => .less
  | .greaterEqual => .lessEqual
  | r => r

def Relation.holds : Relation → Int32 → Int32 → Bool
  | .equal, a, b => a == b
  | .notEqual, a, b => a != b
  | .less, a, b => decide (a < b)
  | .lessEqual, a, b => decide (a ≤ b)
  | .greater, a, b => decide (b < a)
  | .greaterEqual, a, b => decide (b ≤ a)

inductive Test
  | range (cell : Cell) (min max : Option Int32)
  | compare (a : Cell) (relation : Relation) (b : Cell)
  | predicate (name : String)
deriving Repr, DecidableEq, Inhabited

def Test.cells : Test → List Cell
  | .range cell _ _ => [cell]
  | .compare a _ b => [a, b]
  | .predicate _ => []

structure Condition where
  negate : Bool
  test : Test
deriving Repr, DecidableEq, Inhabited

def Condition.isTrue (cell : Cell) : Condition := ⟨false, .range cell (some 1) none⟩

def Condition.negated (c : Condition) : Condition := { c with negate := !c.negate }

def Condition.reads (c : Condition) (cell : Cell) : Bool := c.test.cells.contains cell

inductive NumericForm
  | int | double
deriving Repr, DecidableEq, Inhabited

inductive Axis
  | absolute (n : Int32)
  | relative (n : Int32)
  | local (n : Int32)
deriving Repr, DecidableEq, Inhabited

def Axis.text : Axis → String
  | .absolute n => Word.text n
  | .relative n => "~" ++ Word.text n
  | .local n => "^" ++ Word.text n

structure BlockPosition where
  x : Axis
  y : Axis
  z : Axis
deriving Repr, DecidableEq, Inhabited

def BlockPosition.text (p : BlockPosition) : String :=
  p.x.text ++ " " ++ p.y.text ++ " " ++ p.z.text

inductive Instr
  | setScore (cell : Cell) (value : Int32)
  | addScore (cell : Cell) (value : Int32)
  | copyScore (target source : Cell)
  | operate (target : Cell) (op : ScoreOp) (source : Cell)
  | operateConstant (target : Cell) (op : ScoreOp) (value : Int32)
  | storeCondition (target : Cell) (conditions : List Condition)
  | guarded (conditions : List Condition)
  | call (routine : String)
  | storeData (target : Path) (value : String)
  | copyData (target source : Path)
  | scoreToData (target : Path) (source : Cell) (scale : Double) (form : NumericForm)
  | dataToScore (target : Cell) (source : Path) (scale : Double)
  | tellraw (text : Json)
  | setBlock (position : BlockPosition) (block : String)
  | raw (command : String)
deriving Repr, BEq, Inhabited

def Instr.overwrites? : Instr → Option Cell
  | .setScore cell _ => some cell
  | .copyScore target _ => some target
  | .storeCondition target _ => some target
  | .dataToScore target _ _ => some target
  | _ => none

/-- Whether running an instruction may depend on the contents of a cell. Calls, messages and raw commands
may look at anything. -/
def Instr.reads (cell : Cell) : Instr → Bool
  | .addScore c _ => c == cell
  | .operateConstant target _ _ => target == cell
  | .copyScore _ source => source == cell
  | .operate target _ source => target == cell || source == cell
  | .storeCondition _ conditions => conditions.any (·.reads cell)
  | .guarded conditions => conditions.any (·.reads cell)
  | .scoreToData _ source _ _ => source == cell
  | .call _ | .tellraw _ | .raw _ => true
  | .setScore _ _ | .storeData _ _ | .copyData _ _ | .dataToScore _ _ _ | .setBlock _ _ => false

end Datapack
