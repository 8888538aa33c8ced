import Datapack.Syntax.Tree
import Datapack.Value.Emission

/-!
Operators on values. If all operands are known the result is worked out at once; otherwise instructions are
written that work it out. A temporary operand is changed in place, others are copied first.
-/

namespace Datapack

open Syntax

def scoreOp? : BinaryOp → Option ScoreOp
  | .add => some .add
  | .sub => some .sub
  | .mul => some .mul
  | .div => some .div
  | .mod => some .mod
  | _ => none

def relation? : BinaryOp → Option Relation
  | .equal => some .equal
  | .notEqual => some .notEqual
  | .less => some .less
  | .lessEqual => some .lessEqual
  | .greater => some .greater
  | .greaterEqual => some .greaterEqual
  | _ => none

def ScoreOp.divides : ScoreOp → Bool
  | .div | .mod => true
  | _ => false

def ScoreOp.commutes : ScoreOp → Bool
  | .add | .mul => true
  | _ => false

def ScoreOp.onWords : ScoreOp → Int32 → Int32 → Int32
  | .add, a, b => a + b
  | .sub, a, b => a - b
  | .mul, a, b => a * b
  | .div, a, b => Word.floorDiv a b
  | .mod, a, b => Word.floorMod a b

def ScoreOp.onFixed : ScoreOp → Int32 → Int32 → Int32
  | .add, a, b => a + b
  | .sub, a, b => a - b
  | .mul, a, b => Fixed.mul a b
  | .div, a, b => Fixed.div a b
  | .mod, a, b => Word.floorMod a b

def owned (cell : Cell) (temporary : Bool) : Emit Cell :=
  if temporary then return cell
  else do
    let target ← Emit.freshCell
    Emit.instr (.copyScore target cell)
    return target

def load (value : Int32) : Emit Cell := do
  let target ← Emit.freshCell
  Emit.instr (.setScore target value)
  return target

def applyWord (target : Cell) (op : ScoreOp) (value : Int32) : Emit Unit :=
  match op with
  | .add => Emit.instr (.addScore target value)
  | .sub => Emit.instr (.addScore target (-value))
  | _ => do
    Emit.constant value
    Emit.instr (.operateConstant target op value)

def applyCell (target : Cell) (op : ScoreOp) (source : Cell) : Emit Unit :=
  Emit.instr (.operate target op source)

def numberOp (a : Datum Int32 Cell) (op : ScoreOp) (b : Datum Int32 Cell) : TryEmit (Datum Int32 Cell) :=
  match a, b with
  | .static a, .static b =>
    if op.divides ∧ b = 0 then throw .divisionByZero else return .static (op.onWords a b)
  | .dynamic a temporary, .static b => onCell a temporary b
  | .static a, .dynamic b temporary =>
    if op.commutes then onCell b temporary a
    else do
      let target ← load a
      applyCell target op b
      return .dynamic target true
  | .dynamic a temporary, .dynamic b _ => do
    let target ← owned a temporary
    applyCell target op b
    return .dynamic target true
where
  onCell (cell : Cell) (temporary : Bool) (value : Int32) : TryEmit (Datum Int32 Cell) :=
    if op.divides ∧ value = 0 then throw .divisionByZero
    else do
      let target ← owned cell temporary
      applyWord target op value
      return .dynamic target true

/-- Arithmetic on fixed-point numbers. Products are divided by the scale and dividends multiplied by it. -/
def fixedOp (a : Datum Int32 Cell) (op : ScoreOp) (b : Datum Int32 Cell) : TryEmit (Datum Int32 Cell) :=
  match a, b with
  | .static a, .static b =>
    if op.divides ∧ b = 0 then throw .divisionByZero else return .static (op.onFixed a b)
  | .dynamic a temporary, .static b => onCell a temporary b
  | .static a, .dynamic b temporary =>
    if op.commutes then onCell b temporary a
    else do
      let lead ← load a
      onCells lead true b
  | .dynamic a temporary, .dynamic b _ => onCells a temporary b
where
  onCell (cell : Cell) (temporary : Bool) (value : Int32) : TryEmit (Datum Int32 Cell) :=
    if op.divides ∧ value = 0 then throw .divisionByZero
    else do
      let target ← owned cell temporary
      match op with
      | .mul =>
        applyWord target .mul value
        applyWord target .div Fixed.scale
      | .div =>
        applyWord target .mul Fixed.scale
        applyWord target .div value
      | _ => applyWord target op value
      return .dynamic target true
  onCells (a : Cell) (temporary : Bool) (b : Cell) : TryEmit (Datum Int32 Cell) := do
    let target ← owned a temporary
    match op with
    | .mul =>
      applyCell target .mul b
      applyWord target .div Fixed.scale
    | .div =>
      applyWord target .mul Fixed.scale
      applyCell target .div b
    | _ => applyCell target op b
    return .dynamic target true

def toFixed : Datum Int32 Cell → Emit (Datum Int32 Cell)
  | .static n => return .static (n * Fixed.scale)
  | .dynamic cell temporary => do
    let target ← owned cell temporary
    applyWord target .mul Fixed.scale
    return .dynamic target true

def toNumber : Datum Int32 Cell → Emit (Datum Int32 Cell)
  | .static n => return .static (Word.floorDiv n Fixed.scale)
  | .dynamic cell temporary => do
    let target ← owned cell temporary
    applyWord target .div Fixed.scale
    return .dynamic target true

def boolCell : Datum Bool Cell → Emit Cell
  | .static b => load (Word.ofBool b)
  | .dynamic cell _ => return cell

def testCell (conditions : List Condition) : Emit Cell := do
  let target ← Emit.freshCell
  Emit.instr (.storeCondition target conditions)
  return target

/-- The condition that a cell is in a relation to a word. At the ends of the range of words the bound stays
where it is. -/
def rangeCondition (cell : Cell) (relation : Relation) (value : Int32) : Condition :=
  match relation with
  | .equal => ⟨false, .range cell (some value) (some value)⟩
  | .notEqual => ⟨true, .range cell (some value) (some value)⟩
  | .less => ⟨false, .range cell none (some (Word.pred value))⟩
  | .lessEqual => ⟨false, .range cell none (some value)⟩
  | .greater => ⟨false, .range cell (some (Word.succ value)) none⟩
  | .greaterEqual => ⟨false, .range cell (some value) none⟩

def cellCondition (a : Cell) (relation : Relation) (b : Cell) : Condition :=
  match relation with
  | .notEqual => ⟨true, .compare a .equal b⟩
  | _ => ⟨false, .compare a relation b⟩

def compareWords (a : Datum Int32 Cell) (relation : Relation) (b : Datum Int32 Cell) :
    Emit (Datum Bool Cell) :=
  match a, b with
  | .static a, .static b => return .static (relation.holds a b)
  | .dynamic a _, .static b => return .dynamic (← testCell [rangeCondition a relation b]) true
  | .static a, .dynamic b _ => return .dynamic (← testCell [rangeCondition b relation.swapped a]) true
  | .dynamic a _, .dynamic b _ => return .dynamic (← testCell [cellCondition a relation b]) true

def Relation.isEquality : Relation → Bool
  | .equal | .notEqual => true
  | _ => false

def compareBools (a : Datum Bool Cell) (relation : Relation) (b : Datum Bool Cell) :
    Emit (Datum Bool Cell) :=
  match a, b with
  | .static a, .static b => return .static ((a == b) == (relation == .equal))
  | _, _ => do
    let a ← boolCell a
    let b ← boolCell b
    compareWords (.dynamic a false) relation (.dynamic b false)

def compare (a : Value) (op : BinaryOp) (relation : Relation) (b : Value) : TryEmit Value :=
  match a, b with
  | .number a, .number b => return .bool (← compareWords a relation b)
  | .fixed a, .fixed b => return .bool (← compareWords a relation b)
  | .number a, .fixed b => do
    let a ← toFixed a
    return .bool (← compareWords a relation b)
  | .fixed a, .number b => do
    let b ← toFixed b
    return .bool (← compareWords a relation b)
  | .bool x, .bool y =>
    if relation.isEquality then return .bool (← compareBools x relation y) else invalid
  | .string (.static x), .string (.static y) =>
    if relation.isEquality then return .bool (.static ((x == y) == (relation == .equal))) else invalid
  | .null, .null =>
    if relation.isEquality then return .bool (.static (relation == .equal)) else invalid
  | _, _ => invalid
where
  invalid : TryEmit Value := throw (.invalidOperands op.symbol a.kind b.kind)

/-- The conjunction or disjunction of two truth values. A known operand decides the result or leaves it to
the other one. -/
def logic (isAnd : Bool) (a b : Datum Bool Cell) : Emit (Datum Bool Cell) :=
  match a, b with
  | .static a, .static b => return .static (if isAnd then a && b else a || b)
  | .static s, other | other, .static s => return if s == isAnd then other else .static s
  | .dynamic a _, .dynamic b _ =>
    if isAnd then return .dynamic (← testCell [.isTrue a, .isTrue b]) true
    else do
      -- a disjunction is the opposite of neither being true
      let neither ← testCell [(Condition.isTrue a).negated, (Condition.isTrue b).negated]
      return .dynamic (← testCell [(Condition.isTrue neither).negated]) true

def arithmetic (a : Value) (op : BinaryOp) (scoreOp : ScoreOp) (b : Value) : TryEmit Value :=
  match a, b with
  | .number a, .number b => return .number (← numberOp a scoreOp b)
  | .fixed a, .fixed b => return .fixed (← fixedOp a scoreOp b)
  | .number a, .fixed b => do
    let a ← toFixed a
    return .fixed (← fixedOp a scoreOp b)
  | .fixed a, .number b => do
    let b ← toFixed b
    return .fixed (← fixedOp a scoreOp b)
  | .string (.static _), _ | _, .string (.static _) =>
    if op = .add then
      match a.literalText?, b.literalText? with
      | some x, some y => return .string (.static (x ++ y))
      | _, _ => invalid
    else invalid
  | _, _ => invalid
where
  invalid : TryEmit Value := throw (.invalidOperands op.symbol a.kind b.kind)

def Value.binary (a : Value) (op : BinaryOp) (b : Value) : TryEmit Value :=
  match relation? op with
  | some relation => compare a op relation b
  | none =>
    match scoreOp? op with
    | some scoreOp => arithmetic a op scoreOp b
    | none =>
      match a, b with
      | .bool x, .bool y => return .bool (← logic (op == .and) x y)
      | _, _ => throw (.invalidOperands op.symbol a.kind b.kind)

def negate : Datum Int32 Cell → Emit (Datum Int32 Cell)
  | .static n => return .static (-n)
  | .dynamic cell temporary => do
    let target ← owned cell temporary
    applyWord target .mul (-1)
    return .dynamic target true

def Value.unary (op : UnaryOp) (value : Value) : TryEmit Value :=
  match op, value with
  | .neg, .number d => return .number (← negate d)
  | .neg, .fixed d => return .fixed (← negate d)
  | .not, .bool (.static b) => return .bool (.static !b)
  | .not, .bool (.dynamic cell _) =>
    return .bool (.dynamic (← testCell [(Condition.isTrue cell).negated]) true)
  | _, _ => throw (.invalidOperand op.symbol value.kind)

end Datapack
