import Datapack.Compile.Call

/-!
Expressions. The body of an inline function is compiled anew at each call, which the tree of the calling
expression does not bound; so the way to expand a body is a parameter here.
-/

namespace Datapack

structure Receiver where
  value : Value
  var : Option String
  slot : Option Slot

abbrev Expansion := FunctionDef → Option Receiver → List Argument → Span → Compile Value

namespace Compile

/-- Calls a declared function. The arguments of a plain one are stored where its body looks for them, and
its result is copied from where the body leaves it. -/
def callFunction (expand : Expansion) (id : Nat) (receiver : Option Receiver) (args : List Value)
    (span : Span) : Compile Value := do
  match (← get).functions[id]? with
  | none => fail (.internal "call to an unregistered function") span
  | some declared =>
    let matched ← matchCall declared.signature args span
    match declared.form with
    | .inline => expand declared receiver matched span
    | .plain routine paramSlots returnSlot =>
      (matched.zip paramSlots).forM fun (argument, slot) =>
        argument.values.forM fun value => discard (tryEmitting span (value.store slot))
      emit (.call routine)
      match declared.signature.result.atSlot? returnSlot with
      | some result => tryEmitting span result.detach
      | none => return .null

def callValue (expand : Expansion) (callee : Value) (args : List Value) (span : Span) : Compile Value :=
  match callee with
  | .builtin builtin => callBuiltin builtin args span
  | .function id => callFunction expand id none args span
  | .structType id _ => construct id args span
  | other => fail (.notCallable other.kind) span

def method? (receiver : Value) (name : String) : Compile (Option Nat) := do
  match receiver with
  | .struct id _ _ => return ((← get).structs[id]?).bind fun d => Ordered.get? name d.methods
  | _ => return none

def receiverOf (object : Syntax.Expr) (value : Value) : Compile Receiver := do
  match object with
  | .var name _ => return ⟨value, some name, ((← frames).find? name).bind (·.2.slot)⟩
  | _ => return ⟨value, none, none⟩

/-- The name under which block ids are found, unless a variable has it. -/
def blocksName : String := "blocks"

def blockId? (base : Syntax.Expr) (member : String) (span : Span) : Compile (Option Value) := do
  match base with
  | .var name _ =>
    if name != blocksName || ((← frames).find? name).isSome then return none
    if !(← read).catalogue.hasBlock member then fail (.unknownBlock member) span
    return some (.string (.static ("minecraft:" ++ member)))
  | _ => return none

def indexWord (value : Value) (span : Span) : Compile Int32 :=
  match value with
  | .number (.static n) => return n
  | .number (.dynamic _ _) => fail (.notStatic "An array index") span
  | other => fail (.typeMismatch .number other.kind) span

/-- The thousandths of a decimal literal; the largest word stands for larger numbers. -/
def thousandths (x : Double) : Int32 := countWord (x.scaleBy Fixed.scale.toInt.toNat).roundedMagnitude

end Compile

namespace Syntax

open Compile

mutual

def Expr.compile (expand : Expansion) : Expr → Compile Value
  | .int n _ => return .number (.static n)
  | .decimal x _ => return .fixed (.static (thousandths x))
  | .string s _ => return .string (.static s)
  | .bool b _ => return .bool (.static b)
  | .null _ => return .null
  | .var name span => readName name span
  | .unary op operand span => do
    let value ← Expr.compile expand operand
    tryEmitting span (value.unary op)
  | .binary left op right span => do
    let a ← Expr.compile expand left
    let b ← Expr.compile expand right
    tryEmitting span (a.binary op b)
  | .index base subscript span => do
    let value ← Expr.compile expand base
    let position ← indexWord (← Expr.compile expand subscript) subscript.span
    orFail span (value.select (.element position))
  | .member base name span => do
    match ← blockId? base name span with
    | some block => return block
    | none =>
      let value ← Expr.compile expand base
      orFail span (value.select (.field name))
  | .call (.member object name memberSpan) args span => do
    let receiver ← Expr.compile expand object
    match ← method? receiver name with
    | some id =>
      let receiver ← receiverOf object receiver
      let args ← Expr.compileAll expand args
      callFunction expand id (some receiver) args span
    | none =>
      let callee ← orFail memberSpan (receiver.select (.field name))
      let args ← Expr.compileAll expand args
      callValue expand callee args span
  | .call callee args span => do
    let callee ← Expr.compile expand callee
    let args ← Expr.compileAll expand args
    callValue expand callee args span
  | .array items _ => return .array (← Expr.compileAll expand items)

def Expr.compileAll (expand : Expansion) : List Expr → Compile (List Value)
  | [] => return []
  | e :: rest => do
    let value ← Expr.compile expand e
    return value :: (← Expr.compileAll expand rest)

end

end Syntax

end Datapack
