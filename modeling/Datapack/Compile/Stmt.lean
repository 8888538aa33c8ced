import Datapack.Compile.Expr

/-!
Statements. What the compiler can decide is decided; the rest becomes guarded nodes for branches and a
routine that calls itself for a loop.
-/

namespace Datapack

namespace Compile

open Syntax

def targetPath (expand : Expansion) : Target → Compile (String × List Selector)
  | .path var members => return (var, members.map .field)
  | .element var index => do
    let position ← indexWord (← index.compile expand) index.span
    return (var, [.element position])

def updatePlace (expand : Expansion) (target : Target) (op : BinaryOp) (value : Expr) (span : Span) :
    Compile Unit := do
  let (var, path) ← targetPath expand target
  let current ← readPlace var path span
  let operand ← value.compile expand
  let result ← tryEmitting span (current.binary op operand)
  assign var path result span

def itemsFor (count : Nat) (span : Span) : Value → Compile (List Value)
  | .array items =>
    if items.length = count then return items
    else fail (.destructureMismatch count items.length) span
  | other => fail (.typeMismatch .array other.kind) span

/-- A condition that the compiler decides, or one that is tested when the pack runs. The latter may be a
truth value in a temporary cell, which nothing else changes. -/
inductive Decision
  | known (holds : Bool)
  | tested (condition : Condition) (ownCell : Bool)

/-- The decision of a value: a truth value, or a number other than zero. -/
def decisionOf (value : Value) (span : Span) : Compile Decision :=
  match value with
  | .bool (.static b) => return .known b
  | .number (.static n) => return .known (n != 0)
  | .bool (.dynamic cell temporary) => return .tested (.isTrue cell) temporary
  | .number (.dynamic cell _) => return .tested ⟨true, .range cell (some 0) (some 0)⟩ false
  | other => fail (.typeMismatch .bool other.kind) span

def decide (expand : Expansion) (cond : Expr) : Compile Decision := do
  decisionOf (← cond.compile expand) cond.span

/-- A condition that stays as it is while branches run: unless it is in a cell of its own, it is stored in
one. -/
def stableCondition (condition : Condition) (ownCell : Bool) : Compile Condition := do
  if ownCell then return condition
  let target ← emitting Emit.freshCell
  emit (.storeCondition target [condition])
  return .isTrue target

def emitGuarded (condition : Condition) (body : Compile Unit) : Compile Unit := do
  let nodes ← inBuffer body
  emitNode (.guarded [condition] nodes)

/-- Compiles a branch. Each body is given for a scope kind: a body that is chosen by the compiler runs like
a plain block. -/
def branch (decision : Decision) (onTrue onFalse : ScopeKind → Compile Unit) (hasElse : Bool) :
    Compile Unit := do
  match decision with
  | .known true => onTrue .block
  | .known false => onFalse .block
  | .tested condition ownCell =>
    let condition ← stableCondition condition ownCell
    emitGuarded condition (onTrue .conditional)
    if hasElse then emitGuarded condition.negated (onFalse .conditional)

def callIf (expand : Expansion) (cond : Expr) (routine : String) : Compile Bool := do
  let call := { Node.leaf (.call routine) with location := some (← get).location }
  match ← decide expand cond with
  | .known false => return false
  | .known true =>
    emitNode call
    return true
  | .tested condition _ =>
    emitNode (.guarded [condition] [call])
    return true

/-- Compiles a loop as a routine that calls itself as long as the condition holds. -/
def loop (expand : Expansion) (cond : Expr) (body : Compile Unit) (span : Span) : Compile Unit := do
  let label := (← get).nextLabel
  let routine ← freshRoutineName ("while_" ++ toString label)
  modify fun s => { s with nextLabel := label + 1 }
  inRoutine routine span do
    if ← inPrevious (callIf expand cond routine) then
      body
      let _ ← callIf expand cond routine

def itemsOf (span : Span) : Value → Compile (List Value)
  | .array items => return items
  | other => fail (.notIterable other.kind) span

def returnName : String := "return"

def checkResult (frame : Frame) (value : Value) (span : Span) : Compile Unit :=
  match frame.returnKind with
  | some expected =>
    if expected.accepts value.kind then pure () else fail (.typeMismatch expected value.kind) span
  | none => pure ()

/-- Stores a known value that was returned before at the slot for results, in the buffer of the function. -/
def storeEarlier (frame : Frame) (slot : Slot) (span : Span) : Compile Unit :=
  match frame.returned with
  | some previous =>
    if previous.isFullyStatic then do
      let nodes ← inBuffer (discard (tryEmitting span (previous.store slot)))
      modify fun s => { s with draft := s.draft.appendAt frame.bufferDepth nodes }
    else pure ()
  | none => pure ()

/-- What is kept of a value that a function returns. A plain function leaves it at its slot. In an expanded
body the value stays with the compiler unless it depends on how the code runs; then it goes to a slot, and
so does a known value that was returned before. -/
def keptResult (frame : Frame) (dynamic : Bool) (value : Value) (span : Span) : Compile Value :=
  let slot := frame.returnSlot.getD (frame.slotFor returnName)
  if frame.kind = .function then
    if value.isNull then pure value else tryEmitting span (value.store slot)
  else if dynamic then do
    storeEarlier frame slot span
    tryEmitting span (value.store slot)
  else if frame.returned.any (!·.isFullyStatic) then tryEmitting span (value.store slot)
  else pure value

def returnValue (value : Value) (span : Span) : Compile Unit := do
  let fs ← frames
  match fs.enclosingFunction? with
  | none => fail .returnOutsideFunction span
  | some key =>
    match fs.get? key with
    | none => fail (.internal "function frame disappeared") span
    | some frame =>
      checkResult frame value span
      let kept ← keptResult frame (fs.isDynamicBelow key) value span
      modifyFrames (·.modify key fun f => { f with returned := some kept })

def parameterOf (expand : Expansion) (expanded : Bool) (param : Param) : Compile Parameter := do
  let kind ← resolveKind param.type
  if !expanded && !kind.isSimple then fail (.unsupportedRuntimeType kind) param.span
  match param.default? with
  | none => return { name := param.name, kind }
  | some value => return { name := param.name, kind, default? := some (← value.compile expand) }

/-- The result type of a declaration: without one, an expanded function returns anything and a plain one
nothing. -/
def resultOf (expanded : Bool) : Option Ident → Compile Kind
  | some type => do
    let kind ← resolveKind type
    if !expanded && !kind.isSimple && kind != .null then fail (.unsupportedRuntimeType kind) type.span
    return kind
  | none => return if expanded then .any else .null

/-- The signature of a declaration. Methods are always expanded. -/
def signatureOf (expand : Expansion) (decl : Function) (isMethod : Bool) : Compile Signature := do
  let expanded := decl.isInline || isMethod
  let params ← decl.params.mapM (parameterOf expand expanded)
  let result ← resultOf expanded decl.result
  return { name := decl.name, params, result, isMethod }

def registerFunction (f : FunctionDef) : Compile Nat :=
  modifyGet fun s => (s.functions.size, { s with functions := s.functions.push f })

def bindParams (scope : Span) : List (Param × Slot × Parameter) → Compile Unit
  | [] => pure ()
  | (param, slot, formal) :: rest => do
    match formal.kind.atSlot? slot with
    | none => fail (.internal "parameter type has no runtime form") param.span
    | some value =>
      bindNew param.name ⟨value, scope, param.span, some slot, false⟩ param.span
      bindParams scope rest

/-- Declares a plain function with places for its parameters and its result, and compiles its body as a
routine. -/
def declarePlain (decl : Function) (signature : Signature) (routine : String) (body : Compile Unit) :
    Compile Unit := do
  let frameId ← modifyGet fun s =>
    let (id, frames) := s.frames.takeId
    (id, { s with frames })
  let paramSlots := signature.params.map fun p => Slot.ofVariable frameId p.name
  let returnSlot := Slot.ofVariable frameId returnName
  let id ← registerFunction ⟨signature, decl, .plain routine paramSlots returnSlot⟩
  declare decl.name (.function id) decl.span false
  inRoutine routine decl.span do
    inFrame .function decl.body.span do
      modifyFrames (·.modifyTop fun f =>
        { f with returnSlot := some returnSlot, returnKind := some signature.result })
      bindParams decl.body.span (decl.params.zip (paramSlots.zip signature.params))
      body

def declareFunction (expand : Expansion) (decl : Function) (body : Compile Unit) : Compile Unit := do
  let signature ← signatureOf expand decl false
  if decl.isInline then
    let id ← registerFunction ⟨signature, decl, .inline⟩
    declare decl.name (.function id) decl.span false
  else
    let routine ← freshRoutineName decl.name
    if decl.name == "init" then modify fun s => { s with userInit := some routine }
    declarePlain decl signature routine body

def declareMethods (expand : Expansion) (struct : Nat) : List Function → Compile Unit
  | [] => pure ()
  | decl :: rest => do
    let signature ← signatureOf expand decl true
    let id ← registerFunction ⟨signature, decl, .inline⟩
    modify fun s =>
      { s with
        structs := s.structs.modify struct fun d =>
          { d with methods := Ordered.put decl.name id d.methods } }
    declareMethods expand struct rest

def declareStruct (expand : Expansion) (name : String) (fields : List (String × Ident))
    (methods : List Function) (span : Span) : Compile Unit := do
  let fields ← fields.mapM fun (field, type) => do return (field, ← resolveKind type)
  let id ← modifyGet fun s => (s.structs.size, { s with structs := s.structs.push { name, fields } })
  declare name (.structType id name) span false
  declareMethods expand id methods

end Compile

namespace Syntax

open Compile

mutual

def Stmt.compile (expand : Expansion) : Stmt → Compile Unit
  | .expr value span => atLocation span (discard (value.compile expand))
  | .assign target value span => atLocation span do
    let value ← value.compile expand
    let (var, path) ← targetPath expand target
    Compile.assign var path value span
  | .update target op value span => atLocation span (updatePlace expand target op value span)
  | .destructure names value span => atLocation span do
    let items ← itemsFor names.length value.span (← value.compile expand)
    (names.zip items).forM fun (name, item) => Compile.assign name.name [] item span
  | .const name value span => atLocation span do
    let value ← value.compile expand
    if !value.isFullyStatic then fail (.notStatic "A constant") span
    declare name value span true
  | .branch cond onTrue none span => atLocation span do
    let decision ← Compile.decide expand cond
    Compile.branch decision (fun kind => Block.compile expand kind onTrue) (fun _ => pure ()) false
  | .branch cond onTrue (some onFalse) span => atLocation span do
    let decision ← Compile.decide expand cond
    Compile.branch decision (fun kind => Block.compile expand kind onTrue)
      (fun kind => Block.compile expand kind onFalse) true
  | .repeatWhile cond body span => atLocation span do
    Compile.loop expand cond (Block.compile expand .loop body) span
  | .forEach var items ⟨stmts, bodySpan⟩ span => atLocation span do
    let values ← itemsOf items.span (← items.compile expand)
    values.forM fun item => inFrame .loop bodySpan do
      declare var.name item var.span false
      Stmt.compileAll expand stmts
  | .block body span => atLocation span (Block.compile expand .block body)
  | .function ⟨name, isInline, receiver, params, result, ⟨stmts, bodySpan⟩, declSpan⟩ span =>
    atLocation span do
      declareFunction expand ⟨name, isInline, receiver, params, result, ⟨stmts, bodySpan⟩, declSpan⟩
        (Stmt.compileAll expand stmts)
  | .struct name fields methods _ span => atLocation span (declareStruct expand name fields methods span)
  | .return none span => atLocation span (returnValue .null span)
  | .return (some value) span => atLocation span do
    let value ← value.compile expand
    returnValue value span

def Block.compile (expand : Expansion) (kind : ScopeKind) : Block → Compile Unit
  | ⟨stmts, span⟩ => inFrame kind span (Stmt.compileAll expand stmts)

def Stmt.compileAll (expand : Expansion) : List Stmt → Compile Unit
  | [] => pure ()
  | s :: rest => do
    Stmt.compile expand s
    Stmt.compileAll expand rest

end

end Syntax

end Datapack
