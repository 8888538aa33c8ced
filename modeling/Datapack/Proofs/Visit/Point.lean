import Datapack.Proofs.Visit.State

/-!
The points of a compilation: what is compiled next, and the state in which this happens. One point leads to another if
compiling what stands at the first comes, after some steps that succeed, to what stands at the second.
-/

namespace Datapack

open Syntax

namespace Compile

/-- Opens the body of an expanded function: what it returns is checked, and its receiver and parameters are bound. -/
def enterExpanded (f : FunctionDef) (receiver : Option Receiver) (args : List Argument) : Compile Unit := do
  modifyFrames (·.modifyTop fun frame => { frame with returnKind := some f.signature.result })
  bindReceiver f.decl receiver
  bindArguments f.decl.body.span (f.decl.params.zip args)

/-- Compiles the body of an expanded function. Gives what it returns and what it leaves of its receiver. -/
def inExpansion (f : FunctionDef) (receiver : Option Receiver) (args : List Argument) (body : Compile Unit) :
    Compile (Value × Option Value) :=
  inFrame .inlineFunction f.decl.body.span do
    enterExpanded f receiver args
    body
    let frame := (← frames).top
    return (frame.returned.getD .null, (Ordered.get? selfName frame.vars).map (·.value))

/-- Registers a plain function and binds its name. Gives its signature, its routine and the number of its frame. -/
def registerPlain (expand : Expansion) (decl : Function) : Compile (Signature × String × Nat) := do
  let signature ← signatureOf expand decl false
  let routine ← freshRoutineName decl.name
  if decl.name == "init" then modify fun s => { s with userInit := some routine }
  let frameId ← modifyGet fun s => (s.frames.takeId.1, { s with frames := s.frames.takeId.2 })
  let paramSlots := signature.params.map fun p => Slot.ofVariable frameId p.name
  let id ← registerFunction ⟨signature, decl, .plain routine paramSlots (Slot.ofVariable frameId returnName)⟩
  declare decl.name (.function id) decl.span false
  return (signature, routine, frameId)

/-- Opens the body of a plain function: its result has a slot and its parameters are bound at theirs. -/
def enterPlain (decl : Function) (signature : Signature) (frameId : Nat) : Compile Unit := do
  modifyFrames (·.modifyTop fun f =>
    { f with returnSlot := some (Slot.ofVariable frameId returnName), returnKind := some signature.result })
  bindParams decl.body.span (decl.params.zip
    ((signature.params.map fun p => Slot.ofVariable frameId p.name).zip signature.params))

def registerStruct (name : String) (fields : List (String × Ident)) (span : Span) : Compile Nat := do
  let fields ← fields.mapM fun (field, type) => do return (field, ← resolveKind type)
  let id ← modifyGet fun s => (s.structs.size, { s with structs := s.structs.push { name, fields } })
  declare name (.structType id name) span false
  return id

def loopRoutine : Compile String := do
  let label := (← get).nextLabel
  let routine ← freshRoutineName ("while_" ++ toString label)
  modify fun s => { s with nextLabel := label + 1 }
  return routine

def iteration (expand : Expansion) (var : Ident) (stmts : List Stmt) (scope : Span) (item : Value) : Compile Unit :=
  inFrame .loop scope do
    declare var.name item var.span false
    Stmt.compileAll expand stmts

theorem expandBody_eq (f : FunctionDef) (receiver : Option Receiver) (args : List Argument) (span : Span)
    (body : Compile Unit) : expandBody f receiver args span body = (do
      let (returned, self) ← inExpansion f receiver args body
      match receiver, self with
      | some ⟨before, some var, _⟩, some after => if !after.same before then assign var [] after span
      | _, _ => pure ()
      return returned) := by
  have hinside : inExpansion f receiver args body = inFrame .inlineFunction f.decl.body.span (do
      modifyFrames (·.modifyTop fun frame => { frame with returnKind := some f.signature.result })
      bindReceiver f.decl receiver
      bindArguments f.decl.body.span (f.decl.params.zip args)
      body
      let frame := (← frames).top
      return (frame.returned.getD .null, (Ordered.get? selfName frame.vars).map (·.value))) := by
    simp only [inExpansion, enterExpanded, bind_assoc]
  rw [hinside]
  rfl

theorem declareFunction_plain {expand : Expansion} {decl : Function} (h : decl.isInline = false) (body : Compile Unit) :
    declareFunction expand decl body = (do
      let (signature, routine, frameId) ← registerPlain expand decl
      inRoutine routine decl.span (inFrame .function decl.body.span do
        enterPlain decl signature frameId
        body)) := by
  simp only [declareFunction, h, declarePlain, registerPlain, enterPlain, bind_assoc, Bool.false_eq_true, if_false]
  congr 1
  funext signature
  congr 1
  funext routine
  cases decl.name == "init" <;> simp only [Bool.false_eq_true, if_false, if_true, bind_assoc, pure_bind]

theorem declareStruct_eq (expand : Expansion) (name : String) (fields : List (String × Ident)) (methods : List Function)
    (span : Span) : declareStruct expand name fields methods span = (do
      let id ← registerStruct name fields span
      declareMethods expand id methods) := by
  simp only [declareStruct, registerStruct, bind_assoc, pure_bind]

theorem loop_eq (expand : Expansion) (cond : Expr) (body : Compile Unit) (span : Span) :
    loop expand cond body span = (do
      let routine ← loopRoutine
      inRoutine routine span do
        if ← inPrevious (callIf expand cond routine) then
          body
          let _ ← callIf expand cond routine) := by
  simp only [loop, loopRoutine, bind_assoc, pure_bind]

end Compile

/-- How a name is used: read, read as the receiver of a method call and assigned back to, assigned to as a whole, or
assigned to in part. -/
inductive NameUse
  | read | receiver | assignBack | assign | part
deriving Repr, DecidableEq

def NameUse.isWrite : NameUse → Bool
  | .read | .receiver => false
  | .assignBack | .assign | .part => true

/-- What is compiled at a point: a part of the script, a call of a declared function with its arguments, or a use of a
name, known by the place where it is noted. -/
inductive Piece
  | expr (e : Expr)
  | exprs (es : List Expr)
  | stmt (stmt : Stmt)
  | stmts (stmts : List Stmt)
  | block (kind : ScopeKind) (block : Block)
  | call (id : Nat) (receiver : Option Receiver) (site : Span) (args : List Value) (span : Span)
  | name (use : NameUse) (name : String) (site : Span)

/-- A point of a compilation. Expansions may nest as deep as its budget allows. -/
structure Point where
  budget : Nat
  piece : Piece
  state : CompilerState

namespace Point

open Compile

variable (env : Environment)

inductive LeadsExpr (b : Nat) (s : CompilerState) : Expr → Point → Prop
  | var {name site} : LeadsExpr b s (.var name site) ⟨b, .name .read name site, s⟩
  | operand {op operand span} : LeadsExpr b s (.unary op operand span) ⟨b, .expr operand, s⟩
  | left {left op right span} : LeadsExpr b s (.binary left op right span) ⟨b, .expr left, s⟩
  | right {left op right span v s1} : (left.compile (expandWithin b)).Yields env s v s1 →
      LeadsExpr b s (.binary left op right span) ⟨b, .expr right, s1⟩
  | base {base subscript span} : LeadsExpr b s (.index base subscript span) ⟨b, .expr base, s⟩
  | subscript {base subscript span v s1} : (base.compile (expandWithin b)).Yields env s v s1 →
      LeadsExpr b s (.index base subscript span) ⟨b, .expr subscript, s1⟩
  | whole {base name span s1} : (blockId? base name span).Yields env s none s1 →
      LeadsExpr b s (.member base name span) ⟨b, .expr base, s1⟩
  | receiver {name site member memberSpan args span} :
      LeadsExpr b s (.call (.member (.var name site) member memberSpan) args span) ⟨b, .name .receiver name site, s⟩
  | object {object member memberSpan args span} : (∀ name site, object ≠ .var name site) →
      LeadsExpr b s (.call (.member object member memberSpan) args span) ⟨b, .expr object, s⟩
  | memberArgs {object member memberSpan args span v s1} : (object.compile (expandWithin b)).Yields env s v s1 →
      LeadsExpr b s (.call (.member object member memberSpan) args span) ⟨b, .exprs args, s1⟩
  | method {object member memberSpan args span v id receiver vs s1 s2} :
      (object.compile (expandWithin b)).Yields env s v s1 → (method? v member).Yields env s1 (some id) s1 →
        (receiverOf object v).Yields env s1 receiver s1 →
          (Expr.compileAll (expandWithin b) args).Yields env s1 vs s2 →
            LeadsExpr b s (.call (.member object member memberSpan) args span)
              ⟨b, .call id (some receiver) object.span vs span, s2⟩
  | memberCall {object member memberSpan args span v id vs s1 s2} :
      (object.compile (expandWithin b)).Yields env s v s1 → (method? v member).Yields env s1 none s1 →
        v.select (.field member) = .ok (.function id) →
          (Expr.compileAll (expandWithin b) args).Yields env s1 vs s2 →
            LeadsExpr b s (.call (.member object member memberSpan) args span) ⟨b, .call id none object.span vs span, s2⟩
  | callee {callee args span} : (∀ object member memberSpan, callee ≠ .member object member memberSpan) →
      LeadsExpr b s (.call callee args span) ⟨b, .expr callee, s⟩
  | args {callee args span v s1} : (∀ object member memberSpan, callee ≠ .member object member memberSpan) →
      (callee.compile (expandWithin b)).Yields env s v s1 → LeadsExpr b s (.call callee args span) ⟨b, .exprs args, s1⟩
  | call {callee args span id vs s1 s2} : (∀ object member memberSpan, callee ≠ .member object member memberSpan) →
      (callee.compile (expandWithin b)).Yields env s (.function id) s1 →
        (Expr.compileAll (expandWithin b) args).Yields env s1 vs s2 →
          LeadsExpr b s (.call callee args span) ⟨b, .call id none callee.span vs span, s2⟩
  | items {items span} : LeadsExpr b s (.array items span) ⟨b, .exprs items, s⟩

inductive LeadsStmt (b : Nat) (s : CompilerState) : Stmt → Point → Prop
  | expr {value span} : LeadsStmt b s (.expr value span) ⟨b, .expr value, s⟩
  | assignValue {target value span} : LeadsStmt b s (.assign target value span) ⟨b, .expr value, s⟩
  | assignIndex {var index value span v s1} : (value.compile (expandWithin b)).Yields env s v s1 →
      LeadsStmt b s (.assign (.element var index) value span) ⟨b, .expr index, s1⟩
  | assign {target value span v var path s1 s2} : (value.compile (expandWithin b)).Yields env s v s1 →
      (targetPath (expandWithin b) target).Yields env s1 (var, path) s2 →
        LeadsStmt b s (.assign target value span) ⟨b, .name (if target.isPlain then .assign else .part) var span, s2⟩
  | updateIndex {var index op value span} :
      LeadsStmt b s (.update (.element var index) op value span) ⟨b, .expr index, s⟩
  | updateFrom {target op value span var path s1} :
      (targetPath (expandWithin b) target).Yields env s (var, path) s1 →
        LeadsStmt b s (.update target op value span) ⟨b, .name .part var span, s1⟩
  | updateValue {target op value span place s1} : (targetPath (expandWithin b) target).Yields env s place s1 →
      LeadsStmt b s (.update target op value span) ⟨b, .expr value, s1⟩
  | update {target op value span var path current operand result s1 s2 s3} :
      (targetPath (expandWithin b) target).Yields env s (var, path) s1 →
        (readPlace var path span).Yields env s1 current s1 →
          (value.compile (expandWithin b)).Yields env s1 operand s2 →
            (tryEmitting span (current.binary op operand)).Yields env s2 result s3 →
              LeadsStmt b s (.update target op value span) ⟨b, .name .part var span, s3⟩
  | destructureValue {names value span} : LeadsStmt b s (.destructure names value span) ⟨b, .expr value, s⟩
  | destructure {names value span v items before name item after s1 s2} :
      (value.compile (expandWithin b)).Yields env s v s1 →
        (itemsFor names.length value.span v).Yields env s1 items s1 →
          names.zip items = before ++ (name, item) :: after →
            (before.forM fun (name, item) => Compile.assign name.name [] item span).Yields env s1 () s2 →
              LeadsStmt b s (.destructure names value span) ⟨b, .name .assign name.name span, s2⟩
  | const {name value span} : LeadsStmt b s (.const name value span) ⟨b, .expr value, s⟩
  | cond {cond onTrue onFalse span} : LeadsStmt b s (.branch cond onTrue onFalse span) ⟨b, .expr cond, s⟩
  | chosenTrue {cond onTrue onFalse span s1} : (Compile.decide (expandWithin b) cond).Yields env s (.known true) s1 →
      LeadsStmt b s (.branch cond onTrue onFalse span) ⟨b, .block .block onTrue, s1⟩
  | chosenFalse {cond onTrue onFalse span s1} : (Compile.decide (expandWithin b) cond).Yields env s (.known false) s1 →
      LeadsStmt b s (.branch cond onTrue (some onFalse) span) ⟨b, .block .block onFalse, s1⟩
  | onTrue {cond onTrue onFalse span condition ownCell stable s1 s2} :
      (Compile.decide (expandWithin b) cond).Yields env s (.tested condition ownCell) s1 →
        (stableCondition condition ownCell).Yields env s1 stable s2 →
          LeadsStmt b s (.branch cond onTrue onFalse span)
            ⟨b, .block .conditional onTrue, { s2 with draft := s2.draft.push }⟩
  | onFalse {cond onTrue onFalse span condition ownCell stable s1 s2 s3} :
      (Compile.decide (expandWithin b) cond).Yields env s (.tested condition ownCell) s1 →
        (stableCondition condition ownCell).Yields env s1 stable s2 →
          (emitGuarded stable (Block.compile (expandWithin b) .conditional onTrue)).Yields env s2 () s3 →
            LeadsStmt b s (.branch cond onTrue (some onFalse) span)
              ⟨b, .block .conditional onFalse, { s3 with draft := s3.draft.push }⟩
  | firstCheck {cond body span routine s1} : loopRoutine.Yields env s routine s1 →
      LeadsStmt b s (.repeatWhile cond body span) ⟨b, .expr cond, { s1 with draft := s1.draft.push.hide }⟩
  | loopBody {cond body span routine s1 s2} : loopRoutine.Yields env s routine s1 →
      (inPrevious (callIf (expandWithin b) cond routine)).Yields env { s1 with draft := s1.draft.push } true s2 →
        LeadsStmt b s (.repeatWhile cond body span) ⟨b, .block .loop body, s2⟩
  | nextCheck {cond body span routine s1 s2 s3} : loopRoutine.Yields env s routine s1 →
      (inPrevious (callIf (expandWithin b) cond routine)).Yields env { s1 with draft := s1.draft.push } true s2 →
        (Block.compile (expandWithin b) .loop body).Yields env s2 () s3 →
          LeadsStmt b s (.repeatWhile cond body span) ⟨b, .expr cond, s3⟩
  | items {var items body span} : LeadsStmt b s (.forEach var items body span) ⟨b, .expr items, s⟩
  | iteration {var items stmts scope span v before item after s1 s2 s3} :
      (items.compile (expandWithin b)).Yields env s v s1 →
        (itemsOf items.span v).Yields env s1 (before ++ item :: after) s1 →
          (before.forM (Compile.iteration (expandWithin b) var stmts scope)).Yields env s1 () s2 →
            (declare var.name item var.span false).Yields env (opened .loop scope s2) () s3 →
              LeadsStmt b s (.forEach var items ⟨stmts, scope⟩ span) ⟨b, .stmts stmts, s3⟩
  | block {body span} : LeadsStmt b s (.block body span) ⟨b, .block .block body, s⟩
  | default {decl span before param after value params s1} : decl.params = before ++ param :: after →
      (before.mapM (parameterOf (expandWithin b) decl.isInline)).Yields env s params s1 →
        param.default? = some value → LeadsStmt b s (.function decl span) ⟨b, .expr value, s1⟩
  | body {decl span signature routine frameId s1 s2} : decl.isInline = false →
      (registerPlain (expandWithin b) decl).Yields env s (signature, routine, frameId) s1 →
        (enterPlain decl signature frameId).Yields env
            (opened .function decl.body.span { s1 with draft := s1.draft.push }) () s2 →
          LeadsStmt b s (.function decl span) ⟨b, .stmts decl.body.stmts, s2⟩
  | methodDefault {name fields methods body span id earlier decl later before param after value params s1 s2 s3} :
      (registerStruct name fields span).Yields env s id s1 → methods = earlier ++ decl :: later →
        (declareMethods (expandWithin b) id earlier).Yields env s1 () s2 → decl.params = before ++ param :: after →
          (before.mapM (parameterOf (expandWithin b) true)).Yields env s2 params s3 →
            param.default? = some value → LeadsStmt b s (.struct name fields methods body span) ⟨b, .expr value, s3⟩
  | return {value span} : LeadsStmt b s (.return (some value) span) ⟨b, .expr value, s⟩

inductive Leads : Point → Point → Prop
  | expr {b s e p} : LeadsExpr env b s e p → Leads ⟨b, .expr e, s⟩ p
  | first {b s e rest} : Leads ⟨b, .exprs (e :: rest), s⟩ ⟨b, .expr e, s⟩
  | rest {b s e rest v s1} : (Expr.compile (expandWithin b) e).Yields env s v s1 →
      Leads ⟨b, .exprs (e :: rest), s⟩ ⟨b, .exprs rest, s1⟩
  | stmt {b s stmt p} : LeadsStmt env b { s with location := stmt.span } stmt p → Leads ⟨b, .stmt stmt, s⟩ p
  | head {b s stmt rest} : Leads ⟨b, .stmts (stmt :: rest), s⟩ ⟨b, .stmt stmt, s⟩
  | tail {b s stmt rest s1} : (Stmt.compile (expandWithin b) stmt).Yields env s () s1 →
      Leads ⟨b, .stmts (stmt :: rest), s⟩ ⟨b, .stmts rest, s1⟩
  | block {b s kind stmts scope} : Leads ⟨b, .block kind ⟨stmts, scope⟩, s⟩ ⟨b, .stmts stmts, opened kind scope s⟩
  | expansion {b s id receiver site args span f matched s1} : s.functions[id]? = some f → f.form = .inline →
      f.signature.matchArgs args = .ok matched →
        (enterExpanded f receiver matched).Yields env (opened .inlineFunction f.decl.body.span s) () s1 →
          Leads ⟨b + 1, .call id receiver site args span, s⟩ ⟨b, .stmts f.decl.body.stmts, s1⟩
  | assignBack {b s id before var slot site args span f matched self s1 s2} : s.functions[id]? = some f →
      f.form = .inline → f.signature.matchArgs args = .ok matched →
        (enterExpanded f (some ⟨before, some var, slot⟩) matched).Yields env
            (opened .inlineFunction f.decl.body.span s) () s1 →
          (Stmt.compileAll (expandWithin b) f.decl.body.stmts).Yields env s1 () s2 →
            Ordered.get? selfName s2.frames.top.vars = some self → self.value.same before = false →
              Leads ⟨b + 1, .call id (some ⟨before, some var, slot⟩) site args span, s⟩
                ⟨b + 1, .name .assignBack var site, { s2 with frames := s2.frames.pop.2 }⟩

def Reaches : Point → Point → Prop := Relation.ReflTransGen (Leads env)

def Stuck (p : Point) : Prop :=
  ∃ b use name site s, p.Reaches env ⟨b, .name use name site, s⟩ ∧ use.isWrite = true ∧ s.Refuses name

variable {env}

theorem Stuck.step {p q : Point} (h : Leads env p q) (hq : q.Stuck env) : p.Stuck env := by
  obtain ⟨b, use, name, site, s, hreaches, huse⟩ := hq
  exact ⟨b, use, name, site, s, .head h hreaches, huse⟩

end Point

def Syntax.Script.start (script : Script) : Point := ⟨Compile.expansionDepth, .stmts script.stmts, .start⟩

end Datapack
