import Datapack.Scope.Basic
import Datapack.Syntax.Tree

/-!
Name analysis: one walk over a script in the order of execution within each statement, which opens scopes,
declares names on their first assignment and notes every read and write with the innermost visible
declaration.
-/

namespace Datapack

open Syntax

structure NameLedger where
  scopes : ScopeMap := []
  opened : List Span := []
  errors : List ScopeError := []
deriving Inhabited

abbrev NameWalk := StateM NameLedger

namespace NameLedger

def current (l : NameLedger) : Span := l.opened.headD .zero

/-- Opens a scope, which every scope open so far has inside. -/
def enter (key : Span) (kind : ScopeKind) (l : NameLedger) : NameLedger :=
  let noted := l.opened.foldr
    (fun outer scopes => Ordered.modify outer (fun r => { r with inner := r.inner ++ [key] }) scopes) l.scopes
  { l with scopes := Ordered.put key { kind } noted, opened := key :: l.opened }

def leave (l : NameLedger) : NameLedger := { l with opened := l.opened.tail }

def declaring? (l : NameLedger) (name : String) : Option Span :=
  l.opened.find? fun key =>
    match Ordered.get? key l.scopes with
    | some r => (r.name? name).isSome
    | none => false

def declare (name : String) (site : Span) (constant : Bool) (l : NameLedger) : NameLedger :=
  let declared : DeclaredName := { name, declaration := ⟨site, l.current⟩, constant }
  { l with scopes := Ordered.modify l.current (fun r => { r with names := r.names ++ [declared] }) l.scopes }

def updateFirst (name : String) (f : DeclaredName → DeclaredName) : List DeclaredName → List DeclaredName
  | [] => []
  | d :: rest => if d.name = name then f d :: rest else d :: updateFirst name f rest

def update (key : Span) (name : String) (f : DeclaredName → DeclaredName) (l : NameLedger) : NameLedger :=
  { l with scopes := Ordered.modify key (fun r => { r with names := updateFirst name f r.names }) l.scopes }

def report (fault : ScopeFault) (site : Span) (l : NameLedger) : NameLedger :=
  { l with errors := l.errors ++ [⟨fault, site⟩] }

def noteWrite (key : Span) (name : String) (site : Span) (l : NameLedger) : NameLedger :=
  l.update key name fun d => { d with writes := d.writes ++ [⟨site, l.current⟩] }

/-- A write that declares the name if it is not visible. -/
def write (name : String) (site : Span) (constant : Bool) (l : NameLedger) : NameLedger :=
  match l.declaring? name with
  | some key => l.noteWrite key name site
  | none => l.declare name site constant

/-- A write to a part of a variable, which has to be visible. -/
def writeExisting (name : String) (site : Span) (l : NameLedger) : NameLedger :=
  match l.declaring? name with
  | some key => l.noteWrite key name site
  | none => l.report (.undeclaredWrite name) site

def read (name : String) (site : Span) (l : NameLedger) : NameLedger :=
  match l.declaring? name with
  | some key => l.update key name fun d => { d with reads := d.reads ++ [⟨site, l.current⟩] }
  | none => if predefinedNames.contains name then l else l.report (.undeclaredRead name) site

end NameLedger

mutual

def walkExpr : Expr → NameWalk Unit
  | .int _ _ | .decimal _ _ | .string _ _ | .bool _ _ | .null _ => pure ()
  | .var name span => modify (·.read name span)
  | .unary _ operand _ => walkExpr operand
  | .binary left _ right _ => do
    walkExpr left
    walkExpr right
  | .index base index _ => do
    walkExpr base
    walkExpr index
  | .member base _ _ => walkExpr base
  | .call (.member (.var name span) _ _) args _ => do
    walkExprs args
    if predefinedNames.contains name then modify (·.read name span)
    else modify (·.writeExisting name span)
  | .call callee args _ => do
    walkExprs args
    walkExpr callee
  | .array items _ => walkExprs items

def walkExprs : List Expr → NameWalk Unit
  | [] => pure ()
  | e :: rest => do
    walkExpr e
    walkExprs rest

end

def walkDefaults : List Param → NameWalk Unit
  | [] => pure ()
  | p :: rest => do
    match p.default? with
    | some value => walkExpr value
    | none => pure ()
    walkDefaults rest

def declareParams (receiver : Option Span) (params : List Param) : NameWalk Unit := do
  match receiver with
  | some site => modify (·.declare "self" site false)
  | none => pure ()
  modify fun l => params.foldl (fun l p => l.declare p.name p.span false) l

def walkAssign (target : Target) (span : Span) : NameWalk Unit :=
  match target with
  | .path var [] => modify (·.write var span false)
  | .path var _ => modify (·.writeExisting var span)
  | .element var index => do
    walkExpr index
    modify (·.writeExisting var span)

def walkUpdate (target : Target) (span : Span) : NameWalk Unit := do
  match target with
  | .element _ index => walkExpr index
  | .path _ _ => pure ()
  modify (·.writeExisting target.var span)

mutual

def walkStmt : Stmt → NameWalk Unit
  | .expr value _ => walkExpr value
  | .assign target value span => do
    walkExpr value
    walkAssign target span
  | .update target _ value span => do
    walkExpr value
    walkUpdate target span
  | .destructure names value span => do
    walkExpr value
    modify fun l => names.foldl (fun l n => l.write n.name span false) l
  | .const name value span => do
    walkExpr value
    modify (·.write name span true)
  | .branch cond onTrue none _ => do
    walkExpr cond
    walkBlock .conditional onTrue
  | .branch cond onTrue (some onFalse) _ => do
    walkExpr cond
    walkBlock .conditional onTrue
    walkBlock .conditional onFalse
  | .repeatWhile cond body _ => do
    walkExpr cond
    walkBlock .loop body
  | .forEach var items ⟨stmts, bodySpan⟩ _ => do
    walkExpr items
    modify (·.enter bodySpan .loop)
    modify (·.declare var.name var.span false)
    walkStmts stmts
    modify (·.leave)
  | .block body _ => walkBlock .block body
  | .function decl _ => do
    modify (·.write decl.name decl.span false)
    walkFunction (if decl.isInline then .inlineFunction else .function) decl
  | .struct name _ methods body span => do
    modify (·.write name span false)
    modify (·.enter body .struct)
    walkMethods methods
    modify (·.leave)
  | .return (some value) _ => walkExpr value
  | .return none _ => pure ()

def walkBlock (kind : ScopeKind) : Block → NameWalk Unit
  | ⟨stmts, span⟩ => do
    modify (·.enter span kind)
    walkStmts stmts
    modify (·.leave)

def walkFunction (kind : ScopeKind) : Function → NameWalk Unit
  | ⟨_, _, receiver, params, _, ⟨stmts, span⟩, _⟩ => do
    walkDefaults params
    modify (·.enter span kind)
    declareParams receiver params
    walkStmts stmts
    modify (·.leave)

def walkMethods : List Function → NameWalk Unit
  | [] => pure ()
  | f :: rest => do
    walkFunction .inlineFunction f
    walkMethods rest

def walkStmts : List Stmt → NameWalk Unit
  | [] => pure ()
  | s :: rest => do
    walkStmt s
    walkStmts rest

end

structure Analysis where
  scopes : ScopeMap
  errors : List ScopeError
deriving Repr

def Analysis.of (script : Script) : Analysis :=
  let walk : NameWalk Unit := do
    modify (·.enter .zero .global)
    walkStmts script.stmts
    modify (·.leave)
  let (_, ledger) := walk.run {}
  ⟨ledger.scopes, ledger.errors⟩

end Datapack
