import Datapack.Compile.Stmt

/-!
Expansion of inline functions, and whole scripts. Expansions nest at most to a fixed depth, so that a
function that expands into itself is reported instead of growing for ever.
-/

namespace Datapack

namespace Compile

open Syntax

def selfName : String := "self"

def bindReceiver (decl : Function) (receiver : Option Receiver) : Compile Unit :=
  match receiver, decl.receiver with
  | some receiver, some site =>
    bindNew selfName ⟨receiver.value, decl.body.span, site, receiver.slot, false⟩ site
  | _, _ => pure ()

/-- Binds the parameters of an expanded function. An argument gets a slot if it is not known or if the body
writes the parameter under runtime control. -/
def bindArguments (scope : Span) : List (Param × Argument) → Compile Unit
  | [] => pure ()
  | (param, .one value) :: rest => do
    let frame := (← frames).top
    if !value.isStatic || (← read).scopes.requiresStorage scope param.name then
      let slot := frame.slotFor param.name
      let stored ← tryEmitting param.span (value.store slot)
      bindNew param.name ⟨stored.pinned, scope, param.span, some slot, false⟩ param.span
    else
      bindNew param.name ⟨value.pinned, scope, param.span, none, false⟩ param.span
    bindArguments scope rest
  | (param, .many _) :: _ => fail (.internal "inline parameters take one argument") param.span

/-- Expands a function whose body is given as a step. A receiver that the body has changed is assigned back
to its variable. -/
def expandBody (f : FunctionDef) (receiver : Option Receiver) (args : List Argument) (span : Span)
    (body : Compile Unit) : Compile Value := do
  let scope := f.decl.body.span
  let (returned, self) ← inFrame .inlineFunction scope do
    modifyFrames (·.modifyTop fun frame => { frame with returnKind := some f.signature.result })
    bindReceiver f.decl receiver
    bindArguments scope (f.decl.params.zip args)
    body
    let frame := (← frames).top
    return (frame.returned.getD .null, (Ordered.get? selfName frame.vars).map (·.value))
  match receiver, self with
  | some ⟨before, some var, _⟩, some after => if !after.same before then assign var [] after span
  | _, _ => pure ()
  return returned

def expandWithin : (budget : Nat) → Expansion
  | 0, f, _, _, span => fail (.inlineRecursion f.signature.name) span
  | budget + 1, f, receiver, args, span =>
    expandBody f receiver args span (Stmt.compileAll (expandWithin budget) f.decl.body.stmts)

def expansionDepth : Nat := 32

/-- The nodes that run first: they add the objective, fill the cells of constants, and call the routine
that the script itself declares for this. -/
def initNodes (settings : Settings) (s : CompilerState) : List Node :=
  [Node.leaf (.raw ("scoreboard objectives add " ++ settings.objective ++ " dummy"))] ++
    s.constants.map (fun c => Node.leaf (.setScore (.constant c) c)) ++
    s.userInit.toList.map fun routine => Node.leaf (.call routine)

def script (script : Script) : Compile Program := do
  inRoutine "main" script.span (Stmt.compileAll (expandWithin expansionDepth) script.stmts)
  let env ← read
  modify fun s => { s with draft := s.draft.finish "init" (initNodes env.settings s) none }
  return (← get).draft.program

end Compile

def Environment.compile (env : Environment) (script : Syntax.Script) : Except CompileError Program :=
  (((Compile.script script).run env).run.run {}).1

end Datapack
