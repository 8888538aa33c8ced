import Datapack.Compile.Error
import Datapack.Frames
import Datapack.Program.Draft
import Datapack.Syntax.Tree
import Datapack.Value.Storage

/-!
The state of a compilation and its brackets. A bracket opens something, runs a step and closes what it
opened, whether the step succeeds or fails.
-/

namespace Datapack

structure Environment where
  source : Source
  settings : Settings
  catalogue : Catalogue
  scopes : ScopeMap

structure StructDef where
  name : String
  fields : List (String × Kind)
  methods : List (String × Nat) := []
deriving Inhabited

/-- How a function is called: as a routine with places for its parameters and its result, or by expanding
its body. -/
inductive FunctionForm
  | plain (routine : String) (paramSlots : List Slot) (returnSlot : Slot)
  | inline
deriving Inhabited

structure FunctionDef where
  signature : Signature
  decl : Syntax.Function
  form : FunctionForm
deriving Inhabited

structure CompilerState where
  frames : Frames := .start
  draft : Draft := {}
  structs : Array StructDef := #[]
  functions : Array FunctionDef := #[]
  constants : List Int32 := []
  routineNames : List String := ["main", "init"]
  nextTemporary : Nat := 0
  nextLabel : Nat := 0
  userInit : Option String := none
  location : Span := .zero
deriving Inhabited

/-- Compilation steps. A failure keeps the state reached so far. -/
abbrev Compile := ReaderT Environment (ExceptT CompileError (StateM CompilerState))

namespace Compile

variable {α : Type}

def fail (fault : CompileFault) (span : Span) : Compile α := throw ⟨fault, span⟩

def orFail (span : Span) : Except CompileFault α → Compile α
  | .ok a => return a
  | .error fault => fail fault span

def frames : Compile Frames := return (← get).frames

def modifyFrames (f : Frames → Frames) : Compile Unit :=
  modify fun s => { s with frames := f s.frames }

def emitNode (node : Node) : Compile Unit :=
  modify fun s =>
    let location := some (node.location.getD s.location)
    { s with draft := s.draft.append { node with location } }

def emit (instr : Instr) : Compile Unit := emitNode (.leaf instr)

def absorb (e : Emission) (s : CompilerState) : CompilerState :=
  let nodes := e.instrs.toList.map fun i => { Node.leaf i with location := some s.location }
  { s with
    draft := s.draft.appendAll nodes
    nextTemporary := e.nextTemporary
    constants := e.constants.toList.foldl (fun known c => (Ordered.register c known).2) s.constants }

def emitting (op : Emit α) : Compile α :=
  modifyGet fun s =>
    let (a, e) := op.run { nextTemporary := s.nextTemporary }
    (a, absorb e s)

def tryEmitting (span : Span) (op : TryEmit α) : Compile α := do
  match ← emitting op.run with
  | .ok a => return a
  | .error error => fail (.value error) span

/-- Runs a step between two changes of the state, the second of which is made in any case. -/
def bracket (opening closing : CompilerState → CompilerState) (body : Compile α) : Compile α :=
  fun env => ExceptT.mk do
    modify opening
    let outcome ← (body env).run
    modify closing
    return outcome

def inBuffer (body : Compile Unit) : Compile (List Node) :=
  fun env => ExceptT.mk do
    modify fun s => { s with draft := s.draft.push }
    let outcome ← (body env).run
    let nodes ← modifyGet fun s =>
      let (nodes, draft) := s.draft.pop
      (nodes, { s with draft })
    return outcome.map fun _ => nodes.toList

/-- Runs a step whose nodes go to the buffer below the innermost one. -/
def inPrevious (body : Compile α) : Compile α :=
  bracket (fun s => { s with draft := s.draft.hide }) (fun s => { s with draft := s.draft.unhide }) body

def inRoutine (name : String) (span : Span) (body : Compile Unit) : Compile Unit := do
  let nodes ← inBuffer body
  modify fun s => { s with draft := s.draft.finish name nodes (some span) }

def inFrame (kind : ScopeKind) (scope : Span) (body : Compile α) : Compile α :=
  bracket
    (fun s =>
      let frames := (s.frames.push kind scope).modifyTop fun f => { f with bufferDepth := s.draft.depth }
      { s with frames })
    (fun s => { s with frames := s.frames.pop.2 })
    body

def atLocation (span : Span) (body : Compile α) : Compile α := do
  let outer := (← get).location
  bracket (fun s => { s with location := span }) (fun s => { s with location := outer }) body

/-- The first of the names `base`, `base_1`, `base_2`, … that is not used. -/
def unusedName (base : String) (used : List String) : String :=
  let others := (List.range used.length).map fun n => base ++ "_" ++ toString (n + 1)
  ((base :: others).find? (!used.contains ·)).getD base

def freshRoutineName (base : String) : Compile String :=
  modifyGet fun s =>
    let name := unusedName base s.routineNames
    (name, { s with routineNames := name :: s.routineNames })

end Compile

end Datapack
