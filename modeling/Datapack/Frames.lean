import Datapack.Arena
import Datapack.Scope.Basic
import Datapack.Value.Basic

/-!
Frames: the scopes that are open while a script is compiled, with the variables bound in them. Frames are
kept in an arena and know the frame they were opened in, so that the body of an expanded function sees the
bindings of its caller.
-/

namespace Datapack

structure Variable where
  value : Value
  scope : Span
  site : Span
  slot : Option Slot
  constant : Bool
deriving Inhabited

structure Frame where
  id : Nat
  kind : ScopeKind
  parent : Option Nat
  scope : Span
  vars : List (String × Variable) := []
  returnSlot : Option Slot := none
  returnKind : Option Kind := none
  returned : Option Value := none
  bufferDepth : Nat := 0
deriving Inhabited

def Frame.slotFor (f : Frame) (name : String) : Slot := .ofVariable f.id name

inductive BindingError
  | alreadyBound
  | notBound
deriving Repr, DecidableEq

structure Frames where
  arena : Arena Frame
  current : Nat
  nextId : Nat
deriving Inhabited

namespace Frames

def start : Frames :=
  let (key, arena) := Arena.insert { id := 0, kind := .global, parent := none, scope := .zero } {}
  { arena, current := key, nextId := 1 }

def takeId (fs : Frames) : Nat × Frames := (fs.nextId, { fs with nextId := fs.nextId + 1 })

def get? (fs : Frames) (key : Nat) : Option Frame := fs.arena.get? key

def top (fs : Frames) : Frame := (fs.get? fs.current).getD default

def modify (key : Nat) (f : Frame → Frame) (fs : Frames) : Frames :=
  { fs with arena := fs.arena.modify key f }

def modifyTop (f : Frame → Frame) (fs : Frames) : Frames := fs.modify fs.current f

def push (kind : ScopeKind) (scope : Span) (fs : Frames) : Frames :=
  let (id, fs) := fs.takeId
  let (key, arena) := fs.arena.insert { id, kind, parent := some fs.current, scope }
  { fs with arena, current := key }

def pop (fs : Frames) : Option Frame × Frames :=
  match fs.top.parent with
  | none => (none, fs)
  | some parent =>
    let (frame, arena) := fs.arena.erase fs.current
    (frame, { fs with arena, current := parent })

def ancestors (fs : Frames) : List (Nat × Frame) :=
  fs.arena.chain (·.parent) fs.arena.entries.size fs.current

def find? (fs : Frames) (name : String) : Option (Nat × Variable) :=
  fs.ancestors.findSome? fun (key, frame) =>
    match Ordered.get? name frame.vars with
    | some var => some (key, var)
    | none => none

def bind (name : String) (var : Variable) (fs : Frames) : Except BindingError Frames :=
  match Ordered.get? name fs.top.vars with
  | some _ => .error .alreadyBound
  | none => .ok (fs.modifyTop fun f => { f with vars := f.vars ++ [(name, var)] })

def rebind (name : String) (value : Value) (fs : Frames) : Except BindingError Frames :=
  match fs.find? name with
  | none => .error .notBound
  | some (key, _) =>
    .ok (fs.modify key fun f => { f with vars := Ordered.modify name (fun v => { v with value }) f.vars })

def firstDynamic? (fs : Frames) (boundary : Nat) : Option Frame :=
  ((fs.ancestors.takeWhile (·.1 != boundary)).map (·.2)).find? (!·.kind.isStatic)

/-- Whether the code that is being compiled may run any number of times for one run of a given frame. -/
def isDynamicBelow (fs : Frames) (outer : Nat) : Bool := (fs.firstDynamic? outer).isSome

def enclosingFunction? (fs : Frames) : Option Nat :=
  (fs.ancestors.find? fun (_, f) => f.kind == .function || f.kind == .inlineFunction).map (·.1)

end Frames

end Datapack
