import Datapack.Compile.State

/-!
Places: variables and their parts. A part is reached by a path of selectors; assigning to a part rebuilds
the value around it, and writes the new part to its slot if the variable lives at one.
-/

namespace Datapack

inductive Selector
  | field (name : String)
  | element (index : Int32)
deriving Repr, DecidableEq

def position? (index : Int32) (length : Nat) : Option Nat :=
  if 0 ≤ index.toInt ∧ index.toInt.toNat < length then some index.toInt.toNat else none

def Value.select (base : Value) (selector : Selector) : Except CompileFault Value :=
  match base, selector with
  | .struct id name fields, .field field =>
    match Ordered.get? field fields with
    | some value => .ok value
    | none => .error (.unknownMember (.struct id name) field)
  | .array items, .element index =>
    match position? index items.length with
    | some position => .ok (items.getD position .null)
    | none => .error (.indexOutOfBounds index items.length)
  | base, .field field => .error (.unknownMember base.kind field)
  | base, .element _ => .error (.typeMismatch .array base.kind)

def Value.selectPath : Value → List Selector → Except CompileFault Value
  | value, [] => .ok value
  | value, selector :: rest =>
    match value.select selector with
    | .ok part => part.selectPath rest
    | .error fault => .error fault

namespace Compile

/-- The value of a variable with the part at the end of a path replaced. A part with a slot keeps its type
and is stored there; otherwise the new value is detached from other variables. -/
def replace (value : Value) (span : Span) :
    (path : List Selector) → (current : Value) → (slot : Option Slot) → Compile Value
  | [], current, some slot =>
    if current.kind.accepts value.kind then tryEmitting span (value.store slot)
    else fail (.typeMismatch current.kind value.kind) span
  | [], _, none => tryEmitting span value.detach
  | .field field :: rest, .struct id name fields, slot =>
    match Ordered.get? field fields with
    | none => fail (.unknownMember (.struct id name) field) span
    | some old => do
      let new ← replace value span rest old (slot.map (·.member field))
      return .struct id name (Ordered.put field new fields)
  | .element index :: rest, .array items, slot =>
    match position? index items.length with
    | none => fail (.indexOutOfBounds index items.length) span
    | some position => do
      let old := items.getD position .null
      let new ← replace value span rest old (slot.map (·.element position))
      return .array (items.set position new)
  | selector :: _, current, _ => do
    let _ ← orFail span (current.select selector)
    fail (.internal "selector matched on read but not on write") span

def bindNew (name : String) (var : Variable) (span : Span) : Compile Unit := do
  match (← frames).bind name var with
  | .ok frames => modifyFrames fun _ => frames
  | .error _ => fail (.alreadyDeclared name) span

def declare (name : String) (value : Value) (span : Span) (constant : Bool) : Compile Unit := do
  let frame := (← frames).top
  let env ← read
  if !constant && env.scopes.requiresStorage frame.scope name then
    let slot := frame.slotFor name
    let stored ← tryEmitting span (value.store slot)
    bindNew name ⟨stored.pinned, frame.scope, span, some slot, constant⟩ span
  else
    let held ← tryEmitting span value.detach
    bindNew name ⟨held.pinned, frame.scope, span, none, constant⟩ span

def assign (name : String) (path : List Selector) (value : Value) (span : Span) : Compile Unit := do
  match (← frames).find? name with
  | none =>
    if path.isEmpty then declare name value span false
    else fail (.nonexistentVariable name) span
  | some (frame, var) =>
    if var.constant then fail (.constWrite name) span
    if var.slot.isNone && (← frames).isDynamicBelow frame then fail (.staticWrite name) span
    let updated ← replace value span path var.value var.slot
    match (← frames).rebind name updated.pinned with
    | .ok frames => modifyFrames fun _ => frames
    | .error _ => fail (.internal "variable disappeared during assignment") span

/-- The value of a place that is about to be updated. What lives at the variable's own slot may be changed
where it is. -/
def readPlace (name : String) (path : List Selector) (span : Span) : Compile Value := do
  match (← frames).find? name with
  | none => fail (.nonexistentVariable name) span
  | some (_, var) =>
    let value ← orFail span (var.value.selectPath path)
    return if var.slot.isSome then value.inPlace else value

def readName (name : String) (span : Span) : Compile Value := do
  match (← frames).find? name with
  | some (_, var) => return var.value
  | none =>
    match Builtin.ofName? name with
    | some builtin => return .builtin builtin
    | none => fail (.nonexistentVariable name) span

def resolveKind (type : Syntax.Ident) : Compile Kind := do
  match Kind.ofName? type.name with
  | some kind => return kind
  | none =>
    match (← frames).find? type.name with
    | some (_, { value := .structType id name, .. }) => return .struct id name
    | _ => fail (.unknownType type.name) type.span

end Compile

end Datapack
