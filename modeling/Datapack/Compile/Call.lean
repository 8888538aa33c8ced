import Datapack.Compile.Place
import Datapack.Value.Display
import Datapack.Value.Operator

/-!
Calls of built-in functions and constructors, and the distribution of arguments for all calls.
-/

namespace Datapack.Compile

def matchCall (signature : Signature) (args : List Value) (span : Span) : Compile (List Argument) :=
  match signature.matchArgs args with
  | .ok matched => return matched
  | .error error =>
    let found := String.intercalate ", " (args.map (·.kind.text))
    fail (.argument error signature.text found) span

def knownWord? : Value → Option Int32
  | .number (.static n) => some n
  | _ => none

def knownText : Option Value → String
  | some (.string (.static s)) => s
  | _ => ""

/-- A count as a word; the largest word stands for larger counts. -/
def countWord (n : Nat) : Int32 := .ofNat (min n 2147483647)

def rangeLimit : Nat := 10000

def progression? (stop step : Int) : (limit : Nat) → (start : Int) → Option (List Value)
  | limit, i =>
    if (0 < step ∧ i < stop) ∨ (step < 0 ∧ stop < i) then
      match limit with
      | 0 => none
      | limit + 1 => (progression? stop step limit (i + step)).map (.number (.static (.ofInt i)) :: ·)
    else some []

def rangeItems (first stop step : Value) : Except CompileFault Value := do
  let first := (knownWord? first).getD 0
  let (start, stop) ← match stop, knownWord? stop with
    | .null, _ => .ok (0, first)
    | _, some stop => .ok (first, stop)
    | other, none => .error (.typeMismatch .number other.kind)
  let step := (knownWord? step).getD 1
  if step = 0 then .error (.invalidArgument "`range` needs a step other than 0")
  else
    match progression? stop.toInt step.toInt rangeLimit start.toInt with
    | some items => .ok (.array items)
    | none =>
      .error (.invalidArgument
        ("`range` cannot unroll into more than " ++ toString rangeLimit ++ " elements"))

def predicate (name : String) : Compile Value :=
  emitting do
    let target ← Emit.freshCell
    Emit.instr (.storeCondition target [⟨false, .predicate name⟩])
    return .bool (.dynamic target true)

def placeText (source : Source) (offset : Nat) : String :=
  match source.position? offset with
  | some p => toString p.line ++ ":" ++ toString p.column
  | none => ""

def describeVariable (name : String) (span : Span) : Compile String := do
  let env ← read
  let fs ← frames
  match fs.find? name with
  | none => fail (.nonexistentVariable name) span
  | some (frame, var) =>
    let storage := if var.slot.isSome then "runtime" else "static"
    let mutability := if var.constant then "constant" else "mutable"
    let accesses (what : String) (all : List Access) : List String :=
      all.map fun a => what ++ " at " ++ placeText env.source a.site.start
    let recorded :=
      match (Ordered.get? var.scope env.scopes).bind (·.name? name) with
      | some declared => accesses "read" declared.reads ++ accesses "write" declared.writes
      | none => []
    let context := if fs.isDynamicBelow frame then ["accessed from a non-static context"] else []
    return String.intercalate "\n"
      ([storage ++ " " ++ mutability ++ " variable " ++ name ++ " of type " ++ var.value.kind.text,
        "declared at " ++ placeText env.source var.site.start] ++ recorded ++ context)

def printValues (values : List Value) (span : Span) : Compile Unit := do
  match ← emitting (Value.displayAll [] values).run with
  | .ok components => emit (.tellraw (Component.message (← read).settings components))
  | .error kind => fail (.invalidArgument (kind.text ++ " cannot be converted to text")) span

def runBuiltin (builtin : Builtin) (args : List Value) (span : Span) : Compile Value := do
  match builtin, args with
  | .print, values =>
    printValues values span
    return .null
  | .range, args =>
    orFail span (rangeItems (args.getD 0 .null) (args.getD 1 .null) (args.getD 2 .null))
  | .fixed, .number d :: _ => return .fixed (← emitting (toFixed d))
  | .fixed, .fixed d :: _ => return .fixed d
  | .fixed, args => fail (.typeMismatch .number (args.headD .null).kind) span
  | .int, .fixed d :: _ => return .number (← emitting (toNumber d))
  | .int, .number d :: _ => return .number d
  | .int, .bool (.static b) :: _ => return .number (.static (Word.ofBool b))
  | .int, .bool (.dynamic cell temporary) :: _ => return .number (.dynamic cell temporary)
  | .int, args => fail (.typeMismatch .fixed (args.headD .null).kind) span
  | .arrayOf, values => return .array values
  | .len, .array items :: _ => return .number (.static (countWord items.length))
  | .len, .string (.static s) :: _ => return .number (.static (countWord s.length))
  | .len, .string (.dynamic _ _) :: _ => fail (.notStatic "The string passed to `len`") span
  | .len, args => fail (.typeMismatch .array (args.headD .null).kind) span
  | .setBlock, args =>
    let block := knownText args[0]?
    if !(← read).catalogue.hasBlock block then fail (.unknownBlock block) span
    let axis (i : Nat) : Axis := .relative ((args[i]?.bind knownWord?).getD 0)
    emit (.setBlock ⟨axis 1, axis 2, axis 3⟩ block)
    return .null
  | .run, args =>
    emit (.raw (.ofList ((knownText args[0]?).toList.dropWhile (· == '/'))))
    return .null
  | .debugVariable, args => return .string (.static (← describeVariable (knownText args[0]?) span))
  | .isRaining, _ => predicate "weather/raining"
  | .isThundering, _ => predicate "weather/thundering"
  | .isFeature, args =>
    let feature := Catalogue.bareName (knownText args[0]?)
    if !(← read).catalogue.hasFeature feature then fail (.unknownFeature feature) span
    predicate ("feature/" ++ feature)

def callBuiltin (builtin : Builtin) (args : List Value) (span : Span) : Compile Value := do
  let matched ← matchCall builtin.signature args span
  runBuiltin builtin (matched.flatMap (·.values)) span

def construct (id : Nat) (args : List Value) (span : Span) : Compile Value := do
  match (← get).structs[id]? with
  | none => fail (.internal "construction of an unregistered struct") span
  | some declared =>
    let signature : Signature :=
      { name := declared.name, params := declared.fields.map fun (name, kind) => { name, kind }
        result := .struct id declared.name }
    let matched ← matchCall signature args span
    let values := matched.map fun argument => argument.values.headD .null
    return .struct id declared.name (Ordered.ofPairs ((declared.fields.map (·.1)).zip values))

end Datapack.Compile
