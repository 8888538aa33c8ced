import Datapack.Program.Simplify
import Datapack.Settings

/-!
Simplification across routines. Routines that no root reaches are dropped. Then, as long as one of these
applies to a routine that is no root: calls of an empty routine are taken out; calls of a routine with one
instruction are replaced by it; and a routine that is called once, outside all conditions, takes the place
of that call. What is left is checked for calls that lead nowhere and simplified.
-/

namespace Datapack

inductive LinkError
  | missingEntry
  | danglingCall (caller callee : String)
deriving Repr, DecidableEq

def LinkError.message : LinkError → String
  | .missingEntry => "entry function `main` does not exist"
  | .danglingCall caller callee =>
    "function `" ++ caller ++ "` calls `" ++ callee ++ "`, which does not exist"

namespace Node

mutual

def withoutCalls (routine : String) : Node → Node
  | ⟨instr, children, location, index⟩ => ⟨instr, withoutCallsAll routine children, location, index⟩

def withoutCallsAll (routine : String) : List Node → List Node
  | [] => []
  | node :: rest =>
    if node.isCallOf routine then withoutCallsAll routine rest
    else withoutCalls routine node :: withoutCallsAll routine rest

end

mutual

def inlineCalls (routine : String) (body : Node) : Nat → Node → Nat × Node
  | next, ⟨.call r, children, location, index⟩ =>
    if r = routine then number next body
    else
      let (next, children) := inlineCallsAll routine body next children
      (next, ⟨.call r, children, location, index⟩)
  | next, ⟨instr, children, location, index⟩ =>
    let (next, children) := inlineCallsAll routine body next children
    (next, ⟨instr, children, location, index⟩)

def inlineCallsAll (routine : String) (body : Node) : Nat → List Node → Nat × List Node
  | next, [] => (next, [])
  | next, node :: rest =>
    let (next, node) := inlineCalls routine body next node
    let (next, rest) := inlineCallsAll routine body next rest
    (next, node :: rest)

end

def spliceCall (routine : String) (body : List Node) : List Node → List Node
  | [] => []
  | node :: rest =>
    if node.isCallOf routine then body ++ rest else node :: spliceCall routine body rest

end Node

namespace Program

/-- The names reached from pending ones through calls. The bound is the number of names that can come up. -/
def reach (p : Program) : (bound : Nat) → (pending reached : List String) → List String
  | 0, _, reached => reached
  | _, [], reached => reached
  | bound + 1, name :: pending, reached =>
    if reached.contains name then reach p bound pending reached
    else
      let called := match p.routine? name with
        | some r => r.calls
        | none => []
      reach p bound (called ++ pending) (name :: reached)

def reachable (settings : Settings) (p : Program) : List String :=
  let roots := (p.routines.map (·.name)).filter settings.isRoot
  let bound := roots.length + (p.routines.flatMap (·.calls)).length
  reach p bound roots []

def dropUnreachable (settings : Settings) (p : Program) : Program :=
  let kept := p.reachable settings
  let mark (r : Routine) : Routine := if kept.contains r.name then r else { r with dropped := true }
  { p with routines := p.routines.map mark }

def modifyFirst (name : String) (f : Routine → Routine) : List Routine → List Routine
  | [] => []
  | r :: rest => if r.name = name then f r :: rest else r :: modifyFirst name f rest

def drop (name : String) (p : Program) : Program :=
  { p with routines := modifyFirst name (fun r => { r with dropped := true }) p.routines }

inductive Step
  | removeEmpty (routine : String)
  | inlineSingle (routine : String)
  | splice (callee caller : String)
deriving Repr, DecidableEq

def callCount (p : Program) (name : String) : Nat := (p.live.flatMap (·.calls)).count name

def stepFor? (p : Program) (r : Routine) : Option Step :=
  if r.body.isEmpty then some (.removeEmpty r.name)
  else if r.calls.contains r.name then none
  else if r.body.length = 1 then some (.inlineSingle r.name)
  else if p.callCount r.name = 1 then
    match p.live.find? (fun caller => caller.body.any (·.isCallOf r.name)) with
    | some caller => some (.splice r.name caller.name)
    | none => none
  else none

def nextStep? (settings : Settings) (p : Program) : Option Step :=
  (p.live.filter fun r => !settings.isRoot r.name).findSome? (p.stepFor? ·)

def inlineInto (name : String) (body : Node) : Nat → List Routine → Nat × List Routine
  | next, [] => (next, [])
  | next, r :: rest =>
    let (next, r) :=
      if !r.dropped && r.name != name then
        let (next, nodes) := Node.inlineCallsAll name body next r.body
        (next, { r with body := nodes })
      else (next, r)
    let (next, rest) := inlineInto name body next rest
    (next, r :: rest)

def apply (p : Program) : Step → Program
  | .removeEmpty name =>
    let routines := p.routines.map fun r =>
      if r.dropped then r else { r with body := Node.withoutCallsAll name r.body }
    drop name { p with routines }
  | .inlineSingle name =>
    match p.routine? name with
    | some { body := body :: _, .. } =>
      let (nextIndex, routines) := inlineInto name body p.nextIndex p.routines
      drop name { p with routines, nextIndex }
    | _ => p
  | .splice callee caller =>
    match p.routine? callee with
    | some { body, .. } =>
      let routines := modifyFirst caller
        (fun r => { r with body := Node.spliceCall callee body r.body }) p.routines
      drop callee { p with routines }
    | none => p

def runSteps (settings : Settings) : (bound : Nat) → Program → Program
  | 0, p => p
  | bound + 1, p =>
    match p.nextStep? settings with
    | some step => runSteps settings bound (p.apply step)
    | none => p

def stepBound (p : Program) : Nat :=
  (p.routines.length + 1) * (Node.sizeAll (p.routines.flatMap (·.body)) + 1)

def dangling? (p : Program) : Option LinkError :=
  let names := p.live.map (·.name)
  p.live.findSome? fun r =>
    match r.calls.find? (fun callee => !names.contains callee) with
    | some callee => some (.danglingCall r.name callee)
    | none => none

def verify (p : Program) : Except LinkError Unit :=
  if (p.live.map (·.name)).contains "main" then
    match p.dangling? with
    | some e => .error e
    | none => .ok ()
  else .error .missingEntry

def condense (settings : Settings) (p : Program) : Except LinkError Unit × Program :=
  if (p.routine? "main").isNone then (.error .missingEntry, p)
  else
    let p := p.dropUnreachable settings
    let p := p.runSteps settings p.stepBound
    match p.verify with
    | .error e => (.error e, p)
    | .ok () => (.ok (), simplify { p with routines := p.live })

end Program

end Datapack
