import Datapack.Program.Basic

/-!
Simplification inside a routine. A guarded node without children goes; one whose only child is guarded is
merged with it; a copy of a cell onto itself goes; and an instruction that overwrites a cell goes if the
next one overwrites it too without looking at it. Nodes are swept from the first to the last, what is below
a node before the node itself, until a sweep changes nothing.
-/

namespace Datapack

namespace Node

def isRedundant (node : Node) (next : Option Node) : Bool :=
  match node.instr with
  | .guarded _ => node.children.isEmpty
  | .copyScore target source =>
    target == source || overwrittenBy target next
  | instr =>
    match instr.overwrites? with
    | some cell => overwrittenBy cell next
    | none => false
where
  overwrittenBy (cell : Cell) : Option Node → Bool
    | some next => next.instr.overwrites? == some cell && !next.instr.reads cell
    | none => false

def merge : Node → Node
  | ⟨.guarded outer, [⟨.guarded inner, children, _, _⟩], location, index⟩ =>
    ⟨.guarded (outer ++ inner), children, location, index⟩
  | node => node

inductive Rewrite
  | keep
  | replace (node : Node)
  | delete

def rewrite (node : Node) (next : Option Node) : Rewrite :=
  if node.isRedundant next then .delete
  else
    match node with
    | ⟨.guarded _, [⟨.guarded _, _, _, _⟩], _, _⟩ => .replace node.merge
    | _ => .keep

/-- Sweeps the nodes that are left behind those that were seen, of which the last comes first, and tells
whether anything changed. When a node goes, the one before it is looked at again. The bound limits the
number of calls. -/
def sweepFrom : (bound : Nat) → (seen rest : List Node) → List Node × Bool
  | 0, seen, rest => (seen.reverse ++ rest, false)
  | _ + 1, seen, [] => (seen.reverse, false)
  | bound + 1, seen, ⟨instr, children, location, index⟩ :: rest =>
    let (children, below) := sweepFrom bound [] children
    let node : Node := ⟨instr, children, location, index⟩
    match node.rewrite rest.head? with
    | .keep =>
      let (nodes, changed) := sweepFrom bound (node :: seen) rest
      (nodes, below || changed)
    | .replace node => ((sweepFrom bound seen (node :: rest)).1, true)
    | .delete => ((sweepFrom bound seen.tail (seen.take 1 ++ rest)).1, true)

def sweep (nodes : List Node) : List Node × Bool := sweepFrom (4 * sizeAll nodes) [] nodes

def sweeps : (bound : Nat) → List Node → List Node × Bool
  | 0, nodes => (nodes, false)
  | bound + 1, nodes =>
    let (nodes, changed) := sweep nodes
    if changed then ((sweeps bound nodes).1, true) else (nodes, false)

def optimize (nodes : List Node) : List Node × Bool := sweeps (sizeAll nodes + 1) nodes

end Node

def Routine.simplify (r : Routine) : Routine := { r with body := (Node.optimize r.body).1 }

def Routine.isSimplifiable (r : Routine) : Bool := (Node.optimize r.body).2

def Program.simplify (p : Program) : Program := { p with routines := p.routines.map (·.simplify) }

def Program.isSimplifiable (p : Program) : Bool := p.routines.any (·.isSimplifiable)

end Datapack
