import Datapack.Program.Command
import Datapack.Value.Operator
import Mathlib.Logic.Function.Basic

/-!
Machines that run programs. A machine has cells, a world, which is everything else that commands can read or change, and
a record of what could be seen. A program is run by its tree of nodes, where the conditions of a guarded node are tested
once, or by its lines, where every command tests all conditions around it for itself.
-/

namespace Datapack

open List

/-- What can be seen of a run. A message is recorded with everything that its text may refer to. -/
inductive Event (World : Type)
  | message (text : Json) (cells : Cell → Int32) (world : World)
  | setBlock (position : BlockPosition) (block : String)
  | raw (command : String)
  | call (routine : String)

/-- What the game does on commands that reach beyond the cells. The storage is a part of the world. -/
structure Engine (World : Type) where
  storeData : Path → String → World → World
  copyData : Path → Path → World → World
  scoreToData : Path → Int32 → Double → NumericForm → World → World
  dataToScore : Path → Double → World → Int32
  predicate : String → World → Bool
  setBlock : BlockPosition → String → World → World
  raw : String → (Cell → Int32) × World → (Cell → Int32) × World

def Engine.still : Engine Unit where
  storeData _ _ world := world
  copyData _ _ world := world
  scoreToData _ _ _ _ world := world
  dataToScore _ _ _ := 0
  predicate _ _ := false
  setBlock _ _ world := world
  raw _ state := state

structure Machine (World : Type) where
  cells : Cell → Int32
  world : World
  events : List (Event World) := []

def Machine.blank : Machine Unit := ⟨fun _ => 0, (), []⟩

variable {World : Type}

namespace Machine

def put (m : Machine World) (cell : Cell) (value : Int32) : Machine World :=
  { m with cells := Function.update m.cells cell value }

def record (m : Machine World) (event : Event World) : Machine World :=
  { m with events := m.events ++ [event] }

section

variable (m : Machine World) (cell : Cell)

include m cell

theorem put_cells (value : Int32) (other : Cell) :
    (m.put cell value).cells other = if other = cell then value else m.cells other := by
  simp [put, Function.update_apply]

@[simp] theorem put_cells_self (value : Int32) : (m.put cell value).cells cell = value := by
  simp [put]

@[simp] theorem put_world (value : Int32) : (m.put cell value).world = m.world := rfl

@[simp] theorem put_events (value : Int32) : (m.put cell value).events = m.events := rfl

@[simp] theorem put_put (a b : Int32) : (m.put cell a).put cell b = m.put cell b := by
  simp [put]

@[simp] theorem put_self : m.put cell (m.cells cell) = m := by
  simp [put]

end

theorem put_cells_of_ne (m : Machine World) {cell other : Cell} (value : Int32) (h : other ≠ cell) :
    (m.put cell value).cells other = m.cells other := by
  rw [put_cells, if_neg h]

end Machine

def ScoreOp.result (op : ScoreOp) (a b : Int32) : Int32 :=
  if op.divides ∧ b = 0 then a else op.onWords a b

namespace Engine

variable (engine : Engine World)

def passes (m : Machine World) : Test → Bool
  | .range cell min max =>
    min.all (fun low => decide (low ≤ m.cells cell)) && max.all (fun high => decide (m.cells cell ≤ high))
  | .compare a relation b => relation.holds (m.cells a) (m.cells b)
  | .predicate name => engine.predicate name m.world

def holds (m : Machine World) (c : Condition) : Bool := engine.passes m c.test != c.negate

def holdsAll (m : Machine World) (cs : List Condition) : Bool := cs.all (engine.holds m)

def step (m : Machine World) : Instr → Machine World
  | .setScore cell value => m.put cell value
  | .addScore cell value => m.put cell (m.cells cell + value)
  | .copyScore target source => m.put target (m.cells source)
  | .operate target op source => m.put target (op.result (m.cells target) (m.cells source))
  | .operateConstant target op value =>
    m.put target (op.result (m.cells target) (m.cells (.constant value)))
  | .storeCondition target conditions => m.put target (Word.ofBool (engine.holdsAll m conditions))
  | .storeData target value => { m with world := engine.storeData target value m.world }
  | .copyData target source => { m with world := engine.copyData target source m.world }
  | .scoreToData target source scale form =>
    { m with world := engine.scoreToData target (m.cells source) scale form m.world }
  | .dataToScore target source scale => m.put target (engine.dataToScore source scale m.world)
  | .tellraw text => m.record (.message text m.cells m.world)
  | .setBlock position block =>
    { m with world := engine.setBlock position block m.world }.record (.setBlock position block)
  | .raw command =>
    let (cells, world) := engine.raw command (m.cells, m.world)
    { m with cells, world }.record (.raw command)
  | .guarded _ | .call _ => m

/-- Runs one command, where calls are made in a given way. No result stands for a run without end. -/
def command (call : String → Machine World → Option (Machine World)) (m : Machine World) :
    Instr → Option (Machine World)
  | .call routine => call routine m
  | instr => some (engine.step m instr)

mutual

/-- Runs a tree of nodes. The conditions of a guarded node are tested once, and then everything below it
runs. -/
def exec (call : String → Machine World → Option (Machine World)) :
    Node → Machine World → Option (Machine World)
  | ⟨.guarded conditions, children, _, _⟩, m =>
    if engine.holdsAll m conditions then execAll call children m else some m
  | ⟨instr, _, _, _⟩, m => engine.command call m instr

def execAll (call : String → Machine World → Option (Machine World)) :
    List Node → Machine World → Option (Machine World)
  | [], m => some m
  | node :: rest, m => (exec call node m).bind (execAll call rest)

end

end Engine

/-- A command with the conditions before it, those of each guarded node around it by themselves. -/
structure Line where
  guards : List (List Condition)
  instr : Instr

namespace Node

mutual

def lines : Node → List Line
  | ⟨.guarded conditions, children, _, _⟩ =>
    (linesAll children).map fun line => { line with guards := conditions :: line.guards }
  | ⟨instr, _, _, _⟩ => [⟨[], instr⟩]

def linesAll : List Node → List Line
  | [] => []
  | node :: rest => lines node ++ linesAll rest

end

end Node

def Line.text (s : Settings) (line : Line) : String :=
  line.guards.foldr (fun conditions rest => "execute " ++ Condition.textAll s conditions ++ " run " ++ rest)
    (line.instr.command s)

namespace Engine

variable (engine : Engine World)

def execLine (call : String → Machine World → Option (Machine World)) (line : Line) (m : Machine World) :
    Option (Machine World) :=
  if line.guards.all (engine.holdsAll m) then engine.command call m line.instr else some m

def execLines (call : String → Machine World → Option (Machine World)) :
    List Line → Machine World → Option (Machine World)
  | [], m => some m
  | line :: rest, m => (execLine engine call line m).bind (execLines call rest)

end Engine

namespace Program

variable (engine : Engine World) (p : Program)

/-- Runs a routine by its nodes, with calls nested to less than a given depth. A call of a routine that does
not exist does nothing. -/
def run : (depth : Nat) → String → Machine World → Option (Machine World)
  | 0, _, _ => none
  | depth + 1, name, m =>
    match p.routine? name with
    | some r => engine.execAll (run depth) r.body m
    | none => some m

def runLines : (depth : Nat) → String → Machine World → Option (Machine World)
  | 0, _, _ => none
  | depth + 1, name, m =>
    match p.routine? name with
    | some r => engine.execLines (runLines depth) (Node.linesAll r.body) m
    | none => some m

def Ends (name : String) (m m' : Machine World) : Prop := ∃ depth, p.run engine depth name m = some m'

end Program

namespace Node

variable {motive : List Node → Prop}

@[elab_as_elim]
theorem forest_induction (nodes : List Node) (nil : motive [])
    (cons : ∀ instr children location index rest, motive children → motive rest →
      motive (⟨instr, children, location, index⟩ :: rest)) : motive nodes :=
  @Node.rec_1 (fun node => ∀ rest, motive rest → motive (node :: rest)) motive
    (fun instr children location index ih rest => cons instr children location index rest ih) nil
    (fun _ rest ihNode => ihNode rest) nodes

@[elab_as_elim]
theorem guard_induction (nodes : List Node) (nil : motive [])
    (guarded : ∀ conditions children location index rest, motive children → motive rest →
      motive (⟨.guarded conditions, children, location, index⟩ :: rest))
    (leaf : ∀ instr children location index rest, (∀ conditions, instr ≠ .guarded conditions) →
      motive rest → motive (⟨instr, children, location, index⟩ :: rest)) : motive nodes := by
  induction nodes using forest_induction with
  | nil => exact nil
  | cons instr children location index rest ih ihRest =>
    by_cases h : ∃ conditions, instr = .guarded conditions
    · obtain ⟨conditions, rfl⟩ := h
      exact guarded conditions children location index rest ih ihRest
    · exact leaf instr children location index rest (fun c hc => h ⟨c, hc⟩) ihRest

theorem lines_leaf {instr : Instr} (h : ∀ conditions, instr ≠ .guarded conditions) (children : List Node)
    (location : Option Span) (index : Option Nat) : lines ⟨instr, children, location, index⟩ = [⟨[], instr⟩] := by
  rw [lines]
  exact h

theorem commandsAll_eq_lines (s : Settings) (nodes : List Node) :
    commandsAll s nodes = (linesAll nodes).map (Line.text s) := by
  induction nodes using guard_induction with
  | nil => rfl
  | guarded conditions children location index rest ih ihRest =>
    simp only [commandsAll, linesAll, commands, lines, ih, ihRest, map_append, map_map]
    rfl
  | leaf instr children location index rest hleaf ihRest =>
    rw [commandsAll, linesAll, commands, lines_leaf hleaf, ihRest, map_append]
    · rfl
    · exact hleaf

theorem linesAll_append (nodes others : List Node) :
    linesAll (nodes ++ others) = linesAll nodes ++ linesAll others := by
  induction nodes with
  | nil => rfl
  | cons node rest ih => simp [linesAll, ih]

end Node

namespace Engine

variable (engine : Engine World) (call : String → Machine World → Option (Machine World)) {instr : Instr}
  {m m' : Machine World} {other : String → Machine World → Option (Machine World)}

theorem holdsAll_append (m : Machine World) (cs ds : List Condition) :
    engine.holdsAll m (cs ++ ds) = (engine.holdsAll m cs && engine.holdsAll m ds) := by
  simp [holdsAll]

theorem holdsAll_singleton (m : Machine World) (c : Condition) : engine.holdsAll m [c] = engine.holds m c := by
  simp [holdsAll]

theorem holdsAll_negated (m : Machine World) (c : Condition) : engine.holdsAll m [c.negated] = !engine.holds m c := by
  rw [holdsAll_singleton]
  obtain ⟨negate, test⟩ := c
  cases negate <;> simp [holds, Condition.negated]

theorem exec_guarded (conditions : List Condition) (children : List Node) (location : Option Span)
    (index : Option Nat) (m : Machine World) :
    engine.exec call ⟨.guarded conditions, children, location, index⟩ m =
      if engine.holdsAll m conditions then engine.execAll call children m else some m := by
  rw [exec]

theorem exec_leaf (h : ∀ conditions, instr ≠ .guarded conditions)
    (children : List Node) (location : Option Span) (index : Option Nat) (m : Machine World) :
    engine.exec call ⟨instr, children, location, index⟩ m = engine.command call m instr := by
  rw [exec]
  exact h

theorem execAll_append (nodes others : List Node) (m : Machine World) :
    engine.execAll call (nodes ++ others) m =
      (engine.execAll call nodes m).bind (engine.execAll call others) := by
  induction nodes generalizing m with
  | nil => rfl
  | cons node rest ih =>
    simp only [cons_append, execAll, Option.bind_assoc]
    congr 1
    funext m'
    exact ih m'

theorem execLines_append (lines others : List Line) (m : Machine World) :
    engine.execLines call (lines ++ others) m =
      (engine.execLines call lines m).bind (engine.execLines call others) := by
  induction lines generalizing m with
  | nil => rfl
  | cons line rest ih =>
    simp only [cons_append, execLines, Option.bind_assoc]
    congr 1
    funext m'
    exact ih m'

variable {engine call}

theorem command_mono
    (hcall : ∀ routine n n', instr = .call routine → call routine n = some n' → other routine n = some n')
    (h : engine.command call m instr = some m') : engine.command other m instr = some m' := by
  cases instr with
  | call routine => exact hcall routine m m' rfl h
  | _ => exact h

theorem execAll_mono (nodes : List Node)
    (hcall : ∀ routine ∈ Node.callsAll nodes, ∀ n n', call routine n = some n' → other routine n = some n')
    (h : engine.execAll call nodes m = some m') : engine.execAll other nodes m = some m' := by
  induction nodes using Node.guard_induction generalizing m m' with
  | nil => exact h
  | guarded conditions children location index rest ih ihRest =>
    simp only [Node.callsAll, Node.calls, mem_append] at hcall
    rw [execAll, exec_guarded] at h ⊢
    obtain ⟨n, hn, hrest⟩ := Option.bind_eq_some_iff.mp h
    refine Option.bind_eq_some_iff.mpr ⟨n, ?_, ihRest (fun r hr => hcall r (.inr hr)) hrest⟩
    split
    · rename_i hholds
      rw [if_pos hholds] at hn
      exact ih (fun r hr => hcall r (.inl hr)) hn
    · rename_i hholds
      rwa [if_neg hholds] at hn
  | leaf instr children location index rest hleaf ihRest =>
    simp only [Node.callsAll, mem_append] at hcall
    rw [execAll, exec_leaf _ _ hleaf] at h ⊢
    obtain ⟨n, hn, hrest⟩ := Option.bind_eq_some_iff.mp h
    refine Option.bind_eq_some_iff.mpr ⟨n, command_mono ?_ hn, ihRest (fun r hr => hcall r (.inr hr)) hrest⟩
    rintro routine n n' rfl hn
    exact hcall routine (.inl (by simp [Node.calls])) n n' hn

end Engine

namespace Program

variable {engine : Engine World} {p : Program} {name : String} {r : Routine}

theorem name_of_routine? (h : p.routine? name = some r) : r.name = name := by
  simpa using find?_some h

theorem run_succ (engine : Engine World) (p : Program) (h : p.routine? name = some r) (depth : Nat)
    (m : Machine World) : p.run engine (depth + 1) name m = engine.execAll (p.run engine depth) r.body m := by
  rw [run, h]

theorem run_mono {depth more : Nat} (hle : depth ≤ more) {m m' : Machine World}
    (h : p.run engine depth name m = some m') : p.run engine more name m = some m' := by
  induction depth generalizing more name m m' with
  | zero => simp [run] at h
  | succ depth ih =>
    obtain ⟨more, rfl⟩ : ∃ k, more = k + 1 := ⟨more - 1, by omega⟩
    rw [run] at h ⊢
    split at h
    · refine Engine.execAll_mono _ ?_ h
      intro routine _ n n' hn
      exact ih (by omega) hn
    · exact h

theorem Ends.unique {m a b : Machine World} (ha : p.Ends engine name m a) (hb : p.Ends engine name m b) : a = b := by
  obtain ⟨i, hi⟩ := ha
  obtain ⟨j, hj⟩ := hb
  have hi' := run_mono (Nat.le_max_left i j) hi
  have hj' := run_mono (Nat.le_max_right i j) hj
  rw [hi'] at hj'
  exact Option.some.inj hj'

end Program

end Datapack
