import Datapack.Ordered
import Datapack.Program.Basic
import Datapack.Settings

/-!
Command texts. Every instruction that is not guarded is one command; below guarded nodes a command is
preceded by the conditions, the outermost first.
-/

namespace Datapack

/-- The sign of a relation in commands, and whether the condition has to be turned round: there is no sign
for inequality. -/
def Relation.sign : Relation → String × Bool
  | .equal => ("=", false)
  | .notEqual => ("=", true)
  | .less => ("<", false)
  | .lessEqual => ("<=", false)
  | .greater => (">", false)
  | .greaterEqual => (">=", false)

/-- The text of a range. A range open on both sides starts at the least word. -/
def rangeText : Option Int32 → Option Int32 → String
  | some a, some b => if a = b then Word.text a else Word.text a ++ ".." ++ Word.text b
  | some a, none => Word.text a ++ ".."
  | none, some b => ".." ++ Word.text b
  | none, none => Word.text Int32.minValue ++ ".."

def Settings.storageName (s : Settings) : String := s.namespaceName ++ ":" ++ s.storage

def Settings.score (s : Settings) (cell : Cell) : String := cell.name ++ " " ++ s.objective

def Condition.text (s : Settings) (c : Condition) : String :=
  let (test, invert) := match c.test with
    | .range cell min max => ("score " ++ s.score cell ++ " matches " ++ rangeText min max, false)
    | .compare a relation b =>
      let (sign, invert) := relation.sign
      ("score " ++ s.score a ++ " " ++ sign ++ " " ++ s.score b, invert)
    | .predicate name => ("predicate " ++ s.namespaceName ++ ":" ++ name, false)
  (if c.negate != invert then "unless " else "if ") ++ test

def Condition.textAll (s : Settings) (cs : List Condition) : String :=
  String.intercalate " " (cs.map (text s))

def NumericForm.text : NumericForm → String
  | .int => "int"
  | .double => "double"

def Instr.command (s : Settings) : Instr → String
  | .setScore cell value => "scoreboard players set " ++ s.score cell ++ " " ++ Word.text value
  | .addScore cell value =>
    if value < 0 then "scoreboard players remove " ++ s.score cell ++ " " ++ Word.distanceText value
    else "scoreboard players add " ++ s.score cell ++ " " ++ Word.text value
  | .copyScore target source =>
    "scoreboard players operation " ++ s.score target ++ " = " ++ s.score source
  | .operate target op source =>
    "scoreboard players operation " ++ s.score target ++ " " ++ op.symbol ++ " " ++ s.score source
  | .operateConstant target op value =>
    "scoreboard players operation " ++ s.score target ++ " " ++ op.symbol ++ " " ++
      s.score (.constant value)
  | .storeCondition target conditions =>
    "execute store success score " ++ s.score target ++ " " ++ Condition.textAll s conditions
  | .guarded conditions => Condition.textAll s conditions
  | .call routine => "function " ++ s.namespaceName ++ ":" ++ routine
  | .storeData target value =>
    "data modify storage " ++ s.storageName ++ " " ++ target.name ++ " set value " ++ value
  | .copyData target source =>
    "data modify storage " ++ s.storageName ++ " " ++ target.name ++ " set from storage " ++
      s.storageName ++ " " ++ source.name
  | .scoreToData target source scale form =>
    "execute store result storage " ++ s.storageName ++ " " ++ target.name ++ " " ++ form.text ++ " " ++
      scale.text ++ " run scoreboard players get " ++ s.score source
  | .dataToScore target source scale =>
    "execute store result score " ++ s.score target ++ " run data get storage " ++ s.storageName ++ " " ++
      source.name ++ " " ++ scale.text
  | .tellraw text => "tellraw @a " ++ text.sorted.compact
  | .setBlock position block =>
    "setblock " ++ position.text ++ " " ++
      (if block.toList.contains ':' then block else "minecraft:" ++ block)
  | .raw command => command

namespace Node

mutual

def commands (s : Settings) : Node → List String
  | ⟨.guarded conditions, children, _, _⟩ =>
    let opening := "execute " ++ Condition.textAll s conditions ++ " run "
    (commandsAll s children).map (opening ++ ·)
  | ⟨instr, _, _, _⟩ => [instr.command s]

def commandsAll (s : Settings) : List Node → List String
  | [] => []
  | node :: rest => commands s node ++ commandsAll s rest

end

end Node

def Routine.text (s : Settings) (r : Routine) : String :=
  String.intercalate "\n" (Node.commandsAll s r.body)

def Program.texts (s : Settings) (p : Program) : List (String × String) :=
  Ordered.ofPairs (p.routines.map fun r => (r.name, r.text s))

end Datapack
