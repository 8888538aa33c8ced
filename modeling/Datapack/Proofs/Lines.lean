import Datapack.Proofs.Reference.Stmt
import Datapack.Proofs.Reference.Program

/-!
The lines of a pack. Names of a script, settings and a catalogue without line feeds give commands without line feeds,
so a command is one line, with the conditions that it stands under before it. Only a raw command may be several lines,
and then all but the first stand under no condition.
-/

namespace Datapack

open Syntax List

variable {a b : String} {env : Environment} {s : Settings}

namespace OneLine

theorem ofList_iff {cs : List Char} : OneLine (String.ofList cs) ↔ '\n' ∉ cs := by
  rw [OneLine, String.toList_ofList]

theorem intercalate {separator : String} {parts : List String} (hseparator : OneLine separator)
    (hparts : ∀ part ∈ parts, OneLine part) : OneLine (String.intercalate separator parts) := by
  rw [OneLine, String.toList_intercalate]
  induction parts with
  | nil => simp
  | cons first rest ih =>
    obtain ⟨hfirst, hrest⟩ := forall_mem_cons.mp hparts
    cases rest with
    | nil =>
      rw [map_singleton, intercalate_singleton]
      exact hfirst
    | cons second rest =>
      rw [map_cons, map_cons, intercalate_cons_cons, mem_append, mem_append]
      rintro ((h | h) | h)
      · exact hfirst h
      · exact hseparator h
      · exact ih hrest h

theorem toString_int (n : Int) : OneLine (toString n) := by
  cases n with
  | ofNat n => exact toString_nat n
  | negSucc n => exact append (a := "-") (by decide) (toString_nat (n + 1))

theorem not_mem_toDigits (n : Nat) : '\n' ∉ Nat.toDigits 10 n := fun h =>
  absurd (Nat.isDigit_of_mem_toDigits (by omega) (by omega) h) (by decide)

theorem positional (digits : Nat) (power : Int) : OneLine (Double.positional digits power) := by
  have hdigits := not_mem_toDigits digits
  unfold Double.positional
  dsimp only
  split
  · rw [ofList_iff, mem_append]
    exact fun h => h.elim hdigits fun h => absurd (eq_of_mem_replicate h) (by decide)
  · split
    · rw [ofList_iff]
      simp only [mem_append, mem_cons]
      rintro (h | h | h)
      · exact hdigits (mem_of_mem_take h)
      · exact absurd h (by decide)
      · exact hdigits (mem_of_mem_drop h)
    · rw [ofList_iff]
      simp only [mem_append, mem_cons]
      rintro (h | h | h | h)
      · exact absurd h (by decide)
      · exact absurd h (by decide)
      · exact absurd (eq_of_mem_replicate h) (by decide)
      · exact hdigits h

theorem ite {c : Prop} [Decidable c] (ha : OneLine a) (hb : OneLine b) : OneLine (if c then a else b) := by
  split
  · exact ha
  · exact hb

theorem double (x : Double) : OneLine x.text := by
  refine append (ite (by decide) (by decide)) (ite (by decide) ?_)
  exact positional _ _

theorem doubleText (x : Double) : OneLine (Json.doubleText x) := by
  unfold Json.doubleText
  generalize x.shortest .even = shortest
  obtain ⟨digits, power⟩ := shortest
  refine append (ite (by decide) (by decide)) ?_
  refine ite (by decide) (ite (append (positional _ _) (by decide)) (ite (positional _ _) ?_))
  refine append (append ?_ (ite (by decide) (by decide))) (toString_int _)
  have hdigits := not_mem_toDigits digits
  rw [ofList_iff, mem_append]
  rintro (h | h)
  · exact hdigits (mem_of_mem_take h)
  · split at h
    · cases h
    · obtain h | h := mem_cons.mp h
      · exact absurd h (by decide)
      · exact hdigits (mem_of_mem_drop h)

theorem word (a : Int32) : OneLine (Word.text a) := toString_int _

theorem rangeText (min max : Option Int32) : OneLine (Datapack.rangeText min max) := by
  unfold Datapack.rangeText
  split
  · exact ite (word _) (append (append (word _) (by decide)) (word _))
  · exact append (word _) (by decide)
  · exact append (by decide) (word _)
  · exact append (word _) (by decide)

end OneLine

namespace Json

mutual

theorem oneLine_compact : ∀ json : Json, OneLine json.compact
  | .null => by decide
  | .bool true => by decide
  | .bool false => by decide
  | .number (.int n) => .toString_int n
  | .number (.real x) => .doubleText x
  | .string s => oneLine_quote s
  | .array items => .append (.append (by decide) (.intercalate (by decide) (oneLine_compactItems items))) (by decide)
  | .object members =>
    .append (.append (by decide) (.intercalate (by decide) (oneLine_compactMembers members))) (by decide)

theorem oneLine_compactItems : ∀ items : List Json, ∀ text ∈ compactItems items, OneLine text
  | [] => nofun
  | item :: rest => forall_mem_cons.mpr ⟨oneLine_compact item, oneLine_compactItems rest⟩

theorem oneLine_compactMembers : ∀ members : List (String × Json), ∀ text ∈ compactMembers members, OneLine text
  | [] => nofun
  | (name, value) :: rest => forall_mem_cons.mpr
      ⟨.append (.append (oneLine_quote name) (by decide)) (oneLine_compact value), oneLine_compactMembers rest⟩

end

end Json

structure Settings.OnOneLine (s : Settings) : Prop where
  namespaceName : OneLine s.namespaceName
  objective : OneLine s.objective
  storage : OneLine s.storage

structure Catalogue.OnOneLine (catalogue : Catalogue) : Prop where
  blocks : ∀ block ∈ catalogue.blocks, OneLine block
  features : ∀ feature ∈ catalogue.features, OneLine feature

/-- Whether the command of an instruction, or each condition that it puts before others, is one line. Nothing is told
of raw commands. -/
def Instr.OnOneLine (s : Settings) : Instr → Prop
  | .guarded conditions => ∀ c ∈ conditions, OneLine (c.text s)
  | .raw _ => True
  | i => OneLine (i.command s)

theorem Catalogue.oneLine_of_bareName {name : String} (h : OneLine (bareName name)) : OneLine name := by
  unfold bareName at h
  dsimp only at h
  split at h
  next hprefix =>
    obtain ⟨rest, hrest⟩ := isPrefixOf_iff_prefix.mp hprefix
    rw [← hrest, drop_left, OneLine.ofList_iff] at h
    rw [OneLine, ← hrest, mem_append]
    exact fun hmem => hmem.elim (by decide) h
  next => exact h

theorem Catalogue.OnOneLine.clean (h : env.catalogue.OnOneLine) : env.Clean True where
  block _ hname := Clean.of (oneLine_of_bareName (h.blocks _ (contains_iff_mem.mp hname)))
  feature _ hname := Clean.of (oneLine_of_bareName (h.features _ (contains_iff_mem.mp hname)))

section Commands

variable {known : List Int32}

theorem Settings.OnOneLine.score (hs : s.OnOneLine) {cell : Cell} (hcell : OneLine cell.name) : OneLine (s.score cell) :=
  .append (.append hcell (by decide)) hs.objective

theorem Settings.OnOneLine.storageName (hs : s.OnOneLine) : OneLine s.storageName :=
  .append (.append hs.namespaceName (by decide)) hs.storage

theorem Condition.Fit.oneLine (hs : s.OnOneLine) {c : Condition} (h : c.Fit True) : OneLine (c.text s) := by
  obtain ⟨negate, test⟩ := c
  refine .append (.ite (by decide) (by decide)) ?_
  cases test with
  | range cell min max =>
    exact .append (.append (.append (by decide) (hs.score (Cell.Fit.clean h trivial))) (by decide)) (.rangeText min max)
  | compare a relation b =>
    have ha := hs.score (Cell.Fit.clean h.1 trivial)
    have hb := hs.score (Cell.Fit.clean h.2 trivial)
    refine .append (.append (.append (.append (.append (by decide) ha) (by decide)) ?_) (by decide)) hb
    cases relation <;> decide
  | predicate name => exact .append (.append (.append (by decide) hs.namespaceName) (by decide)) (h trivial)

theorem Condition.oneLine_textAll {conditions : List Condition} (h : ∀ c ∈ conditions, OneLine (c.text s)) :
    OneLine (textAll s conditions) := by
  refine .intercalate (by decide) fun text htext => ?_
  obtain ⟨c, hc, rfl⟩ := mem_map.mp htext
  exact h c hc

theorem Cell.oneLine_constant (value : Int32) : OneLine (constant value).name := by
  rw [constant]
  split
  · exact .append (by decide) (.toString_nat _)
  · exact .append (by decide) (.word value)

theorem BlockPosition.oneLine_text (position : BlockPosition) : OneLine position.text := by
  have haxis : ∀ axis : Axis, OneLine axis.text := fun axis => by
    cases axis with
    | absolute n => exact .word n
    | relative n | «local» n => exact .append (by decide) (.word n)
  exact .append (.append (.append (.append (haxis _) (by decide)) (haxis _)) (by decide)) (haxis _)

theorem Instr.Fit.onOneLine (hs : s.OnOneLine) {i : Instr} (h : i.Fit True known) : i.OnOneLine s := by
  have hscore : ∀ {c : Cell}, c.Fit True → OneLine (s.score c) := fun hc => hs.score (hc.clean trivial)
  have hpath : ∀ {p : Path}, Clean True p.name → OneLine p.name := fun hp => hp trivial
  cases i with
  | setScore cell value => exact .append (.append (.append (by decide) (hscore h)) (by decide)) (.word value)
  | addScore cell value =>
    refine .ite ?_ ?_
    · exact .append (.append (.append (by decide) (hscore h)) (by decide)) (.toString_nat _)
    · exact .append (.append (.append (by decide) (hscore h)) (by decide)) (.word value)
  | copyScore target source =>
    exact .append (.append (.append (by decide) (hscore h.1)) (by decide)) (hscore h.2)
  | operate target op source =>
    refine .append (.append (.append (.append (.append (by decide) (hscore h.1)) (by decide)) ?_) (by decide)) (hscore h.2)
    cases op <;> decide
  | operateConstant target op value =>
    refine .append (.append (.append (.append (.append (by decide) (hscore h.1)) (by decide)) ?_) (by decide)) ?_
    · cases op <;> decide
    · exact hs.score (Cell.oneLine_constant value)
  | storeCondition target conditions =>
    refine .append (.append (.append (by decide) (hscore h.1)) (by decide)) (Condition.oneLine_textAll fun c hc => ?_)
    exact (h.2 c hc).oneLine hs
  | guarded conditions => exact fun c hc => (h c hc).oneLine hs
  | call routine => exact .append (.append (.append (by decide) hs.namespaceName) (by decide)) (h trivial)
  | storeData target value =>
    refine .append (.append (.append (.append (.append ?_ hs.storageName) ?_) (hpath h.1)) ?_) (h.2 trivial) <;> decide
  | copyData target source =>
    refine .append (.append (.append (.append (.append (.append (.append ?_ hs.storageName) ?_) (hpath h.1)) ?_)
      hs.storageName) ?_) (hpath h.2) <;> decide
  | scoreToData target source scale form =>
    refine .append (.append (.append (.append (.append (.append (.append (.append (.append ?_ hs.storageName) ?_)
      (hpath h.1)) ?_) ?_) ?_) (.double scale)) ?_) (hscore h.2)
    case refine_4 => cases form <;> decide
    all_goals decide
  | dataToScore target source scale =>
    refine .append (.append (.append (.append (.append (.append (.append ?_ (hscore h.1)) ?_) hs.storageName) ?_)
      (hpath h.2)) ?_) (.double scale) <;> decide
  | tellraw text => exact .append (by decide) (Json.oneLine_compact _)
  | setBlock position block =>
    refine .append (.append (.append (by decide) (BlockPosition.oneLine_text position)) (by decide)) (.ite (h trivial) ?_)
    exact .append (by decide) (h trivial)
  | raw command => trivial

end Commands

theorem Instr.onOneLine_merge (a b : List Condition) (ha : Instr.OnOneLine s (.guarded a))
    (hb : Instr.OnOneLine s (.guarded b)) : Instr.OnOneLine s (.guarded (a ++ b)) := fun c hc =>
  (mem_append.mp hc).elim (ha c) (hb c)

namespace Line

/-- What stands before the command of a line: for each guarded node around it, from the outermost in, its conditions. -/
def opening (s : Settings) (line : Line) : String :=
  line.guards.foldr (fun conditions rest => "execute " ++ Condition.textAll s conditions ++ " run " ++ rest) ""

def written (s : Settings) (line : Line) : List (List Char) :=
  ((line.instr.command s).toList.splitOn '\n').modifyHead ((line.opening s).toList ++ ·)

theorem text_eq (s : Settings) (line : Line) : line.text s = line.opening s ++ line.instr.command s := by
  obtain ⟨guards, instr⟩ := line
  rw [text, opening]
  induction guards with
  | nil => simp
  | cons conditions guards ih =>
    dsimp only at ih ⊢
    rw [foldr_cons, foldr_cons, ih, ← String.append_assoc]

structure OnOneLine (s : Settings) (line : Line) : Prop where
  opening : OneLine (line.opening s)
  command : (∀ command, line.instr ≠ .raw command) → OneLine (line.instr.command s)

theorem splitOn_append {before after : List Char} (h : '\n' ∉ before) :
    (before ++ after).splitOn '\n' = (after.splitOn '\n').modifyHead (before ++ ·) := by
  induction before with
  | nil =>
    rw [nil_append]
    cases after.splitOn '\n' <;> rfl
  | cons c before ih =>
    simp only [mem_cons, not_or] at h
    have hc : (c == '\n') = false := by simpa using fun heq : c = '\n' => h.1 heq.symm
    have hsplit : (c :: (before ++ after)).splitOn '\n' = ((before ++ after).splitOn '\n').modifyHead (c :: ·) := by
      rw [List.splitOn, splitOnP_cons_eq_if_modifyHead, hc]
      rfl
    rw [cons_append, hsplit, ih h.2, modifyHead_modifyHead]
    rfl

variable {line : Line}

theorem OnOneLine.splitOn_text (h : line.OnOneLine s) : (line.text s).toList.splitOn '\n' = line.written s := by
  rw [text_eq, String.toList_append, splitOn_append h.opening, written]

theorem OnOneLine.written_eq (h : line.OnOneLine s)
    (hraw : ∀ command, line.instr = .raw command → OneLine command) : line.written s = [(line.text s).toList] := by
  have hcommand : OneLine (line.instr.command s) := by
    by_cases hany : ∃ command, line.instr = .raw command
    · obtain ⟨command, heq⟩ := hany
      rw [heq]
      exact hraw command heq
    · exact h.command fun command heq => hany ⟨command, heq⟩
  rw [written, splitOn_eq_singleton hcommand, text_eq, String.toList_append]
  rfl

theorem written_raw (s : Settings) (guards : List (List Condition)) (ha : OneLine a) (hb : OneLine b) :
    written s ⟨guards, .raw (a ++ "\n" ++ b)⟩ =
      [((Line.mk guards (.raw (a ++ "\n" ++ b))).opening s ++ a).toList, b.toList] := by
  have hlist : (a ++ "\n" ++ b).toList = a.toList ++ '\n' :: b.toList := by simp
  have hsplit : (a.toList ++ '\n' :: b.toList).splitOn '\n' = [a.toList, b.toList] := by
    have hparts := splitOnP_append_cons (p := (· == '\n')) a.toList b.toList (beq_self_eq_true '\n')
    rw [List.splitOn, hparts]
    exact congrArg₂ (· ++ ·) (splitOn_eq_singleton ha) (splitOn_eq_singleton hb)
  have hcommand : Instr.command s (.raw (a ++ "\n" ++ b)) = a ++ "\n" ++ b := rfl
  unfold written
  dsimp only
  rw [hcommand, hlist, hsplit, modifyHead_cons, String.toList_append]

end Line

namespace Node

variable {nodes : List Node}

theorem AllIn.onOneLine_lines (h : AllIn (Instr.OnOneLine s) nodes) : ∀ line ∈ linesAll nodes, line.OnOneLine s := by
  have hnone : OneLine "" := by decide
  induction nodes using guard_induction with
  | nil => nofun
  | guarded conditions children location index rest ih ihRest =>
    refine forall_mem_append.mpr ⟨fun line hline => ?_, ihRest h.2⟩
    obtain ⟨inner, hinner, rfl⟩ := mem_map.mp hline
    have hline := ih h.1.2 inner hinner
    refine ⟨?_, hline.command⟩
    exact .append (.append (.append (by decide) (Condition.oneLine_textAll h.1.1)) (by decide)) hline.opening
  | leaf instr children location index rest hleaf ihRest =>
    refine forall_mem_append.mpr ⟨?_, ihRest h.2⟩
    rw [lines_leaf hleaf]
    refine forall_mem_singleton.mpr ⟨hnone, fun hraw => ?_⟩
    cases instr with
    | guarded conditions => exact absurd rfl (hleaf conditions)
    | raw command => exact absurd rfl (hraw command)
    | _ => exact h.1.1

end Node

theorem splitOn_intercalate_lineFeed {parts : List (List Char)} (h : parts ≠ []) :
    (List.intercalate ['\n'] parts).splitOn '\n' = parts.flatMap (·.splitOn '\n') := by
  induction parts with
  | nil => exact absurd rfl h
  | cons first rest ih =>
    cases rest with
    | nil => simp
    | cons second rest =>
      have hsplit := splitOnP_append_cons (p := (· == '\n')) first (List.intercalate ['\n'] (second :: rest))
        (beq_self_eq_true '\n')
      rw [intercalate_cons_cons, flatMap_cons, ← ih (by simp), append_assoc]
      exact hsplit

theorem Routine.splitOn_text (r : Routine) (hlines : Node.linesAll r.body ≠ [])
    (hall : ∀ line ∈ Node.linesAll r.body, line.OnOneLine s) :
    (r.text s).toList.splitOn '\n' = (Node.linesAll r.body).flatMap (Line.written s) := by
  rw [text, Node.commandsAll_eq_lines, String.toList_intercalate, map_map]
  refine (splitOn_intercalate_lineFeed (by simpa using hlines)).trans ?_
  rw [flatMap_map]
  exact flatMap_congr fun line hline => (hall line hline).splitOn_text

namespace Environment

variable {script : Script} {p q : Program} {span : Span} {r : Routine}

section

variable (hscript : Script.parse env.source = .ok script) (hsettings : env.settings.OnOneLine)
  (hcatalogue : env.catalogue.OnOneLine) (hp : env.compile script = .ok p)

include hscript hsettings hcatalogue hp

/-- All commands of the program of a script are one line each, but for raw ones. -/
theorem onOneLine_of_compile : ∀ r ∈ p.routines, Node.AllIn (Instr.OnOneLine env.settings) r.body := by
  obtain ⟨s, hrun, rfl⟩ := Environment.compile_eq_ok.mp hp
  obtain ⟨stop, hlaid⟩ := Script.laid hscript
  have hs : s.Fit True := Stmt.fit_compileAll hcatalogue.clean (fun _ => hlaid.named) hrun
  have hmain : (s.draft.pop.2.finish "main" s.draft.pop.1.toList (some script.span)).All (Instr.OnOneLine env.settings) :=
    Draft.All.mono (fun _ hi => hi.onOneLine hsettings) (Draft.All.finish hs.draft.pop.1 hs.draft.pop.2)
  have hinit : Node.AllIn (Instr.OnOneLine env.settings) (Compile.initNodes env.settings s) := by
    refine Node.allIn_iff.mpr fun node hnode => ?_
    simp only [Compile.initNodes, mem_append, mem_singleton, mem_map] at hnode
    obtain (rfl | ⟨c, -, rfl⟩) | ⟨routine, hroutine, rfl⟩ := hnode
    · exact ⟨trivial, trivial⟩
    · have hscore := hsettings.score (Cell.oneLine_constant c)
      exact ⟨.append (.append (.append (by decide) hscore) (by decide)) (.word c), trivial⟩
    · have hclean := hs.userInit routine (by simpa using hroutine)
      exact ⟨.append (.append (.append (by decide) hsettings.namespaceName) (by decide)) (hclean trivial), trivial⟩
  exact fun r hr => Node.allIn_iff.mpr ((Draft.All.finish hmain (Node.allIn_iff.mp hinit)).finished r hr)

theorem onOneLine_lines_of_optimize (hq : p.optimize env.settings span = .ok q) (hr : r ∈ q.routines) :
    ∀ line ∈ Node.linesAll r.body, line.OnOneLine env.settings :=
  ((Program.stable_allIn Instr.onOneLine_merge).optimize (ready_of_compile hp).1 hq
    (onOneLine_of_compile hscript hsettings hcatalogue hp) r hr).onOneLine_lines

end

/-- The text of a routine with commands, split at line feeds, is made of the lines of its commands in order, each with
the conditions that it stands under before it, from the outermost in. A command that is not raw, or has no line feed,
is one line; of a raw command with line feeds all lines but the first stand under no condition. -/
theorem text_splits_into_lines (hscript : Script.parse env.source = .ok script) (hsettings : env.settings.OnOneLine)
    (hcatalogue : env.catalogue.OnOneLine) (hp : env.compile script = .ok p)
    (hq : p.optimize env.settings span = .ok q) (hr : r ∈ q.routines) (hlines : Node.linesAll r.body ≠ []) :
    (r.text env.settings).toList.splitOn '\n' = (Node.linesAll r.body).flatMap (Line.written env.settings) ∧
      ∀ line ∈ Node.linesAll r.body, (∀ command, line.instr = .raw command → OneLine command) →
        line.written env.settings = [(line.text env.settings).toList] := by
  have hall := onOneLine_lines_of_optimize hscript hsettings hcatalogue hp hq hr
  exact ⟨r.splitOn_text hlines hall, fun line hline hraw => (hall line hline).written_eq hraw⟩

end Environment

theorem Environment.text_splits_into_lines_crowded : ∃ q : Program,
    (q.routines.any fun r => !(Node.linesAll r.body).isEmpty) = true ∧
      ∀ r ∈ q.routines, Node.linesAll r.body ≠ [] →
        (r.text {}).toList.splitOn '\n' = (Node.linesAll r.body).flatMap (Line.written {}) := by
  have hview : (optimized ⟨Source.crowded, {}, {}, []⟩ Syntax.crowded).map
      (fun q => q.routines.any fun r => !(Node.linesAll r.body).isEmpty) = .ok true := by
    decide +kernel
  obtain ⟨p, q, hp, hq, hview⟩ := exists_of_optimized hview
  refine ⟨q, hview, fun r hr hlines => ?_⟩
  have hscript : Script.parse (Environment.source ⟨Source.crowded, {}, {}, []⟩) = .ok Syntax.crowded :=
    Syntax.parse_crowded
  exact (text_splits_into_lines hscript ⟨by decide, by decide, by decide⟩
    ⟨by decide, by decide⟩ hp hq hr hlines).1

def Source.drizzle : Source where
  name := "drizzle"
  code := "if (isRaining()) \x7b run(\"say a\\nsay b\") \x7d"

def Syntax.drizzle : Script where
  stmts := [.branch (.call (.var "isRaining" ⟨4, 13⟩) [] ⟨4, 15⟩)
    ⟨[.expr (.call (.var "run" ⟨19, 22⟩) [.string "say a\nsay b" ⟨23, 37⟩] ⟨19, 38⟩) ⟨19, 38⟩], ⟨17, 40⟩⟩ none ⟨0, 40⟩]
  span := ⟨0, 40⟩

theorem Syntax.parse_drizzle : Script.parse Source.drizzle = .ok drizzle := by
  cbv

def Routine.runsGuarded (command : String) (r : Routine) : Bool :=
  match Node.linesAll r.body with
  | [⟨[], .storeCondition _ _⟩, ⟨[[_]], .raw other⟩] => other == command
  | _ => false

/-- The second line of a raw command runs whether or not the condition holds that the command stands under. -/
theorem Environment.text_escapes_conditions_drizzle : ∃ (p q : Program) (main : Routine) (test : Instr)
    (condition : Condition), Environment.compile ⟨Source.drizzle, {}, {}, []⟩ Syntax.drizzle = .ok p ∧
      p.optimize {} Syntax.drizzle.span = .ok q ∧ main ∈ q.routines ∧
        Node.linesAll main.body = [⟨[], test⟩, ⟨[[condition]], .raw ("say a" ++ "\n" ++ "say b")⟩] ∧
          (main.text {}).toList.splitOn '\n' = [(test.command {}).toList,
            ("execute " ++ condition.text {} ++ " run " ++ "say a").toList, "say b".toList] := by
  have hview : (optimized ⟨Source.drizzle, {}, {}, []⟩ Syntax.drizzle).map
      (fun q => q.routines.any (Routine.runsGuarded ("say a" ++ "\n" ++ "say b"))) = .ok true := by
    decide +kernel
  obtain ⟨p, q, hp, hq, hview⟩ := exists_of_optimized hview
  obtain ⟨main, hmain, hlines⟩ := List.any_eq_true.mp hview
  have hscript : Script.parse (Environment.source ⟨Source.drizzle, {}, {}, []⟩) = .ok Syntax.drizzle :=
    Syntax.parse_drizzle
  have hall := onOneLine_lines_of_optimize hscript ⟨by decide, by decide, by decide⟩ ⟨by decide, by decide⟩ hp hq hmain
  unfold Routine.runsGuarded at hlines
  split at hlines
  next target conditions condition command heq =>
    obtain rfl := beq_iff_eq.mp hlines
    refine ⟨p, q, main, .storeCondition target conditions, condition, hp, hq, hmain, heq, ?_⟩
    rw [main.splitOn_text (by simp [heq]) hall, heq]
    rw [heq] at hall
    have htest := (hall _ List.mem_cons_self).written_eq fun command hraw => by cases hraw
    have hopening : (Line.mk [[condition]] (.raw ("say a" ++ "\n" ++ "say b"))).opening {} =
        "execute " ++ condition.text {} ++ " run " := by
      rw [Line.opening, List.foldr_cons, List.foldr_nil, Condition.textAll, List.map_singleton,
        String.intercalate_singleton, String.append_empty]
    have hwritten := Line.written_raw {} [[condition]] (a := "say a") (b := "say b") (by decide) (by decide)
    rw [hopening] at hwritten
    rw [List.flatMap_cons, List.flatMap_cons, htest, hwritten]
    rfl
  next => cases hlines

end Datapack
