import Datapack.Proofs.Temporaries.Stmt

/-!
Temporaries and whole scripts. The routines of a script divide the temporaries among them, so if no routine is
entered again too early, the lines of a script do what its nodes do, and of two branches exactly one runs.
-/

namespace Datapack

open List

theorem CompilerState.settled_start : start.Settled where
  frames := ⟨_, Frames.start_stack, fun e he => by
    cases mem_singleton.mp he
    exact ⟨by simp, by simp⟩⟩
  functions id f h := by simp [start] at h

theorem Compile.areTidy_initNodes (settings : Settings) (s : CompilerState) (own : Nat → Prop) :
    Node.AreTidy own (initNodes settings s) := by
  refine Node.areTidy_iff.mpr fun node hnode => ?_
  simp only [initNodes, mem_append, mem_singleton, mem_map] at hnode
  obtain (rfl | ⟨c, -, rfl⟩) | ⟨routine, -, rfl⟩ := hnode
  · exact Node.isTidy_leaf (by simp) (by simp [Instr.target?]) _ _ _
  · refine Node.isTidy_leaf (by simp) (fun k hk => ?_) _ _ _
    exact absurd (Option.some.inj hk) (Cell.constant_ne_temporary c k)
  · exact Node.isTidy_leaf (by simp) (by simp [Instr.target?]) _ _ _

theorem Environment.divided_of_compile {env : Environment} {script : Syntax.Script} {p : Program}
    (hp : env.compile script = .ok p) (hplaces : Syntax.Stmt.allCallOnPlaces script.stmts = true) :
    ∃ owners, p.Divided owners := by
  obtain ⟨s, hrun, rfl⟩ := compile_eq_ok.mp hp
  have hbody := Syntax.Stmt.runs_compileAll ((StepRules.confinement env).expands_expandWithin Compile.expansionDepth)
    script.stmts ⟨fun _ _ => trivial, False.elim, fun _ => hplaces⟩
  obtain ⟨w, hnow, hinner, -⟩ := Compile.Confined.advances (hbody (.start true _) rfl) hrun CompilerState.settled_start
  rw [hnow] at hinner
  obtain ⟨made, hmade, hown, hpairwise⟩ :=
    (hinner.grows.finishRoutine (s := {}) "main" (some script.span)).routines
  let draft := s.draft.pop.2.finish "main" s.draft.pop.1.toList (some script.span)
  let body := (Node.numberAll (draft.nextIndex + 1) (Compile.initNodes env.settings s)).2
  refine ⟨made ++ [({ name := "init", body, index := some draft.nextIndex }, fun _ => False)], ?_, ?_, ?_⟩
  · have hroutines : draft.routines.toList = made.map (·.1) := by simpa using hmade
    simp [Draft.program, Draft.finish, body, ← hroutines, draft]
  · intro e he
    cases mem_append.mp he with
    | inl he => exact (hown e he).1
    | inr he =>
      cases mem_singleton.mp he
      exact (Compile.areTidy_initNodes env.settings s _).numberAll _
  · refine pairwise_append.mpr ⟨hpairwise, pairwise_singleton _ _, fun a _ b hb k _ => ?_⟩
    cases mem_singleton.mp hb
    exact id

/-- The lines of a script do what its nodes do, for every depth of calls, if methods are called on places only
and no routine is entered again from below a condition that is tested again afterwards. So of two branches
with opposite conditions exactly one runs, and all of it: the first if the condition holds when it is first
tested, otherwise the second. -/
theorem Environment.lines_do_as_nodes {env : Environment} {script : Syntax.Script} {p : Program}
    (hp : env.compile script = .ok p) (hplaces : Syntax.Stmt.allCallOnPlaces script.stmts = true)
    (hentry : p.NoReentry) {World : Type} {engine : Engine World} (hraw : engine.KeepsTemporaries)
    (depth : Nat) :
    p.runLines engine depth = p.run engine depth ∧
      ∀ (r : Routine) (before between after onTrue onFalse : List Node) (c : Condition)
        (locations : Option Span × Option Span) (indices : Option Nat × Option Nat) (m : Machine World),
        p.Group r (before ++ ⟨.guarded [c], onTrue, locations.1, indices.1⟩ ::
          (between ++ ⟨.guarded [c.negated], onFalse, locations.2, indices.2⟩ :: after)) →
        (∀ node ∈ between, node.IsHarmless) →
        engine.execLines (p.runLines engine depth)
            (Node.linesAll (⟨.guarded [c], onTrue, locations.1, indices.1⟩ ::
              (between ++ [⟨.guarded [c.negated], onFalse, locations.2, indices.2⟩]))) m =
          if engine.holds m c then engine.execAll (p.run engine depth) (onTrue ++ between) m
          else engine.execAll (p.run engine depth) (between ++ onFalse) m := by
  obtain ⟨owners, hdivided⟩ := divided_of_compile hp hplaces
  refine ⟨Program.runLines_eq_run hraw (hdivided.steady hentry) depth, ?_⟩
  intro r before between after onTrue onFalse c locations indices m hgroup hbetween
  exact hdivided.execLines_branches hentry hraw hgroup hbetween depth m

def Syntax.greeting : Script where
  stmts := [
    .function ⟨"greet", false, none, [], none,
      ⟨[.expr (.call (.var "print" .zero) [.string "hello" .zero] .zero) .zero], .zero⟩, .zero⟩ .zero,
    .branch (.call (.var "isRaining" .zero) [] .zero)
      ⟨[.expr (.call (.var "greet" .zero) [] .zero) .zero,
        .expr (.call (.var "print" .zero) [.string "wet" .zero] .zero) .zero], .zero⟩
      (some ⟨[.expr (.call (.var "print" .zero) [.string "dry" .zero] .zero) .zero], .zero⟩) .zero]
  span := .zero

def Program.greeting : Program :=
  match Environment.compile ⟨⟨"", ""⟩, {}, {}, []⟩ Syntax.greeting with
  | .ok p => p
  | .error _ => ⟨[], 0⟩

theorem Environment.compile_greeting :
    Environment.compile ⟨⟨"", ""⟩, {}, {}, []⟩ Syntax.greeting = .ok Program.greeting := by
  have hok : (Environment.compile ⟨⟨"", ""⟩, {}, {}, []⟩ Syntax.greeting).isOk = true := by decide +kernel
  rw [Program.greeting]
  cases hcompile : Environment.compile ⟨⟨"", ""⟩, {}, {}, []⟩ Syntax.greeting with
  | ok p => rfl
  | error e =>
    rw [hcompile] at hok
    cases hok

theorem Environment.lines_do_as_nodes_greeting :
    Program.greeting.runLines Engine.still 3 = Program.greeting.run Engine.still 3 := by
  have hentry : Program.greeting.NoReentry :=
    .of_rank (fun name => if name = "greet" then 0 else 1) (by decide +kernel)
  exact (lines_do_as_nodes compile_greeting rfl hentry (fun _ _ _ _ => rfl) 3).1

def Syntax.countdown : Script where
  stmts := [
    .function ⟨"f", false, none, [⟨"n", ⟨"Number", .zero⟩, none, .zero⟩], none,
      ⟨[.branch (.binary (.var "n" .zero) .greaterEqual (.int 1 .zero) .zero)
        ⟨[.expr (.call (.var "f" .zero) [.binary (.var "n" .zero) .sub (.int 1 .zero) .zero] .zero) .zero,
          .expr (.call (.var "print" .zero) [.string "x" .zero] .zero) .zero], .zero⟩ none .zero],
        .zero⟩, .zero⟩ .zero,
    .expr (.call (.var "f" .zero) [.int 2 .zero] .zero) .zero]
  span := .zero

def Program.countdown : Program :=
  match Environment.compile ⟨⟨"", ""⟩, {}, {}, []⟩ Syntax.countdown with
  | .ok p => p
  | .error _ => ⟨[], 0⟩

/-- If a routine is entered again from below a condition, its lines may differ from its nodes: the inner run
of the function leaves the temporary of the outer one at zero, which then shows no message. -/
theorem Program.countdown_lines_ne_nodes :
    Program.countdown.runLines Engine.still 4 "main" Machine.blank ≠
      Program.countdown.run Engine.still 4 "main" Machine.blank := by
  intro h
  have hevents := congrArg (Option.map fun m => m.events.length) h
  exact absurd hevents (by decide +kernel)

end Datapack
