import Datapack.Proofs.Normalization

/-!
Simplification inside a routine keeps what the routine does. Each of its rewrites is looked at by itself.
-/

namespace Datapack

variable {World : Type} (engine : Engine World)
  (call : String → Machine World → Option (Machine World))

namespace Engine

variable {cell : Cell} {instr : Instr} {node : Node}

theorem holdsAll_put {conditions : List Condition} (h : conditions.any (·.reads cell) = false) (m : Machine World)
    (value : Int32) : engine.holdsAll (m.put cell value) conditions = engine.holdsAll m conditions := by
  rw [Bool.eq_iff_iff]
  simp only [holdsAll, List.all_eq_true]
  refine forall₂_congr fun condition hmem => ?_
  have hreads : condition.reads cell = false := by
    simpa using List.any_eq_false.mp h condition hmem
  have hpasses : engine.passes (m.put cell value) condition.test = engine.passes m condition.test := by
    obtain ⟨negate, test⟩ := condition
    cases test with
    | range other min max =>
      have hne : other ≠ cell := by
        rintro rfl
        simp [Condition.reads, Test.cells] at hreads
      simp only [passes, Machine.put_cells_of_ne m value hne]
    | compare a relation b =>
      have hne : a ≠ cell ∧ b ≠ cell := by
        constructor <;> rintro rfl <;> simp [Condition.reads, Test.cells] at hreads
      simp only [passes, Machine.put_cells_of_ne m value hne.1, Machine.put_cells_of_ne m value hne.2]
    | predicate name => rfl
  simp only [holds, hpasses]

theorem step_of_overwrites (h : instr.overwrites? = some cell) (m : Machine World) :
    ∃ value, engine.step m instr = m.put cell value := by
  cases instr <;> simp only [Instr.overwrites?, Option.some.injEq, reduceCtorEq] at h
  all_goals
    subst h
    exact ⟨_, rfl⟩

theorem step_put (hwrites : instr.overwrites? = some cell) (hreads : instr.reads cell = false)
    (m : Machine World) (value : Int32) : engine.step (m.put cell value) instr = engine.step m instr := by
  cases instr with
  | setScore target word =>
    obtain rfl : target = cell := by simpa [Instr.overwrites?] using hwrites
    simp [step]
  | copyScore target source =>
    obtain rfl : target = cell := by simpa [Instr.overwrites?] using hwrites
    have hne : source ≠ target := by simpa [Instr.reads] using hreads
    simp [step, Machine.put_cells_of_ne m value hne]
  | storeCondition target conditions =>
    obtain rfl : target = cell := by simpa [Instr.overwrites?] using hwrites
    simp only [step, Machine.put_put]
    rw [holdsAll_put engine (by simpa only [Instr.reads] using hreads)]
  | dataToScore target source scale =>
    obtain rfl : target = cell := by simpa [Instr.overwrites?] using hwrites
    simp [step]
  | _ => simp [Instr.overwrites?] at hwrites

theorem exec_of_overwrites (h : node.instr.overwrites? = some cell) (m : Machine World) :
    engine.exec call node m = some (engine.step m node.instr) := by
  obtain ⟨instr, children, location, index⟩ := node
  have hleaf : ∀ conditions, instr ≠ .guarded conditions := by
    rintro conditions rfl
    simp [Instr.overwrites?] at h
  rw [exec_leaf _ _ hleaf]
  cases instr <;> first | rfl | simp [Instr.overwrites?] at h

theorem execAll_of_overwrittenBy {rest : List Node} (hwrites : node.instr.overwrites? = some cell)
    (hnext : Node.isRedundant.overwrittenBy cell rest.head? = true) (m : Machine World) :
    engine.execAll call (node :: rest) m = engine.execAll call rest m := by
  cases rest with
  | nil => simp [Node.isRedundant.overwrittenBy] at hnext
  | cons next rest =>
    simp only [List.head?_cons, Node.isRedundant.overwrittenBy, Bool.and_eq_true, beq_iff_eq,
      Bool.not_eq_true'] at hnext
    obtain ⟨value, hvalue⟩ := step_of_overwrites engine hwrites m
    rw [execAll, exec_of_overwrites engine call hwrites, Option.bind_some, hvalue, execAll,
      execAll, exec_of_overwrites engine call hnext.1, exec_of_overwrites engine call hnext.1,
      step_put engine hnext.1 hnext.2]

theorem exec_merge (node : Node) (m : Machine World) : engine.exec call node.merge m = engine.exec call node m := by
  unfold Node.merge
  split
  · rename_i outer inner children _ _ location index
    simp only [exec_guarded, execAll, holdsAll_append, Bool.and_eq_true]
    by_cases houter : engine.holdsAll m outer = true
    · by_cases hinner : engine.holdsAll m inner = true <;> simp [houter, hinner]
    · simp [houter]
  · rfl

theorem execAll_prepend (node : Node) (rest : List Node) (m : Machine World) :
    engine.execAll call (node.prepend rest) m = engine.execAll call (node :: rest) m := by
  unfold Node.prepend
  split
  · rename_i hredundant
    obtain ⟨instr, children, location, index⟩ := node
    cases instr with
    | guarded conditions =>
      obtain rfl : children = [] := by simpa [Node.isRedundant] using hredundant
      simp [execAll, exec_guarded]
    | copyScore target source =>
      simp only [Node.isRedundant, Bool.or_eq_true, beq_iff_eq] at hredundant
      rcases hredundant with rfl | hnext
      · have hself : engine.exec call ⟨.copyScore target target, children, location, index⟩ m = some m := by
          rw [exec_of_overwrites engine call rfl]
          simp [step]
        rw [execAll, hself, Option.bind_some]
      · rw [execAll_of_overwrittenBy engine call rfl hnext]
    | setScore cell _ | storeCondition cell _ | dataToScore cell _ _ =>
      rw [execAll_of_overwrittenBy engine call rfl hredundant]
    | _ => simp [Node.isRedundant, Instr.overwrites?] at hredundant
  · rfl

theorem execAll_simplifyAll (nodes : List Node) :
    ∀ m, engine.execAll call (Node.simplifyAll nodes) m = engine.execAll call nodes m := by
  induction nodes using Node.guard_induction with
  | nil => exact fun _ => rfl
  | guarded conditions children location index rest ih ihRest =>
    intro m
    rw [Node.simplifyAll, execAll_prepend, execAll, execAll, funext ihRest, Node.simplify, exec_merge]
    simp only [exec_guarded, ih]
  | leaf instr children location index rest hleaf ihRest =>
    intro m
    rw [Node.simplifyAll, execAll_prepend, execAll, execAll, funext ihRest, Node.simplify, exec_merge, exec_leaf _ _ hleaf,
      exec_leaf _ _ hleaf]

end Engine

def recording (transform : String → Machine World → Option (Machine World)) (routine : String)
    (m : Machine World) : Option (Machine World) :=
  transform routine (m.record (.call routine))

/-- A simplified routine does what the routine did, on every machine and whatever the routines that it
calls do: it ends with the same cells, the same world and the same messages, blocks, raw commands and calls
on record, or does not end. -/
theorem Routine.simplify_preserves_run (engine : Engine World)
    (transform : String → Machine World → Option (Machine World)) (r : Routine) (m : Machine World) :
    engine.execAll (recording transform) r.simplify.body m =
      engine.execAll (recording transform) r.body m := by
  rw [r.body_simplify, engine.execAll_simplifyAll]

end Datapack
