import Datapack.Proofs.Unfolding
import Mathlib.Data.List.Basic

/-!
When the lines of a program do what its nodes do. A guarded node tests its conditions once, the lines below it test them
again and again; so a program has to be steady: no line below a condition, except the last one, may lead to a write of
the temporary that the condition is about.
-/

namespace Datapack

open List Node

variable {instr i : Instr} {name : String} {nodes : List Node} {p : Program} {k : Nat} {conditions : List Condition}
  {World : Type}

def Instr.target? : Instr → Option Cell
  | .setScore cell _ | .addScore cell _ | .copyScore cell _ | .operate cell _ _
  | .operateConstant cell _ _ | .storeCondition cell _ | .dataToScore cell _ _ => some cell
  | _ => none

def Instr.operands : Instr → List Cell
  | .addScore cell _ => [cell]
  | .copyScore _ source | .scoreToData _ source _ _ => [source]
  | .operate target _ source => [target, source]
  | .operateConstant target _ value => [target, .constant value]
  | .storeCondition _ conditions | .guarded conditions => conditions.flatMap (·.test.cells)
  | .setScore _ _ | .call _ | .storeData _ _ | .copyData _ _ | .dataToScore _ _ _ | .tellraw _ | .setBlock _ _
  | .raw _ => []

def Condition.onTemporary (negate : Bool) (k : Nat) : Condition :=
  ⟨negate, .range (.temporary k) (some 1) none⟩

def Engine.KeepsTemporaries (engine : Engine World) : Prop :=
  ∀ command cells world k, (engine.raw command (cells, world)).1 (.temporary k) = cells (.temporary k)

namespace Node

def instrs (node : Node) : List Instr := (lines node).map (·.instr)

def instrsAll (nodes : List Node) : List Instr := (linesAll nodes).map (·.instr)

@[simp] theorem instrsAll_nil : instrsAll [] = [] := rfl

@[simp] theorem instrsAll_cons (node : Node) (rest : List Node) :
    instrsAll (node :: rest) = instrs node ++ instrsAll rest := by
  simp [instrsAll, instrs, linesAll]

@[simp] theorem instrsAll_append (nodes others : List Node) :
    instrsAll (nodes ++ others) = instrsAll nodes ++ instrsAll others := by
  simp [instrsAll, linesAll_append]

@[simp] theorem instrs_guarded (conditions : List Condition) (children : List Node) (location : Option Span)
    (index : Option Nat) : instrs ⟨.guarded conditions, children, location, index⟩ = instrsAll children := by
  simp [instrs, instrsAll, lines]

theorem instrs_leaf (h : ∀ conditions, instr ≠ .guarded conditions) (children : List Node) (location : Option Span)
    (index : Option Nat) : instrs ⟨instr, children, location, index⟩ = [instr] := by
  rw [instrs, lines_leaf h]
  rfl

theorem mem_callsAll_of_instrsAll (h : .call name ∈ instrsAll nodes) : name ∈ callsAll nodes := by
  induction nodes using guard_induction with
  | nil => cases h
  | guarded conditions children location index rest ih ihRest =>
    rw [instrsAll_cons, instrs_guarded, mem_append] at h
    simp only [callsAll, mem_append, mem_calls]
    exact h.imp (.inr <| ih ·) ihRest
  | leaf instr children location index rest hleaf ihRest =>
    rw [instrsAll_cons, instrs_leaf hleaf, mem_append, mem_singleton] at h
    simp only [callsAll, mem_append, mem_calls]
    exact h.imp (.inl ·.symm) ihRest

end Node

namespace Program

def Calls (p : Program) (caller callee : String) : Prop :=
  ∃ r, p.routine? caller = some r ∧ callee ∈ r.calls

def Leads (p : Program) : String → String → Prop := Relation.ReflTransGen p.Calls

def Writes (p : Program) (name : String) (k : Nat) : Prop :=
  ∃ r, p.routine? name = some r ∧ ∃ i ∈ Node.instrsAll r.body, i.target? = some (.temporary k)

def Touches (p : Program) (name : String) (k : Nat) : Prop :=
  ∃ writer, p.Leads name writer ∧ p.Writes writer k

/-- Whether a command cannot change a condition: the condition is about a temporary, which is not written. -/
def Spares (p : Program) (c : Condition) (i : Instr) : Prop :=
  ∃ negate k, c = .onTemporary negate k ∧ i.target? ≠ some (.temporary k) ∧
    ∀ callee, i = .call callee → ¬ p.Touches callee k

def HoldsUp (p : Program) (conditions : List Condition) (nodes : List Node) : Prop :=
  ∀ c ∈ conditions, ∀ i ∈ (Node.instrsAll nodes).dropLast, p.Spares c i

mutual

def IsSteady (p : Program) : Node → Prop
  | ⟨.guarded conditions, children, _, _⟩ => p.HoldsUp conditions children ∧ p.AreSteady children
  | _ => True

def AreSteady (p : Program) : List Node → Prop
  | [] => True
  | node :: rest => p.IsSteady node ∧ p.AreSteady rest

end

def Steady (p : Program) : Prop := ∀ name r, p.routine? name = some r → p.AreSteady r.body

theorem isSteady_leaf (p : Program) (h : ∀ conditions, instr ≠ .guarded conditions) (children : List Node)
    (location : Option Span) (index : Option Nat) : p.IsSteady ⟨instr, children, location, index⟩ := by
  rw [IsSteady]
  · exact trivial
  · rintro conditions _ _ _ heq
    exact h conditions (congrArg Node.instr heq)

theorem areSteady_iff : p.AreSteady nodes ↔ ∀ node ∈ nodes, p.IsSteady node := by
  induction nodes with
  | nil => simp [AreSteady]
  | cons node rest ih => simp [AreSteady, ih]

end Program

namespace Engine

variable {engine : Engine World} {call : String → Machine World → Option (Machine World)} {m m' : Machine World}

section

variable (hraw : engine.KeepsTemporaries)

include hraw

theorem step_keeps_temporary (h : i.target? ≠ some (.temporary k))
    (m : Machine World) : (engine.step m i).cells (.temporary k) = m.cells (.temporary k) := by
  have hput : ∀ cell value, some cell ≠ some (Cell.temporary k) →
      (m.put cell value).cells (.temporary k) = m.cells (.temporary k) := by
    intro cell value hne
    exact m.put_cells_of_ne value (fun heq => hne (heq ▸ rfl))
  cases i with
  | raw command => exact hraw command m.cells m.world k
  | guarded _ | call _ | storeData _ _ | copyData _ _ | scoreToData _ _ _ _ | tellraw _ | setBlock _ _ => rfl
  | _ => exact hput _ _ h

theorem command_keeps_temporary (hwrite : i.target? ≠ some (.temporary k))
    (hcall : ∀ callee, i = .call callee → ∀ m m', call callee m = some m' →
      m'.cells (.temporary k) = m.cells (.temporary k)) (h : engine.command call m i = some m') :
    m'.cells (.temporary k) = m.cells (.temporary k) := by
  by_cases hi : ∃ callee, i = .call callee
  · obtain ⟨callee, rfl⟩ := hi
    exact hcall callee rfl m m' h
  · have hstep : engine.command call m i = some (engine.step m i) := by
      cases i with
      | call callee => exact absurd ⟨callee, rfl⟩ hi
      | _ => rfl
    rw [hstep] at h
    cases h
    exact step_keeps_temporary hraw hwrite m

theorem execAll_keeps_temporary
    (hkeep : ∀ i ∈ Node.instrsAll nodes, i.target? ≠ some (.temporary k) ∧
      ∀ callee, i = .call callee → ∀ m m', call callee m = some m' →
        m'.cells (.temporary k) = m.cells (.temporary k)) (h : engine.execAll call nodes m = some m') :
    m'.cells (.temporary k) = m.cells (.temporary k) := by
  induction nodes using guard_induction generalizing m m' with
  | nil => rw [Option.some.inj h]
  | guarded conditions children location index rest ih ihRest =>
    simp only [instrsAll_cons, instrs_guarded, mem_append] at hkeep
    rw [execAll, exec_guarded] at h
    obtain ⟨n, hn, hrest⟩ := Option.bind_eq_some_iff.mp h
    rw [ihRest (fun i hi => hkeep i (.inr hi)) hrest]
    split at hn
    · exact ih (fun i hi => hkeep i (.inl hi)) hn
    · rw [Option.some.inj hn]
  | leaf instr children location index rest hleaf ihRest =>
    simp only [instrsAll_cons, instrs_leaf hleaf, mem_append, mem_singleton] at hkeep
    rw [execAll, exec_leaf _ _ hleaf] at h
    obtain ⟨n, hn, hrest⟩ := Option.bind_eq_some_iff.mp h
    obtain ⟨hwrite, hcall⟩ := hkeep instr (.inl rfl)
    rw [ihRest (fun i hi => hkeep i (.inr hi)) hrest, command_keeps_temporary hraw hwrite hcall hn]

end

theorem holds_onTemporary_congr (h : m'.cells (.temporary k) = m.cells (.temporary k))
    (negate : Bool) : engine.holds m' (.onTemporary negate k) = engine.holds m (.onTemporary negate k) := by
  simp [holds, passes, Condition.onTemporary, h]

end Engine

namespace Program

variable {engine : Engine World} {m m' : Machine World}

theorem run_keeps_temporary (hraw : engine.KeepsTemporaries) (h : ¬ p.Touches name k) (depth : Nat)
    (hrun : p.run engine depth name m = some m') : m'.cells (.temporary k) = m.cells (.temporary k) := by
  induction depth generalizing name m m' with
  | zero => simp [run] at hrun
  | succ depth ih =>
    rw [run] at hrun
    split at hrun
    next r hr =>
      refine Engine.execAll_keeps_temporary hraw ?_ hrun
      intro i hi
      refine ⟨fun hwrite => h ⟨name, .refl, r, hr, i, hi, hwrite⟩, ?_⟩
      rintro callee rfl m m' hcall
      refine ih ?_ hcall
      rintro ⟨writer, hleads, hwrites⟩
      exact h ⟨writer, .head ⟨r, hr, mem_callsAll_of_instrsAll hi⟩ hleads, hwrites⟩
    next => rw [Option.some.inj hrun]

theorem Spares.holds_eq (hraw : engine.KeepsTemporaries) {c : Condition} (h : p.Spares c i) {depth : Nat}
    (hcommand : engine.command (p.run engine depth) m i = some m') : engine.holds m' c = engine.holds m c := by
  obtain ⟨negate, k, rfl, hwrite, hcall⟩ := h
  refine Engine.holds_onTemporary_congr ?_ negate
  exact Engine.command_keeps_temporary hraw hwrite
    (fun callee hi _ _ hrun => run_keeps_temporary hraw (hcall callee hi) depth hrun) hcommand

end Program

namespace Engine

variable {engine : Engine World} {call : String → Machine World → Option (Machine World)}

theorem execLine_guard (conditions : List Condition) (line : Line) (m : Machine World) :
    engine.execLine call { line with guards := conditions :: line.guards } m =
      if engine.holdsAll m conditions then engine.execLine call line m else some m := by
  by_cases h : engine.holdsAll m conditions = true
  · simp [execLine, h]
  · simp [execLine, h]

theorem execLines_guard {lines : List Line}
    (hkeep : ∀ line ∈ lines.dropLast, ∀ m m', engine.execLine call line m = some m' →
      engine.holdsAll m' conditions = engine.holdsAll m conditions) (m : Machine World) :
    engine.execLines call
        (lines.map fun line => { line with guards := conditions :: line.guards }) m =
      if engine.holdsAll m conditions then engine.execLines call lines m else some m := by
  induction lines generalizing m with
  | nil => simp [execLines]
  | cons line rest ih =>
    rw [map_cons, execLines, execLines, execLine_guard]
    have hrest : ∀ l ∈ rest.dropLast, ∀ m m', engine.execLine call l m = some m' →
        engine.holdsAll m' conditions = engine.holdsAll m conditions := by
      intro l hl
      refine hkeep l ?_
      cases rest with
      | nil => simp at hl
      | cons next others => exact .tail _ hl
    by_cases hholds : engine.holdsAll m conditions = true
    · rw [if_pos hholds, if_pos hholds]
      cases hfirst : engine.execLine call line m with
      | none => rfl
      | some m' =>
        rw [Option.bind_some, Option.bind_some]
        cases rest with
        | nil => rfl
        | cons next others =>
          have hsame := hkeep line (.head _) m m' hfirst
          rw [ih hrest m', if_pos (hsame.trans hholds)]
    · rw [if_neg hholds, if_neg hholds, Option.bind_some, ih hrest m, if_neg hholds]

end Engine

namespace Program

variable {engine : Engine World}

section

variable (hraw : engine.KeepsTemporaries)

include hraw

theorem HoldsUp.holdsAll_eq (h : p.HoldsUp conditions nodes) (depth : Nat) {line : Line}
    (hline : line ∈ (Node.linesAll nodes).dropLast) {m m' : Machine World}
    (hexec : engine.execLine (p.run engine depth) line m = some m') :
    engine.holdsAll m' conditions = engine.holdsAll m conditions := by
  rw [Engine.execLine] at hexec
  split at hexec
  · have hinstr : line.instr ∈ (Node.instrsAll nodes).dropLast := by
      rw [Node.instrsAll, ← map_dropLast]
      exact mem_map_of_mem hline
    rw [Bool.eq_iff_iff, Engine.holdsAll, Engine.holdsAll, all_eq_true, all_eq_true]
    refine forall_congr' fun c => imp_congr_right fun hc => ?_
    rw [(h c hc line.instr hinstr).holds_eq hraw hexec]
  · rw [Option.some.inj hexec]

theorem execLines_eq_execAll (depth : Nat) (h : p.AreSteady nodes) (m : Machine World) :
    engine.execLines (p.run engine depth) (Node.linesAll nodes) m =
      engine.execAll (p.run engine depth) nodes m := by
  induction nodes using guard_induction generalizing m with
  | nil => rfl
  | guarded conditions children location index rest ih ihRest =>
    rw [AreSteady, IsSteady] at h
    rw [Node.linesAll, Engine.execLines_append, Engine.execAll, Node.lines, Engine.exec_guarded, Engine.execLines_guard,
      ih h.1.2, funext (ihRest h.2)]
    intro line hline m m' hexec
    exact h.1.1.holdsAll_eq hraw depth hline hexec
  | leaf instr children location index rest hleaf ihRest =>
    rw [Node.linesAll, Engine.execLines_append, Engine.execAll, lines_leaf hleaf, Engine.exec_leaf _ _ hleaf,
      funext (ihRest h.2)]
    simp [Engine.execLines, Engine.execLine]

theorem runLines_eq_run (hp : p.Steady) (depth : Nat) : p.runLines engine depth = p.run engine depth := by
  induction depth with
  | zero => rfl
  | succ depth ih =>
    funext name m
    rw [runLines, run]
    split
    next r hr => rw [ih, execLines_eq_execAll hraw depth (hp name r hr)]
    next => rfl

end

end Program

namespace Node

theorem instrs_merge (node : Node) : instrs (merge node) = instrs node := by
  unfold merge
  split
  · simp
  · rfl

theorem instrsAll_prepend (node : Node) (rest : List Node) :
    (instrsAll (prepend node rest)).Sublist (instrs node ++ instrsAll rest) := by
  rw [prepend]
  split
  · exact sublist_append_right _ _
  · simp

theorem instrsAll_simplifyAll (nodes : List Node) : (instrsAll (simplifyAll nodes)).Sublist (instrsAll nodes) := by
  induction nodes using guard_induction with
  | nil => exact List.Sublist.refl _
  | guarded conditions children location index rest ih ihRest =>
    rw [simplifyAll, simplify, instrsAll_cons]
    refine (instrsAll_prepend _ _).trans (List.Sublist.append ?_ ihRest)
    rwa [instrs_merge, instrs_guarded, instrs_guarded]
  | leaf instr children location index rest hleaf ihRest =>
    rw [simplifyAll, simplify, instrsAll_cons]
    refine (instrsAll_prepend _ _).trans (List.Sublist.append ?_ ihRest)
    rw [instrs_merge, instrs_leaf hleaf, instrs_leaf hleaf]

theorem calls_merge (node : Node) : calls (merge node) = calls node := by
  unfold merge
  split
  · simp [calls, callsAll]
  · rfl

theorem mem_callsAll_simplifyAll (h : name ∈ callsAll (simplifyAll nodes)) : name ∈ callsAll nodes := by
  induction nodes using forest_induction with
  | nil => exact h
  | cons instr children location index rest ih ihRest =>
    simp only [callsAll, mem_append, mem_calls]
    rw [simplifyAll, prepend] at h
    split at h
    · exact .inr (ihRest h)
    · rw [callsAll, mem_append, simplify, calls_merge, mem_calls] at h
      exact h.imp (.imp_right ih) ihRest

end Node

namespace Program

variable {q : Program}

theorem HoldsUp.of_sublist {fewer : List Node} (h : p.HoldsUp conditions nodes)
    (hsub : (Node.instrsAll fewer).Sublist (Node.instrsAll nodes)) : p.HoldsUp conditions fewer := by
  have hdrop := hsub.reverse.tail.reverse
  simp only [tail_reverse, reverse_reverse] at hdrop
  exact fun c hc i hi => h c hc i (hdrop.subset hi)

theorem IsSteady.merge {node : Node} (h : p.IsSteady node) : p.IsSteady node.merge := by
  unfold Node.merge
  split
  next outer inner children _ _ location index =>
    simp only [IsSteady, AreSteady, and_true] at h
    obtain ⟨houter, hinner, hchildren⟩ := h
    rw [IsSteady]
    refine ⟨fun c hc i hi => ?_, hchildren⟩
    cases mem_append.mp hc with
    | inl hc => exact houter c hc i (by simpa using hi)
    | inr hc => exact hinner c hc i hi
  next => exact h

theorem AreSteady.simplifyAll (h : p.AreSteady nodes) : p.AreSteady (Node.simplifyAll nodes) := by
  have hprepend : ∀ {node rest}, p.IsSteady node → p.AreSteady rest → p.AreSteady (Node.prepend node rest) := by
    intro node rest hnode hrest
    rw [Node.prepend]
    split
    · exact hrest
    · exact ⟨hnode, hrest⟩
  induction nodes using guard_induction with
  | nil => exact h
  | guarded conditions children location index rest ih ihRest =>
    rw [AreSteady, IsSteady] at h
    rw [Node.simplifyAll, Node.simplify]
    refine hprepend (IsSteady.merge ?_) (ihRest h.2)
    rw [IsSteady]
    exact ⟨h.1.1.of_sublist (instrsAll_simplifyAll children), ih h.1.2⟩
  | leaf instr children location index rest hleaf ihRest =>
    rw [Node.simplifyAll, Node.simplify]
    exact hprepend (IsSteady.merge (p.isSteady_leaf hleaf _ _ _)) (ihRest h.2)

def Thins (q p : Program) : Prop :=
  ∀ name r', q.routine? name = some r' → ∃ r, p.routine? name = some r ∧
    (r'.body = r.body ∨ r'.body = Node.simplifyAll r.body)

theorem Thins.instrs_subset (h : q.Thins p) {r' : Routine} (hr' : q.routine? name = some r') :
    ∃ r, p.routine? name = some r ∧ Node.instrsAll r'.body ⊆ Node.instrsAll r.body ∧ r'.calls ⊆ r.calls := by
  obtain ⟨r, hr, hbody⟩ := h name r' hr'
  refine ⟨r, hr, ?_⟩
  rw [Routine.calls, Routine.calls]
  cases hbody with
  | inl hbody => exact hbody ▸ ⟨List.Subset.refl _, List.Subset.refl _⟩
  | inr hbody =>
    rw [hbody]
    exact ⟨(instrsAll_simplifyAll r.body).subset, fun _ => mem_callsAll_simplifyAll⟩

theorem Thins.touches (h : q.Thins p) (htouches : q.Touches name k) : p.Touches name k := by
  obtain ⟨writer, hleads, r', hr', i, hi, hwrites⟩ := htouches
  refine ⟨writer, hleads.lift id ?_, ?_⟩
  · rintro caller callee ⟨s', hs', hcallee⟩
    obtain ⟨s, hs, -, hcalls⟩ := h.instrs_subset hs'
    exact ⟨s, hs, hcalls hcallee⟩
  · obtain ⟨r, hr, hinstrs, -⟩ := h.instrs_subset hr'
    exact ⟨r, hr, i, hinstrs hi, hwrites⟩

theorem AreSteady.mono (h : ∀ name k, q.Touches name k → p.Touches name k) (hsteady : p.AreSteady nodes) :
    q.AreSteady nodes := by
  induction nodes using guard_induction with
  | nil => exact hsteady
  | guarded conditions children location index rest ih ihRest =>
    rw [AreSteady, IsSteady] at hsteady ⊢
    refine ⟨⟨fun c hc i hi => ?_, ih hsteady.1.2⟩, ihRest hsteady.2⟩
    obtain ⟨negate, k, hcond, hwrite, hcall⟩ := hsteady.1.1 c hc i hi
    exact ⟨negate, k, hcond, hwrite, fun callee heq htouches => hcall callee heq (h callee k htouches)⟩
  | leaf instr children location index rest hleaf ihRest => exact ⟨q.isSteady_leaf hleaf _ _ _, ihRest hsteady.2⟩

theorem Thins.steady (h : q.Thins p) (hp : p.Steady) : q.Steady := by
  intro name r' hr'
  obtain ⟨r, hr, hbody⟩ := h name r' hr'
  refine AreSteady.mono (fun _ _ => h.touches) ?_
  cases hbody with
  | inl hbody => exact hbody ▸ hp name r hr
  | inr hbody => exact hbody ▸ (hp name r hr).simplifyAll

end Program

end Datapack
