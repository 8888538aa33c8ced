import Datapack.Proofs.Ownership
import Mathlib.Data.List.Infix
import Mathlib.Data.List.Pairwise

/-!
Programs whose routines have temporaries of their own. In a tidy routine a condition with several commands below it is
about a temporary that belongs to the routine and that none of them writes. If the routine is not entered again from
below such a condition, the lines of the program do what its nodes do, and of two branches exactly one runs.
-/

namespace Datapack

open List Node Engine

variable {own : Nat → Prop} {after before between onTrue onFalse : List Node} {i : Instr} {c : Condition}
  {locations : Option Span × Option Span} {indices : Option Nat × Option Nat}

/-- Whether a guarded node only calls a routine, if a truth value is true or a number is not zero. -/
def Node.IsCheck (conditions : List Condition) (children : List Node) : Prop :=
  ∃ cell routine,
    (conditions = [.isTrue cell] ∨ conditions = [⟨true, .range cell (some 0) (some 0)⟩]) ∧
      instrsAll children = [.call routine]

/-- Whether a guarded node is a branch: it is decided by a temporary among given ones that nothing below it
writes. -/
def Node.IsBranch (own : Nat → Prop) (conditions : List Condition) (children : List Node) : Prop :=
  ∃ negate k, conditions = [.onTemporary negate k] ∧ own k ∧
    ∀ i ∈ instrsAll children, i.target? ≠ some (.temporary k)

mutual

/-- Whether a node writes only given temporaries, and has nothing guarded but branches and checks. -/
def Node.IsTidy (own : Nat → Prop) : Node → Prop
  | ⟨.guarded conditions, children, _, _⟩ =>
    (IsCheck conditions children ∨ IsBranch own conditions children) ∧
      AreTidy own children
  | ⟨instr, _, _, _⟩ => ∀ k, instr.target? = some (.temporary k) → own k

def Node.AreTidy (own : Nat → Prop) : List Node → Prop
  | [] => True
  | node :: rest => IsTidy own node ∧ AreTidy own rest

end

def Node.IsHarmless (node : Node) : Prop :=
  node.instr.IsPlain ∧ ∀ k, node.instr.target? ≠ some (.temporary k)

namespace Node

variable {more : Nat → Prop} {nodes : List Node}

theorem isTidy_leaf {instr : Instr} (h : ∀ conditions, instr ≠ .guarded conditions)
    (htarget : ∀ k, instr.target? = some (.temporary k) → own k) (children : List Node)
    (location : Option Span) (index : Option Nat) : IsTidy own ⟨instr, children, location, index⟩ := by
  rw [IsTidy]
  · exact htarget
  · exact h

theorem areTidy_iff : AreTidy own nodes ↔ ∀ node ∈ nodes, IsTidy own node := by
  induction nodes with
  | nil => simp [AreTidy]
  | cons node rest ih => simp [AreTidy, ih]

theorem areTidy_append {others : List Node} :
    AreTidy own (nodes ++ others) ↔ AreTidy own nodes ∧ AreTidy own others := by
  simp only [areTidy_iff, mem_append]
  exact ⟨fun h => ⟨fun n hn => h n (.inl hn), fun n hn => h n (.inr hn)⟩,
    fun h n hn => hn.elim (h.1 n) (h.2 n)⟩

theorem AreTidy.mono (h : ∀ k, own k → more k) (htidy : AreTidy own nodes) : AreTidy more nodes := by
  induction nodes using guard_induction with
  | nil => exact htidy
  | guarded conditions children location index rest ih ihRest =>
    obtain ⟨⟨hguard, hchildren⟩, hrest⟩ := htidy
    refine ⟨⟨hguard.imp_right ?_, ih hchildren⟩, ihRest hrest⟩
    rintro ⟨negate, k, hcond, hown, hwrites⟩
    exact ⟨negate, k, hcond, h k hown, hwrites⟩
  | leaf instr children location index rest hleaf ihRest =>
    rw [AreTidy, IsTidy] at htidy
    · exact ⟨isTidy_leaf hleaf (fun k hk => h k (htidy.1 k hk)) children location index, ihRest htidy.2⟩
    · exact hleaf

theorem AreTidy.writes (htidy : AreTidy own nodes) :
    ∀ i ∈ instrsAll nodes, ∀ k, i.target? = some (.temporary k) → own k := by
  induction nodes using guard_induction with
  | nil => nofun
  | guarded conditions children location index rest ih ihRest =>
    rw [instrsAll_cons, instrs_guarded]
    exact forall_mem_append.mpr ⟨ih htidy.1.2, ihRest htidy.2⟩
  | leaf instr children location index rest hleaf ihRest =>
    rw [AreTidy, IsTidy] at htidy
    · rw [instrsAll_cons, instrs_leaf hleaf]
      exact forall_mem_append.mpr ⟨forall_mem_singleton.mpr htidy.1, ihRest htidy.2⟩
    · exact hleaf

theorem IsHarmless.isTidy {node : Node} (h : node.IsHarmless) : IsTidy own node := by
  obtain ⟨instr, children, location, index⟩ := node
  refine isTidy_leaf ?_ (fun k hk => absurd hk (h.2 k)) children location index
  rintro conditions rfl
  exact h.1

theorem instrsAll_numberAll (next : Nat) (nodes : List Node) :
    instrsAll (numberAll next nodes).2 = instrsAll nodes := by
  induction nodes using guard_induction generalizing next with
  | nil => rfl
  | guarded conditions children location index rest ih ihRest =>
    simp only [numberAll, number, instrsAll_cons, instrs_guarded, ih, ihRest]
  | leaf instr children location index rest hleaf ihRest =>
    simp only [numberAll, number, instrsAll_cons, instrs_leaf hleaf, ihRest]

theorem AreTidy.numberAll (h : AreTidy own nodes) (next : Nat) : AreTidy own (Node.numberAll next nodes).2 := by
  induction nodes using guard_induction generalizing next with
  | nil => exact h
  | guarded conditions children location index rest ih ihRest =>
    obtain ⟨⟨hguard, hchildren⟩, hrest⟩ := h
    refine ⟨⟨hguard.imp ?_ ?_, ih hchildren _⟩, ihRest hrest _⟩
    · rintro ⟨cell, routine, hcond, hcalls⟩
      exact ⟨cell, routine, hcond, (instrsAll_numberAll _ _).trans hcalls⟩
    · rintro ⟨negate, k, hcond, hown, hwrites⟩
      exact ⟨negate, k, hcond, hown, (instrsAll_numberAll _ _).symm ▸ hwrites⟩
  | leaf instr children location index rest hleaf ihRest =>
    rw [AreTidy, IsTidy] at h
    · exact ⟨isTidy_leaf hleaf h.1 _ _ _, ihRest h.2 _⟩
    · exact hleaf

end Node

/-- Whether given temporaries of the routines of a program, which no two of them share, are all that they write
and all that their branches are decided by. -/
def Program.Divided (p : Program) (owners : List (Routine × (Nat → Prop))) : Prop :=
  p.routines = owners.map (·.1) ∧ (∀ e ∈ owners, AreTidy e.2 e.1.body) ∧
    owners.Pairwise fun a b => ∀ k, a.2 k → ¬ b.2 k

inductive Program.Group (p : Program) (r : Routine) : List Node → Prop
  | whole : p.routine? r.name = some r → Group p r r.body
  | inner {nodes : List Node} {conditions : List Condition} {children : List Node}
      {location : Option Span} {index : Option Nat} : Group p r nodes →
      ⟨.guarded conditions, children, location, index⟩ ∈ nodes → Group p r children

def Node.isElseOf (conditions : List Condition) (node : Node) : Bool :=
  match node.instr with
  | .guarded others => others == conditions.map (·.negated)
  | _ => false

/-- The commands below a condition after which the condition is tested again, be it for a command of the same
branch or for the branch that runs otherwise. -/
def Node.exposed (conditions : List Condition) (children after : List Node) : List Instr :=
  if after.any (isElseOf conditions) then instrsAll children else (instrsAll children).dropLast

theorem Node.mem_exposed_of_dropLast {conditions : List Condition} {children : List Node}
    (h : i ∈ (instrsAll children).dropLast) : i ∈ exposed conditions children after := by
  rw [exposed]
  split
  · exact mem_of_mem_dropLast h
  · exact h

namespace Program

/-- Whether no routine is entered again from a command below one of its conditions after which the condition is
tested again. -/
def NoReentry (p : Program) : Prop :=
  ∀ r nodes, p.Group r nodes → ∀ before conditions children location index after,
    nodes = before ++ ⟨.guarded conditions, children, location, index⟩ :: after →
      ∀ callee, .call callee ∈ Node.exposed conditions children after → ¬ p.Leads callee r.name

variable {p : Program} {owners : List (Routine × (Nat → Prop))} {r : Routine} {nodes : List Node}

theorem rank_le_of_leads {rank : String → Nat}
    (hcalls : ∀ r ∈ p.routines, ∀ callee ∈ r.calls, rank callee ≤ rank r.name)
    {a b : String} (h : p.Leads a b) : rank b ≤ rank a := by
  induction h with
  | refl => exact .refl
  | tail _ hlast ih =>
    obtain ⟨r, hr, hcallee⟩ := hlast
    rw [← name_of_routine? hr] at ih
    exact (hcalls r (mem_of_find?_eq_some hr) _ hcallee).trans ih

theorem instr_of_group (h : p.Group r nodes) : ∀ i ∈ Node.instrsAll nodes, i ∈ Node.instrsAll r.body := by
  induction h with
  | whole _ => exact fun _ => id
  | inner _ hmem ih =>
    intro i hi
    refine ih i ?_
    obtain ⟨before, after, rfl⟩ := append_of_mem hmem
    simp [hi]

theorem routine?_of_group (h : p.Group r nodes) : p.routine? r.name = some r := by
  induction h with
  | whole hr => exact hr
  | inner _ _ ih => exact ih

theorem NoReentry.of_rank (rank : String → Nat)
    (hcalls : ∀ r ∈ p.routines, ∀ callee ∈ r.calls, rank callee < rank r.name) : p.NoReentry := by
  intro r nodes hgroup before conditions children location index after hsplit callee hcallee hleads
  have hchild : .call callee ∈ Node.instrsAll children := by
    rw [Node.exposed] at hcallee
    split at hcallee
    · exact hcallee
    · exact mem_of_mem_dropLast hcallee
  have hbody : .call callee ∈ Node.instrsAll r.body :=
    instr_of_group hgroup _ (by simp [hsplit, hchild])
  have hr : r ∈ p.routines := mem_of_find?_eq_some (routine?_of_group hgroup)
  have hlt := hcalls r hr callee (mem_callsAll_of_instrsAll hbody)
  have hle := rank_le_of_leads (fun r hr callee hcallee => Nat.le_of_lt (hcalls r hr callee hcallee)) hleads
  omega

section

variable (hp : p.Divided owners) {k : Nat}

include hp

theorem Divided.writer_eq {e : Routine × (Nat → Prop)} (he : e ∈ owners)
    (hown : e.2 k) {writer : String} (h : p.Writes writer k) : writer = e.1.name := by
  obtain ⟨r, hr, i, hi, htarget⟩ := h
  have hmem : r ∈ owners.map (·.1) := hp.1 ▸ mem_of_find?_eq_some hr
  obtain ⟨e', he', rfl⟩ := mem_map.mp hmem
  have hown' : e'.2 k := (hp.2.1 e' he').writes i hi k htarget
  have : Std.Symm fun a b : Routine × (Nat → Prop) => ∀ k, a.2 k → ¬ b.2 k :=
    ⟨fun a b hab j hb ha => hab j ha hb⟩
  by_cases heq : e' = e
  · rw [← heq]
    exact (name_of_routine? hr).symm
  · exact absurd hown (hp.2.2.forall he' he heq k hown')

theorem Divided.tidy_of_routine? {name : String} (hr : p.routine? name = some r) :
    ∃ own, (r, own) ∈ owners ∧ AreTidy own r.body := by
  have hmem : r ∈ owners.map (·.1) := hp.1 ▸ mem_of_find?_eq_some hr
  obtain ⟨e, he, rfl⟩ := mem_map.mp hmem
  exact ⟨e.2, he, hp.2.1 e he⟩

theorem Divided.spares (hr : (r, own) ∈ owners) {negate : Bool} (hown : own k)
    (htarget : i.target? ≠ some (.temporary k))
    (hcall : ∀ callee, i = .call callee → ¬ p.Leads callee r.name) : p.Spares (.onTemporary negate k) i := by
  refine ⟨negate, k, rfl, htarget, fun callee hi htouches => ?_⟩
  obtain ⟨writer, hleads, hwrites⟩ := htouches
  obtain rfl : writer = r.name := hp.writer_eq hr hown hwrites
  exact hcall callee hi hleads

theorem Divided.areSteady (hentry : p.NoReentry) (hr : (r, own) ∈ owners)
    (hgroup : p.Group r nodes) (htidy : AreTidy own nodes) : p.AreSteady nodes := by
  suffices h : ∀ group, p.Group r group → nodes ⊆ group → p.AreSteady nodes from h nodes hgroup (List.Subset.refl _)
  clear hgroup
  induction nodes using guard_induction with
  | nil => exact fun _ _ _ => trivial
  | guarded conditions children location index rest ih ihRest =>
    intro group hgroup hsub
    obtain ⟨hmem, hsub⟩ := cons_subset.mp hsub
    obtain ⟨⟨hguard, hchildren⟩, hrest⟩ := htidy
    refine ⟨⟨fun c hc i hi => ?_, ih hchildren children (hgroup.inner hmem) (List.Subset.refl _)⟩,
      ihRest hrest group hgroup hsub⟩
    obtain ⟨cell, routine, -, hcalls⟩ | ⟨negate, k, rfl, hown, hwrites⟩ := hguard
    · rw [hcalls] at hi
      cases hi
    · cases mem_singleton.mp hc
      obtain ⟨before, after, hsplit⟩ := append_of_mem hmem
      refine hp.spares hr hown (hwrites i (mem_of_mem_dropLast hi)) ?_
      rintro callee rfl
      exact hentry r group hgroup before _ children location index after hsplit callee
        (mem_exposed_of_dropLast hi)
  | leaf instr children location index rest hleaf ihRest =>
    intro group hgroup hsub
    exact ⟨p.isSteady_leaf hleaf children location index, ihRest htidy.2 group hgroup (cons_subset.mp hsub).2⟩

theorem Divided.steady (hentry : p.NoReentry) : p.Steady := by
  intro name r hr
  obtain ⟨own, hmem, htidy⟩ := hp.tidy_of_routine? hr
  exact hp.areSteady hentry hmem (.whole ((name_of_routine? hr).symm ▸ hr)) htidy

theorem Divided.areTidy_of_group (hgroup : p.Group r nodes) : ∃ own, (r, own) ∈ owners ∧ AreTidy own nodes := by
  induction hgroup with
  | whole hr => exact hp.tidy_of_routine? hr
  | inner _ hmem ih =>
    obtain ⟨own, hown, htidy⟩ := ih
    have hnode := areTidy_iff.mp htidy _ hmem
    exact ⟨own, hown, hnode.2⟩

theorem Divided.spares_of_else (hentry : p.NoReentry)
    (hgroup : p.Group r (before ++ ⟨.guarded [c], onTrue, locations.1, indices.1⟩ ::
      (between ++ ⟨.guarded [c.negated], onFalse, locations.2, indices.2⟩ :: after))) :
    ∃ negate k, c = .onTemporary negate k ∧ ∀ i ∈ Node.instrsAll onTrue, p.Spares c i := by
  obtain ⟨own, hr, htidy⟩ := hp.areTidy_of_group hgroup
  simp only [areTidy_append, AreTidy] at htidy
  obtain ⟨-, ⟨hthen, -⟩, -, ⟨helse, -⟩, -⟩ := htidy
  have hexposed : ∀ callee, .call callee ∈ Node.instrsAll onTrue → ¬ p.Leads callee r.name := by
    intro callee hcallee
    refine hentry r _ hgroup before [c] onTrue locations.1 indices.1 _ rfl callee ?_
    rw [Node.exposed, if_pos]
    · exact hcallee
    · simp [Node.isElseOf]
  obtain ⟨cell, routine, hcond, hcalls⟩ | ⟨negate, k, hcond, hown, hwrites⟩ := hthen
  · obtain ⟨cell', routine', hcond', -⟩ | ⟨negate, k, hcond', hown, -⟩ := helse
    · -- two checks never have opposite conditions
      rcases hcond with hcond | hcond <;> rcases hcond' with hcond' | hcond' <;>
        cases singleton_inj.mp hcond <;>
        simp [Condition.isTrue, Condition.negated] at hcond'
    · have hc : c = .onTemporary (!negate) k := by
        obtain ⟨negate', test⟩ := c
        have hneg := congrArg Condition.negated (singleton_inj.mp hcond')
        simpa [Condition.negated, Condition.onTemporary] using hneg
      refine ⟨!negate, k, hc, fun i hi => ?_⟩
      rw [hcalls, mem_singleton] at hi
      subst hi hc
      refine hp.spares hr hown (by simp [Instr.target?]) ?_
      rintro callee heq
      cases heq
      exact hexposed _ (hcalls ▸ mem_cons_self)
  · cases singleton_inj.mp hcond
    refine ⟨negate, k, rfl, fun i hi => hp.spares hr hown (hwrites i hi) ?_⟩
    rintro callee rfl
    exact hexposed callee hi

end

theorem instr_of_harmless (h : ∀ node ∈ nodes, node.IsHarmless) :
    ∀ i ∈ Node.instrsAll nodes, i.IsPlain ∧ ∀ k, i.target? ≠ some (.temporary k) := by
  induction nodes with
  | nil =>
    intro i hi
    simp at hi
  | cons node rest ih =>
    obtain ⟨instr, children, location, index⟩ := node
    have hnode := h _ (.head _)
    intro i hi
    rw [instrsAll_cons, instrs_leaf (by rintro conditions rfl; exact hnode.1)] at hi
    cases mem_cons.mp hi with
    | inl hi => exact hi ▸ hnode
    | inr hi => exact ih (fun n hn => h n (.tail _ hn)) i hi

variable {World : Type} {engine : Engine World}

/-- Of two branches with opposite conditions exactly one runs, and all of it: the first if the condition holds
when it is first tested, otherwise the second. -/
theorem Divided.execLines_branches (hp : p.Divided owners) (hentry : p.NoReentry) (hraw : engine.KeepsTemporaries)
    (hgroup : p.Group r (before ++ ⟨.guarded [c], onTrue, locations.1, indices.1⟩ ::
      (between ++ ⟨.guarded [c.negated], onFalse, locations.2, indices.2⟩ :: after)))
    (hbetween : ∀ node ∈ between, node.IsHarmless) (depth : Nat) (m : Machine World) :
    engine.execLines (p.runLines engine depth)
        (Node.linesAll (⟨.guarded [c], onTrue, locations.1, indices.1⟩ ::
          (between ++ [⟨.guarded [c.negated], onFalse, locations.2, indices.2⟩]))) m =
      if engine.holds m c then engine.execAll (p.run engine depth) (onTrue ++ between) m
      else engine.execAll (p.run engine depth) (between ++ onFalse) m := by
  have hsteady : p.AreSteady (⟨.guarded [c], onTrue, locations.1, indices.1⟩ ::
      (between ++ [⟨.guarded [c.negated], onFalse, locations.2, indices.2⟩])) := by
    obtain ⟨own, hr, htidy⟩ := hp.areTidy_of_group hgroup
    have hall := areSteady_iff.mp (hp.areSteady hentry hr hgroup htidy)
    refine areSteady_iff.mpr fun node hnode => hall node ?_
    simp only [mem_append, mem_cons, not_mem_nil, or_false] at hnode ⊢
    rcases hnode with h | h | h
    · exact .inr (.inl h)
    · exact .inr (.inr (.inl h))
    · exact .inr (.inr (.inr (.inl h)))
  obtain ⟨negate, k, rfl, hspares⟩ := hp.spares_of_else hentry hgroup
  -- neither the first branch nor what stands between the two changes the condition
  have hfirst : ∀ {n n' : Machine World}, engine.execAll (p.run engine depth) onTrue n = some n' →
      engine.holds n' (.onTemporary negate k) = engine.holds n (.onTemporary negate k) := by
    intro n n' hexec
    refine holds_onTemporary_congr (execAll_keeps_temporary hraw (fun i hi => ?_) hexec) _
    obtain ⟨negate', k', hcond, htarget, hcall⟩ := hspares i hi
    obtain rfl : k = k' := by
      simp only [Condition.onTemporary, Condition.mk.injEq, Test.range.injEq] at hcond
      exact Cell.temporary_injective hcond.2.1
    exact ⟨htarget, fun callee hi _ _ hrun => run_keeps_temporary hraw (hcall callee hi) depth hrun⟩
  have hsecond : ∀ {n n' : Machine World}, engine.execAll (p.run engine depth) between n = some n' →
      engine.holds n' (.onTemporary negate k) = engine.holds n (.onTemporary negate k) := by
    intro n n' hexec
    refine holds_onTemporary_congr (execAll_keeps_temporary hraw (fun i hi => ?_) hexec) _
    obtain ⟨hplain, htarget⟩ := instr_of_harmless hbetween i hi
    refine ⟨htarget k, ?_⟩
    rintro callee rfl
    exact hplain.elim
  rw [runLines_eq_run hraw (hp.steady hentry), execLines_eq_execAll hraw depth hsteady, Engine.execAll,
    exec_guarded]
  by_cases hholds : engine.holds m (.onTemporary negate k) = true
  · rw [if_pos hholds, if_pos (by simpa [Engine.holdsAll] using hholds), execAll_append]
    cases htrue : engine.execAll (p.run engine depth) onTrue m with
    | none => rfl
    | some m1 =>
      rw [Option.bind_some, Option.bind_some, execAll_append]
      cases hmiddle : engine.execAll (p.run engine depth) between m1 with
      | none => rfl
      | some m2 =>
        have hkept : engine.holds m2 (.onTemporary negate k) = true := by
          rw [hsecond hmiddle, hfirst htrue, hholds]
        rw [Option.bind_some, Engine.execAll, exec_guarded, holdsAll_negated, hkept]
        rfl
  · rw [if_neg hholds, if_neg (by simpa [Engine.holdsAll] using hholds), Option.bind_some,
      execAll_append, execAll_append]
    cases hmiddle : engine.execAll (p.run engine depth) between m with
    | none => rfl
    | some m2 =>
      have hkept : engine.holds m2 (.onTemporary negate k) = false := by
        rw [hsecond hmiddle]
        simpa using hholds
      rw [Option.bind_some, Option.bind_some, Engine.execAll, exec_guarded, holdsAll_negated, hkept]
      cases engine.execAll (p.run engine depth) onFalse m2 <;> rfl

end Program

end Datapack
