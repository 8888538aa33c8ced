import Datapack.Proofs.Reference.Stmt
import Datapack.Proofs.Reference.Program

/-!
Constants. Every constant that a command looks at is put into its cell by `init` before anything that the script itself
does there, and nothing but `init` writes such a cell. This holds as long as `init` is not taken out of the program.
-/

namespace Datapack

open Syntax List Cell Instr

def Line.operands (line : Line) : List Cell :=
  line.guards.flatMap (fun conditions => conditions.flatMap (·.test.cells)) ++ line.instr.operands

structure Instr.Uses (known : List Int32) (i : Instr) : Prop where
  reads : ∀ v, .constant v ∈ i.operands → v ∈ known
  writes : ∀ v, i.target? ≠ some (.constant v)

structure Line.Uses (known : List Int32) (line : Line) : Prop where
  reads : ∀ v, .constant v ∈ line.operands → v ∈ known
  writes : ∀ v, line.instr.target? ≠ some (.constant v)

variable {names : Prop} {known : List Int32} {nodes body : List Node} {name? : Option String} {c : Cell} {i : Instr}

theorem Cell.Fit.ne_constant (h : c.Fit names) (v : Int32) : c ≠ .constant v := by
  obtain hvariable | ⟨k, rfl | ⟨rest, hrest⟩⟩ := h.owner
  · exact hvariable.ne_constant v
  · exact (constant_ne_temporary v k).symm
  · rintro rfl
    have hlist := congrArg String.toList hrest
    rw [name_constant] at hlist
    simp [temporary] at hlist

theorem Condition.Fit.constant_notMem {c : Condition} (h : c.Fit names) (v : Int32) : .constant v ∉ c.test.cells := by
  obtain ⟨negate, test⟩ := c
  cases test with
  | range cell =>
    have hcell := Fit.ne_constant h v
    simpa [Test.cells] using hcell.symm
  | compare a relation b =>
    have ha := Fit.ne_constant h.1 v
    have hb := Fit.ne_constant h.2 v
    simpa [Test.cells] using ⟨ha.symm, hb.symm⟩
  | predicate => simp [Test.cells]

theorem Instr.Fit.uses (h : i.Fit names known) : i.Uses known := by
  have hconditions : ∀ {conditions : List Condition} {v : Int32}, (∀ c ∈ conditions, c.Fit names) →
      .constant v ∉ conditions.flatMap (·.test.cells) := fun hall hmem => by
    obtain ⟨c, hc, hmem⟩ := mem_flatMap.mp hmem
    exact (hall c hc).constant_notMem _ hmem
  cases i with
  | setScore => exact ⟨by simp [operands], fun v heq => Fit.ne_constant h v (Option.some.inj heq)⟩
  | addScore =>
    have hcell := Fit.ne_constant h
    exact ⟨fun v hv => absurd (mem_singleton.mp hv).symm (hcell v), fun v heq => hcell v (Option.some.inj heq)⟩
  | copyScore =>
    have hsource := Fit.ne_constant h.2
    refine ⟨fun v hv => absurd (mem_singleton.mp hv).symm (hsource v), fun v heq => ?_⟩
    exact Fit.ne_constant h.1 v (Option.some.inj heq)
  | operate =>
    have htarget := Fit.ne_constant h.1
    have hsource := Fit.ne_constant h.2
    refine ⟨fun v hv => ?_, fun v heq => htarget v (Option.some.inj heq)⟩
    simp only [operands, mem_cons, not_mem_nil, or_false] at hv
    exact absurd hv (not_or.mpr ⟨(htarget v).symm, (hsource v).symm⟩)
  | operateConstant target op value =>
    have htarget := Fit.ne_constant h.1
    refine ⟨fun v hv => ?_, fun v heq => htarget v (Option.some.inj heq)⟩
    simp only [operands, mem_cons, not_mem_nil, or_false] at hv
    cases constant_injective (hv.resolve_left (htarget v).symm)
    exact h.2
  | storeCondition =>
    refine ⟨fun v hv => absurd hv (hconditions h.2), fun v heq => ?_⟩
    exact Fit.ne_constant h.1 v (Option.some.inj heq)
  | guarded => exact ⟨fun v hv => absurd hv (hconditions h), fun v heq => by cases heq⟩
  | scoreToData =>
    have hsource := Fit.ne_constant h.2
    exact ⟨fun v hv => absurd (mem_singleton.mp hv).symm (hsource v), fun v heq => by cases heq⟩
  | dataToScore => exact ⟨by simp [operands], fun v heq => Fit.ne_constant h.1 v (Option.some.inj heq)⟩
  | call | storeData | copyData | tellraw | setBlock | raw => exact ⟨by simp [operands], fun v heq => by cases heq⟩

theorem Instr.uses_merge (a b : List Condition) (ha : Uses known (.guarded a)) (hb : Uses known (.guarded b)) :
    Uses known (.guarded (a ++ b)) := by
  refine ⟨fun v hv => ?_, fun v heq => by cases heq⟩
  rw [operands, flatMap_append, mem_append] at hv
  exact hv.elim (ha.reads v) (hb.reads v)

theorem Instr.target?_of_overwrites? (h : i.overwrites? = some c) : i.target? = some c := by
  cases i <;> simp_all [overwrites?, target?]

namespace Node

theorem AllIn.uses_lines (h : AllIn (Uses known) nodes) : ∀ line ∈ linesAll nodes, line.Uses known := by
  induction nodes using guard_induction with
  | nil => nofun
  | guarded conditions children location index rest ih ihRest =>
    refine forall_mem_append.mpr ⟨fun line hline => ?_, ihRest h.2⟩
    obtain ⟨inner, hinner, rfl⟩ := mem_map.mp hline
    have huses := ih h.1.2 inner hinner
    refine ⟨fun v hv => ?_, huses.writes⟩
    simp only [Line.operands, flatMap_cons, append_assoc] at hv
    exact (mem_append.mp hv).elim (h.1.1.reads v) (huses.reads v)
  | leaf instr children location index rest hleaf ihRest =>
    refine forall_mem_append.mpr ⟨?_, ihRest h.2⟩
    rw [lines_leaf hleaf]
    exact forall_mem_singleton.mpr ⟨h.1.1.reads, h.1.1.writes⟩

/-- Whether nodes first put given constants into their cells. What follows uses no constants but known ones. -/
def Sets (known : List Int32) : List Int32 → List Node → Prop
  | [], nodes => AllIn (Uses known) nodes
  | _ :: _, [] => False
  | c :: cs, ⟨instr, children, _, _⟩ :: rest =>
    instr = .setScore (.constant c) c ∧ children = [] ∧ Sets known cs rest

variable {cs : List Int32} {c : Int32}

theorem Sets.cons_inv (h : Sets known (c :: cs) nodes) : ∃ location index rest,
    nodes = ⟨.setScore (.constant c) c, [], location, index⟩ :: rest ∧ Sets known cs rest := by
  cases nodes with
  | nil => exact h.elim
  | cons node rest =>
    obtain ⟨instr, children, location, index⟩ := node
    obtain ⟨rfl, rfl, hrest⟩ := h
    exact ⟨location, index, rest, rfl, hrest⟩

theorem Sets.linesAll_eq (h : Sets known cs nodes) : ∃ rest, (∀ line ∈ rest, line.Uses known) ∧
    linesAll nodes = cs.map (fun c => ⟨[], .setScore (.constant c) c⟩) ++ rest := by
  induction cs generalizing nodes with
  | nil => exact ⟨linesAll nodes, AllIn.uses_lines h, rfl⟩
  | cons c cs ih =>
    obtain ⟨location, index, tail, rfl, htail⟩ := h.cons_inv
    obtain ⟨rest, hrest, heq⟩ := ih htail
    refine ⟨rest, hrest, ?_⟩
    rw [linesAll, heq]
    rfl

theorem Sets.not_overwritten (h : Sets known cs nodes) (hc : c ∉ cs) :
    isRedundant.overwrittenBy (.constant c) nodes.head? = false := by
  cases nodes with
  | nil => rfl
  | cons node rest =>
    obtain ⟨instr, children, location, index⟩ := node
    suffices hne : instr.overwrites? ≠ some (.constant c) by simp [isRedundant.overwrittenBy, hne]
    intro heq
    cases cs with
    | nil => exact h.1.1.writes c (target?_of_overwrites? heq)
    | cons d cs =>
      obtain ⟨rfl, -⟩ := h
      cases constant_injective (Option.some.inj heq)
      exact hc (.head _)

theorem Sets.simplifyAll (hcs : cs.Nodup) (h : Sets known cs nodes) : Sets known cs (Node.simplifyAll nodes) := by
  induction cs generalizing nodes with
  | nil => exact AllIn.simplifyAll uses_merge h
  | cons c cs ih =>
    obtain ⟨location, index, rest, rfl, hrest⟩ := h.cons_inv
    obtain ⟨hc, hcs⟩ := nodup_cons.mp hcs
    have hrest := ih hcs hrest
    have hkept : isRedundant ⟨.setScore (.constant c) c, [], location, index⟩ (Node.simplifyAll rest).head? = false :=
      hrest.not_overwritten hc
    rw [Node.simplifyAll, Node.simplify, prepend]
    simp only [Node.simplifyAll, Node.merge, hkept, Bool.false_eq_true, if_false]
    exact ⟨rfl, rfl, hrest⟩

theorem Sets.unfolded {others : List Node} (h : Sets known cs nodes) (hunfolded : Unfolded name? body nodes others)
    (hbody : AllIn (Uses known) body) : Sets known cs others := by
  induction cs generalizing nodes others with
  | nil => exact AllIn.unfolded h hunfolded hbody
  | cons c cs ih =>
    obtain ⟨location, index, rest, rfl, hrest⟩ := h.cons_inv
    cases hunfolded with
    | keep _ hchildren hunfolded =>
      cases hchildren
      exact ⟨rfl, rfl, ih hrest hunfolded⟩

theorem sets_map (h : AllIn (Uses known) nodes) :
    Sets known cs (cs.map (fun c => leaf (.setScore (.constant c) c)) ++ nodes) := by
  induction cs with
  | nil => exact h
  | cons c cs ih => exact ⟨rfl, rfl, ih⟩

end Node

def Instr.addObjective (settings : Settings) : Instr :=
  .raw ("scoreboard objectives add " ++ settings.objective ++ " dummy")

/-- Whether the body of a routine uses no constants but known ones, and, if it is that of `init`, first adds the
objective and puts all of them into their cells. -/
def Routine.Primes (settings : Settings) (known : List Int32) (name : String) (nodes : List Node) : Prop :=
  if name = "init" then
    ∃ location index rest, nodes = ⟨.addObjective settings, [], location, index⟩ :: rest ∧ Node.Sets known known rest
  else Node.AllIn (Uses known) nodes

theorem Routine.stable_primes {settings : Settings} (hknown : known.Nodup)
    (hroot : settings.optimize = false ∨ settings.isRoot "init" = true) :
    Program.Stable settings (Routine.Primes settings known) where
  simplifyAll name nodes h := by
    rw [Primes] at h ⊢
    split at h
    next hname =>
      obtain ⟨location, index, rest, rfl, hrest⟩ := h
      rw [if_pos hname]
      exact ⟨location, index, _, rfl, hrest.simplifyAll hknown⟩
    next hname =>
      rw [if_neg hname]
      exact h.simplifyAll uses_merge
  unfolded hoptimize name callee body nodes unfolded hcallee hbody h hunfolded := by
    have hother : callee ≠ "init" := by
      rintro rfl
      simp [hoptimize, hcallee] at hroot
    rw [Primes, if_neg hother] at hbody
    rw [Primes] at h ⊢
    split at h
    next hname =>
      obtain ⟨location, index, rest, rfl, hrest⟩ := h
      rw [if_pos hname]
      cases hunfolded with
      | keep _ hchildren hunfolded =>
        cases hchildren
        exact ⟨location, _, _, rfl, hrest.unfolded hunfolded hbody⟩
    next hname =>
      rw [if_neg hname]
      exact h.unfolded hunfolded hbody

namespace Environment

variable {env : Environment} {script : Script} {p q : Program} {span : Span}

theorem primes_of_compile (hp : env.compile script = .ok p) : ∃ known : List Int32, known.Nodup ∧
    ∀ r ∈ p.routines, Routine.Primes env.settings known r.name r.body := by
  obtain ⟨hready, -⟩ := ready_of_compile hp
  obtain ⟨s, hrun, rfl⟩ := Environment.compile_eq_ok.mp hp
  have hs : s.Fit False := Stmt.fit_compileAll ⟨fun _ _ => False.elim, fun _ _ => False.elim⟩ False.elim hrun
  let main := s.draft.pop.2.finish "main" s.draft.pop.1.toList (some script.span)
  have hmain : main.All (Uses s.constants) :=
    Draft.All.mono (fun _ => Fit.uses) (Draft.All.finish hs.draft.pop.1 hs.draft.pop.2)
  have hroutines : (main.finish "init" (Compile.initNodes env.settings s) none).program.routines = main.routines.toList ++
      [⟨"init", (Node.numberAll (main.nextIndex + 1) (Compile.initNodes env.settings s)).2, false, none,
        some main.nextIndex⟩] := Array.toList_push
  refine ⟨s.constants, hs.distinct, fun r hr => ?_⟩
  have hdistinct := hready.distinct
  rw [hroutines] at hr hdistinct
  rw [map_append, nodup_append] at hdistinct
  rw [Routine.Primes]
  obtain hr | hr := mem_append.mp hr
  · rw [if_neg (hdistinct.2.2 _ (mem_map_of_mem hr) _ mem_cons_self)]
    exact Node.allIn_iff.mpr (hmain.finished r hr)
  · cases mem_singleton.mp hr
    refine ⟨none, some (main.nextIndex + 1), _, rfl, (Node.sets_map ?_).unfolded (.numbered _ _) trivial⟩
    cases s.userInit with
    | none => trivial
    | some routine =>
      have huses : Uses s.constants (.call routine) := ⟨by simp [Instr.operands], fun v heq => by cases heq⟩
      exact ⟨⟨huses, trivial⟩, trivial⟩

/-- Every constant that a command of a pack looks at is filled in by `init`, which is part of the pack: it adds the
objective and then puts each constant into its cell, once and under no condition, before anything else. No other command
writes the cell of a constant, unless it is a raw one. -/
theorem constants_are_filled (hp : env.compile script = .ok p) (hq : p.optimize env.settings span = .ok q)
    (hroot : env.settings.optimize = false ∨ env.settings.isRoot "init" = true) :
    ∃ (known : List Int32) (init : Routine) (rest : List Line), known.Nodup ∧ init ∈ q.routines ∧ init.name = "init" ∧
      Node.linesAll init.body = ⟨[], .addObjective env.settings⟩ ::
        (known.map (fun c => ⟨[], .setScore (.constant c) c⟩) ++ rest) ∧
      (∀ line ∈ rest, line.Uses known) ∧
      ∀ r ∈ q.routines, r ≠ init → ∀ line ∈ Node.linesAll r.body, line.Uses known := by
  obtain ⟨known, hknown, hprimes⟩ := primes_of_compile hp
  obtain ⟨hready, hinit⟩ := ready_of_compile hp
  obtain ⟨first, hfirst, hname⟩ := List.mem_map.mp hinit
  have hprimes := (Routine.stable_primes hknown hroot).optimize hready hq hprimes
  obtain ⟨hdistinct, hroots⟩ := hready.names_optimize hq
  obtain ⟨init, hmem, hnamed⟩ := hroots first hfirst (hname.symm ▸ hroot)
  have hnamed := hnamed.trans hname
  have hbody := hprimes init hmem
  rw [Routine.Primes, if_pos hnamed] at hbody
  obtain ⟨location, index, nodes, hnodes, hsets⟩ := hbody
  obtain ⟨rest, hrest, hlines⟩ := hsets.linesAll_eq
  refine ⟨known, init, rest, hknown, hmem, hnamed, ?_, hrest, fun r hr hne => ?_⟩
  · rw [hnodes, Node.linesAll, hlines]
    rfl
  · have hother : r.name ≠ "init" := fun heq => hne (List.inj_on_of_nodup_map hdistinct hr hmem (heq.trans hnamed.symm))
    have huses := hprimes r hr
    rw [Routine.Primes, if_neg hother] at huses
    exact huses.uses_lines

end Environment

def Syntax.sevenfold : Script where
  stmts := [.expr (.call (.var "print" .zero) [.binary
    (.call (.var "int" .zero) [.call (.var "isRaining" .zero) [] .zero] .zero) .mul (.int 7 .zero) .zero] .zero) .zero]
  span := .zero

def Program.looksAt (value : Int32) (q : Program) : Bool :=
  q.routines.any fun r => (Node.linesAll r.body).any fun line => line.operands.contains (.constant value)

theorem Environment.constants_are_filled_sevenfold : ∃ q : Program, q.looksAt 7 = true ∧
    ∃ (known : List Int32) (init : Routine) (rest : List Line), known.Nodup ∧ init ∈ q.routines ∧
      Node.linesAll init.body = ⟨[], .addObjective {}⟩ ::
        (known.map (fun c => ⟨[], .setScore (.constant c) c⟩) ++ rest) ∧
      ∀ r ∈ q.routines, r ≠ init → ∀ line ∈ Node.linesAll r.body, line.Uses known := by
  have hview : (optimized ⟨⟨"", ""⟩, {}, {}, []⟩ Syntax.sevenfold).map
      (fun q => (q.names, q.looksAt 7)) = .ok (["main", "init"], true) := by
    decide +kernel
  obtain ⟨p, q, hp, hq, hview⟩ := exists_of_optimized hview
  obtain ⟨known, init, rest, hknown, hinit, -, hlines, -, hothers⟩ := constants_are_filled hp hq (Or.inr (by decide))
  exact ⟨q, (Prod.mk.inj hview).2, known, init, rest, hknown, hinit, hlines, hothers⟩

/-- If `init` is no hook, it is dropped, and the constants that commands look at are never put into their cells. -/
theorem Environment.constants_are_lost_sevenfold : ∃ p q : Program,
    Environment.compile ⟨⟨"", ""⟩, { hooks := [] }, {}, []⟩ Syntax.sevenfold = .ok p ∧
      p.optimize { hooks := [] } Syntax.sevenfold.span = .ok q ∧ q.names = ["main"] ∧ q.looksAt 7 = true := by
  have hview : (optimized ⟨⟨"", ""⟩, { hooks := [] }, {}, []⟩ Syntax.sevenfold).map
      (fun q => (q.names, q.looksAt 7)) = .ok (["main"], true) := by
    decide +kernel
  obtain ⟨p, q, hp, hq, hview⟩ := exists_of_optimized hview
  exact ⟨p, q, hp, hq, Prod.mk.inj hview⟩

end Datapack
