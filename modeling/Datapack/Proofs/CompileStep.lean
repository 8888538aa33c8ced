import Datapack.Compile.Script
import Datapack.Proofs.Address
import Mathlib.Data.List.Nodup
import Mathlib.Data.List.Perm.Subperm
import Mathlib.Logic.Basic

/-!
Successful steps of a compilation, taken apart. A step that is made of others succeeds if and only if these
do, one after the other, each on the state that the one before left.
-/

namespace Datapack

open List Compile

variable {e e' e'' : Emission} {i : Instr} {u : PUnit} {env : Environment} {body : Compile Unit} {name : String}
  {α β : Type}

def Emit.Yields (op : Emit α) (e : Emission) (a : α) (e' : Emission) : Prop := op e = (a, e')

def TryEmit.Yields (op : TryEmit α) (e : Emission) (a : α) (e' : Emission) : Prop :=
  op.run e = (.ok a, e')

def Compile.Yields (step : Compile α) (env : Environment) (s : CompilerState) (a : α)
    (s' : CompilerState) : Prop :=
  (step env).run s = (.ok a, s')

namespace Emit

@[simp] theorem yields_pure {a b : α} : Yields (pure a) e b e' ↔ a = b ∧ e = e' := by
  change (a, e) = (b, e') ↔ _
  rw [Prod.mk.injEq]

@[simp] theorem yields_bind {op : Emit α} {f : α → Emit β} {b : β} :
    Yields (op >>= f) e b e'' ↔ ∃ a e', Yields op e a e' ∧ Yields (f a) e' b e'' := by
  change f (op e).1 (op e).2 = _ ↔ _
  constructor
  · intro h
    exact ⟨(op e).1, (op e).2, rfl, h⟩
  · rintro ⟨a, e', hop, hf⟩
    rw [Yields] at hop
    rw [hop]
    exact hf

@[simp] theorem yields_instr {u : Unit} : Yields (instr i) e u e' ↔ e' = { e with instrs := e.instrs.push i } := by
  change ((), { e with instrs := e.instrs.push i }) = (u, e') ↔ _
  rw [Prod.mk.injEq, eq_comm, @eq_comm _ e']
  simp

@[simp] theorem yields_freshCell {c : Cell} :
    Yields freshCell e c e' ↔
      c = .temporary e.nextTemporary ∧ e' = { e with nextTemporary := e.nextTemporary + 1 } := by
  change (Cell.temporary e.nextTemporary, { e with nextTemporary := e.nextTemporary + 1 }) = (c, e') ↔ _
  rw [Prod.mk.injEq, eq_comm, @eq_comm _ e']

@[simp] theorem yields_freshPath {p : Path} :
    Yields freshPath e p e' ↔
      p = .temporary e.nextTemporary ∧ e' = { e with nextTemporary := e.nextTemporary + 1 } := by
  change (Path.temporary e.nextTemporary, { e with nextTemporary := e.nextTemporary + 1 }) = (p, e') ↔ _
  rw [Prod.mk.injEq, eq_comm, @eq_comm _ e']

end Emit

namespace TryEmit

variable {a : α}

@[simp] theorem yields_pure {a b : α} : Yields (pure a) e b e' ↔ a = b ∧ e = e' := by
  change (Except.ok a, e) = (Except.ok b, e') ↔ _
  rw [Prod.mk.injEq, Except.ok.injEq]

@[simp] theorem not_yields_throw {error : ValueError} : ¬ Yields (throw error) e a e' := by
  change ¬ (Except.error error, e) = (Except.ok a, e')
  simp

@[simp] theorem yields_bind {op : TryEmit α} {f : α → TryEmit β} {b : β} :
    Yields (op >>= f) e b e'' ↔ ∃ a e', Yields op e a e' ∧ Yields (f a) e' b e'' := by
  have hbind : (op >>= f).run e = match op.run e with
      | (.ok a, e') => (f a).run e'
      | (.error error, e') => (.error error, e') := by
    change ExceptT.bindCont f (op.run e).1 (op.run e).2 = _
    obtain ⟨outcome, e'⟩ := op.run e
    cases outcome <;> rfl
  rw [Yields, hbind]
  constructor
  · intro h
    split at h
    next a e' hop => exact ⟨a, e', hop, h⟩
    next => cases h
  · rintro ⟨a, e', hop, hf⟩
    rw [Yields] at hop
    rw [hop]
    exact hf

@[simp] theorem yields_lift {op : Emit α} : Yields (liftM op) e a e' ↔ Emit.Yields op e a e' := by
  change (Except.ok (op e).1, (op e).2) = (Except.ok a, e') ↔ op e = (a, e')
  rw [Prod.mk.injEq, Except.ok.injEq, Prod.ext_iff]

end TryEmit

namespace Compile

variable {s s' : CompilerState} {a : α} {span : Span} {body : Compile α} {b : β} {step : Compile α} {u : Unit}
  {op : TryEmit α}

@[simp] theorem yields_pure {a b : α} : Yields (pure a) env s b s' ↔ a = b ∧ s = s' := by
  change (Except.ok a, s) = (Except.ok b, s') ↔ _
  rw [Prod.mk.injEq, Except.ok.injEq]

@[simp] theorem not_yields_fail {fault : CompileFault} : ¬ Yields (fail fault span) env s a s' := by
  change ¬ (Except.error (CompileError.mk fault span), s) = (Except.ok a, s')
  simp

theorem run_bind (step : Compile α) (f : α → Compile β) :
    ((step >>= f) env).run s = match (step env).run s with
      | (.ok a, s') => ((f a) env).run s'
      | (.error error, s') => (.error error, s') := by
  change ExceptT.bindCont (fun a => f a env) ((step env).run s).1 ((step env).run s).2 = _
  obtain ⟨outcome, s'⟩ := (step env).run s
  cases outcome <;> rfl

@[simp] theorem yields_bind {f : α → Compile β} {s'' : CompilerState} :
    Yields (step >>= f) env s b s'' ↔ ∃ a s', Yields step env s a s' ∧ Yields (f a) env s' b s'' := by
  rw [Yields, run_bind]
  constructor
  · intro h
    split at h
    next a s' hstep => exact ⟨a, s', hstep, h⟩
    next => cases h
  · rintro ⟨a, s', hstep, hf⟩
    rw [Yields] at hstep
    rw [hstep]
    exact hf

@[simp] theorem yields_get {a : CompilerState} : Yields get env s a s' ↔ s = a ∧ s = s' := by
  change (Except.ok s, s) = (Except.ok a, s') ↔ _
  rw [Prod.mk.injEq, Except.ok.injEq]

@[simp] theorem yields_read {a : Environment} : Yields read env s a s' ↔ env = a ∧ s = s' := by
  change (Except.ok env, s) = (Except.ok a, s') ↔ _
  rw [Prod.mk.injEq, Except.ok.injEq]

@[simp] theorem yields_modify {f : CompilerState → CompilerState} {u : PUnit} :
    Yields (modify f) env s u s' ↔ s' = f s := by
  change (Except.ok PUnit.unit, f s) = (Except.ok u, s') ↔ _
  rw [Prod.mk.injEq, eq_comm, @eq_comm _ (f s)]
  simp

@[simp] theorem yields_modifyGet {f : CompilerState → α × CompilerState} :
    Yields (modifyGet f) env s a s' ↔ a = (f s).1 ∧ s' = (f s).2 := by
  change (Except.ok (f s).1, (f s).2) = (Except.ok a, s') ↔ _
  rw [Prod.mk.injEq, Except.ok.injEq, eq_comm, @eq_comm _ (f s).2]

@[simp] theorem yields_map {f : α → β} : Yields (f <$> step) env s b s' ↔ ∃ a, Yields step env s a s' ∧ f a = b := by
  rw [← bind_pure_comp, yields_bind]
  constructor
  · rintro ⟨a, s1, hstep, hpure⟩
    obtain ⟨rfl, rfl⟩ := yields_pure.mp hpure
    exact ⟨a, hstep, rfl⟩
  · rintro ⟨a, hstep, rfl⟩
    exact ⟨a, s', hstep, yields_pure.mpr ⟨rfl, rfl⟩⟩

@[simp] theorem yields_discard {u : PUnit} : Yields (discard step) env s u s' ↔ ∃ a, Yields step env s a s' := by
  rw [Functor.discard, Functor.mapConst]
  exact yields_map.trans (exists_congr fun a => and_iff_left rfl)

theorem yields_ite {c : Prop} [Decidable c] {yes no : Compile α} :
    Yields (if c then yes else no) env s a s' ↔
      (c ∧ Yields yes env s a s') ∨ (¬ c ∧ Yields no env s a s') := by
  split <;> simp [*]

@[simp] theorem yields_orFail {outcome : Except CompileFault α} :
    Yields (orFail span outcome) env s a s' ↔ outcome = .ok a ∧ s = s' := by
  cases outcome with
  | ok b => simp [orFail]
  | error fault => simp [orFail]

@[simp] theorem yields_frames {fs : Frames} : Yields frames env s fs s' ↔ s.frames = fs ∧ s = s' := by
  simp only [frames, yields_bind, yields_get, yields_pure]
  constructor
  · rintro ⟨_, _, ⟨rfl, rfl⟩, rfl, rfl⟩
    exact ⟨rfl, rfl⟩
  · rintro ⟨rfl, rfl⟩
    exact ⟨_, _, ⟨rfl, rfl⟩, rfl, rfl⟩

@[simp] theorem yields_modifyFrames {f : Frames → Frames} :
    Yields (modifyFrames f) env s u s' ↔ s' = { s with frames := f s.frames } := by
  simp [modifyFrames]

def located (s : CompilerState) (node : Node) : Node :=
  { node with location := some (node.location.getD s.location) }

@[simp] theorem yields_emitNode {node : Node} :
    Yields (emitNode node) env s u s' ↔ s' = { s with draft := s.draft.append (located s node) } := by
  simp [emitNode, located]

@[simp] theorem yields_emit :
    Yields (emit i) env s u s' ↔ s' = { s with draft := s.draft.append (located s (.leaf i)) } := by
  simp [emit]

@[simp] theorem yields_emitting {op : Emit α} : Yields (emitting op) env s a s' ↔
      ∃ e, op.Yields { nextTemporary := s.nextTemporary } a e ∧ s' = absorb e s := by
  rw [emitting, yields_modifyGet]
  change a = (op { nextTemporary := s.nextTemporary }).1 ∧
    s' = absorb (op { nextTemporary := s.nextTemporary }).2 s ↔ _
  constructor
  · rintro ⟨rfl, rfl⟩
    exact ⟨_, rfl, rfl⟩
  · rintro ⟨e, hop, rfl⟩
    rw [Emit.Yields] at hop
    rw [hop]
    exact ⟨rfl, rfl⟩

@[simp] theorem yields_tryEmitting : Yields (tryEmitting span op) env s a s' ↔
      ∃ e, op.Yields { nextTemporary := s.nextTemporary } a e ∧ s' = absorb e s := by
  rw [tryEmitting, yields_bind]
  constructor
  · rintro ⟨outcome, s1, hop, hmatch⟩
    obtain ⟨e, he, rfl⟩ := yields_emitting.mp hop
    cases outcome with
    | ok b =>
      obtain ⟨rfl, rfl⟩ := yields_pure.mp hmatch
      exact ⟨e, he, rfl⟩
    | error error => exact absurd hmatch not_yields_fail
  · rintro ⟨e, he, rfl⟩
    exact ⟨.ok a, absorb e s, yields_emitting.mpr ⟨e, he, rfl⟩, yields_pure.mpr ⟨rfl, rfl⟩⟩

theorem run_tryEmitting : ((tryEmitting span op) env).run s = match op.run { nextTemporary := s.nextTemporary } with
      | (.ok a, e) => (.ok a, absorb e s)
      | (.error error, e) => (.error ⟨.value error, span⟩, absorb e s) := by
  have hrun : ((emitting op.run) env).run s = (.ok (op.run { nextTemporary := s.nextTemporary }).1,
    absorb (op.run { nextTemporary := s.nextTemporary }).2 s) := rfl
  rw [tryEmitting, run_bind, hrun]
  obtain ⟨outcome, e⟩ := op.run { nextTemporary := s.nextTemporary }
  cases outcome <;> rfl

theorem yields_bracket {opening closing : CompilerState → CompilerState} :
    Yields (bracket opening closing body) env s a s' ↔
      ∃ s1, Yields body env (opening s) a s1 ∧ s' = closing s1 := by
  change (((body env).run (opening s)).1, closing ((body env).run (opening s)).2) = (.ok a, s') ↔ _
  rw [Prod.mk.injEq]
  constructor
  · rintro ⟨hok, rfl⟩
    exact ⟨_, Prod.ext hok rfl, rfl⟩
  · rintro ⟨s1, hbody, rfl⟩
    rw [Yields] at hbody
    rw [hbody]
    exact ⟨rfl, rfl⟩

theorem run_inBuffer {body : Compile Unit} :
    ((inBuffer body) env).run s = match (body env).run { s with draft := s.draft.push } with
      | (.ok _, s1) => (.ok s1.draft.pop.1.toList, { s1 with draft := s1.draft.pop.2 })
      | (.error error, s1) => (.error error, { s1 with draft := s1.draft.pop.2 }) := by
  have hrun : ((inBuffer body) env).run s =
      (((body env).run { s with draft := s.draft.push }).1.map fun _ =>
          ((body env).run { s with draft := s.draft.push }).2.draft.pop.1.toList,
        { ((body env).run { s with draft := s.draft.push }).2 with
          draft := ((body env).run { s with draft := s.draft.push }).2.draft.pop.2 }) := rfl
  rw [hrun]
  obtain ⟨outcome, s1⟩ := (body env).run { s with draft := s.draft.push }
  cases outcome <;> rfl

theorem yields_inBuffer {body : Compile Unit} {nodes : List Node} :
    Yields (inBuffer body) env s nodes s' ↔
      ∃ s1, Yields body env { s with draft := s.draft.push } () s1 ∧
        nodes = s1.draft.pop.1.toList ∧ s' = { s1 with draft := s1.draft.pop.2 } := by
  rw [Yields, run_inBuffer]
  constructor
  · intro h
    split at h
    next _ s1 hbody =>
      obtain ⟨hnodes, hs'⟩ := Prod.mk.inj h
      exact ⟨s1, hbody, (Except.ok.inj hnodes).symm, hs'.symm⟩
    next => cases h
  · rintro ⟨s1, hbody, rfl, rfl⟩
    rw [Yields] at hbody
    rw [hbody]

theorem yields_inPrevious :
    Yields (inPrevious body) env s a s' ↔
      ∃ s1, Yields body env { s with draft := s.draft.hide } a s1 ∧
        s' = { s1 with draft := s1.draft.unhide } :=
  yields_bracket

theorem yields_inRoutine {body : Compile Unit} : Yields (inRoutine name span body) env s u s' ↔
      ∃ s1, Yields body env { s with draft := s.draft.push } () s1 ∧
        s' = { s1 with draft := s1.draft.pop.2.finish name s1.draft.pop.1.toList (some span) } := by
  simp only [inRoutine, yields_bind, yields_inBuffer, yields_modify]
  constructor
  · rintro ⟨nodes, s2, ⟨s1, hbody, rfl, rfl⟩, rfl⟩
    exact ⟨s1, hbody, rfl⟩
  · rintro ⟨s1, hbody, rfl⟩
    exact ⟨_, _, ⟨s1, hbody, rfl, rfl⟩, rfl⟩

def opened (kind : ScopeKind) (scope : Span) (s : CompilerState) : CompilerState :=
  { s with
    frames := (s.frames.push kind scope).modifyTop fun f => { f with bufferDepth := s.draft.depth } }

theorem yields_inFrame {kind : ScopeKind} {scope : Span} :
    Yields (inFrame kind scope body) env s a s' ↔
      ∃ s1, Yields body env (opened kind scope s) a s1 ∧
        s' = { s1 with frames := s1.frames.pop.2 } :=
  yields_bracket

theorem yields_atLocation :
    Yields (atLocation span body) env s a s' ↔
      ∃ s1, Yields body env { s with location := span } a s1 ∧
        s' = { s1 with location := s.location } := by
  simp only [atLocation, yields_bind, yields_get, yields_bracket]
  constructor
  · rintro ⟨_, _, ⟨rfl, rfl⟩, s1, hbody, rfl⟩
    exact ⟨s1, hbody, rfl⟩
  · rintro ⟨s1, hbody, rfl⟩
    exact ⟨_, _, ⟨rfl, rfl⟩, s1, hbody, rfl⟩

theorem unusedName_notMem (base : String) (used : List String) : unusedName base used ∉ used := by
  have hdistinct : (base :: (List.range used.length).map fun n => base ++ "_" ++ toString (n + 1)).Nodup := by
    refine nodup_cons.mpr ⟨fun hmem => ?_, List.Nodup.map ?_ nodup_range⟩
    · obtain ⟨n, -, heq⟩ := mem_map.mp hmem
      have hlength := congrArg String.length heq
      simp only [String.length_append] at hlength
      have hunderscore : 0 < "_".length := by decide
      omega
    · intro j k heq
      have hlist := congrArg String.toList heq
      simp only [String.toList_append, append_assoc, append_cancel_left_eq] at hlist
      have := Cell.toString_injective (String.toList_inj.mp hlist)
      omega
  rw [unusedName]
  cases hfind : (base :: (List.range used.length).map fun n =>
      base ++ "_" ++ toString (n + 1)).find? (!used.contains ·) with
  | some name => simpa using find?_some hfind
  | none =>
    -- there is one more name than there are used ones
    have hsub : (base :: (List.range used.length).map fun n => base ++ "_" ++ toString (n + 1)) ⊆ used := by
      intro name hname
      simpa using find?_eq_none.mp hfind name hname
    have hlength := (subperm_of_subset hdistinct hsub).length_le
    simp only [length_cons, length_map, length_range] at hlength
    omega

theorem yields_freshRoutineName {base : String} :
    Yields (freshRoutineName base) env s name s' ↔
      name = unusedName base s.routineNames ∧
        s' = { s with routineNames := name :: s.routineNames } := by
  rw [freshRoutineName, yields_modifyGet]
  constructor <;>
  · rintro ⟨rfl, rfl⟩
    exact ⟨rfl, rfl⟩

end Compile

def CompilerState.start : CompilerState := { draft := Draft.push {} }

theorem Syntax.Expr.compile_call {expand : Expansion} {callee : Expr} (args : List Expr) (span : Span)
    (h : ∀ object name memberSpan, callee ≠ .member object name memberSpan) :
    (Expr.call callee args span).compile expand = (do
      let callee ← callee.compile expand
      let args ← Expr.compileAll expand args
      Compile.callValue expand callee args span) := by
  rw [Expr.compile]
  exact h

variable {script : Syntax.Script}

theorem Environment.compile_eq_ok {p : Program} : env.compile script = .ok p ↔ ∃ s,
      (Syntax.Stmt.compileAll (Compile.expandWithin Compile.expansionDepth) script.stmts).Yields
          env .start () s ∧
        ((s.draft.pop.2.finish "main" s.draft.pop.1.toList (some script.span)).finish "init"
          (Compile.initNodes env.settings s) none).program = p := by
  have hyields : env.compile script = .ok p ↔ ∃ s, (Compile.script script).Yields env {} p s :=
    ⟨fun h => ⟨_, Prod.ext h rfl⟩, fun ⟨_, h⟩ => congrArg Prod.fst h⟩
  rw [hyields]
  simp only [Compile.script, yields_bind, yields_read, yields_modify,
    yields_get, yields_pure, yields_inRoutine]
  constructor
  · rintro ⟨_, _, _, ⟨s, hrun, rfl⟩, _, _, ⟨rfl, rfl⟩, _, _, rfl, _, _, ⟨rfl, rfl⟩, hp, rfl⟩
    exact ⟨s, hrun, hp⟩
  · rintro ⟨s, hrun, hp⟩
    exact ⟨_, (), _, ⟨s, hrun, rfl⟩, _, _, ⟨rfl, rfl⟩, (), _, rfl, _, _, ⟨rfl, rfl⟩, hp, rfl⟩

theorem Environment.run_of_compile_error {error : CompileError} (h : env.compile script = .error error) : ∃ s,
      ((Syntax.Stmt.compileAll (Compile.expandWithin Compile.expansionDepth) script.stmts) env).run .start =
        (.error error, s) := by
  change ((Compile.script script env).run {}).1 = _ at h
  rw [Compile.script, run_bind, Compile.inRoutine, run_bind, run_inBuffer] at h
  cases hrun : ((Syntax.Stmt.compileAll (Compile.expandWithin Compile.expansionDepth) script.stmts) env).run .start with
  | mk outcome s =>
    dsimp only at h
    rw [CompilerState.start] at hrun
    rw [hrun] at h
    cases outcome with
    | ok _ => cases h
    | error other =>
      cases h
      exact ⟨s, rfl⟩

end Datapack
