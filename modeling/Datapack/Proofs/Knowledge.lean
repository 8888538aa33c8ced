import Datapack.Proofs.Course.Stmt
import Datapack.Scope.Analysis

/-!
What is known of variables does not depend on how the code runs. While code that may run any number of times is
compiled, the variables of the frames around it keep what is known of them. Only arrays and structs that live at a slot
may get other parts, and the condition of a loop may expand a function that writes variables.
-/

namespace Datapack

open List

variable {var : Variable} {s' : CompilerState} {α β : Type} {env : Environment} {step : Compile α} {span : Span}
  {value : Value} {condition : Condition} {expand : Expansion} {body : Compile Unit} {signature : Signature}
  {f : α → Compile β}

def Value.hasParts : Value → Bool
  | .struct _ _ _ | .array _ => true
  | _ => false

theorem Value.eq_of_sitsAt {v v' : Value} {slot : Slot} (hparts : v.hasParts = false) (h : v.SitsAt slot)
    (h' : v'.SitsAt slot) (hkind : v.kind.accepts v'.kind = true) : v' = v := by
  cases v with
  | struct _ _ _ | array _ => cases hparts
  | structType _ _ | builtin _ | function _ => exact h.elim
  | null => cases v' <;> first | rfl | cases hkind
  | number d | fixed d | bool d | string d =>
    cases v' with
    | number d' | fixed d' | bool d' | string d' =>
      first
      | exact congrArg _ (Eq.trans h' (Eq.symm h))
      | cases hkind
    | _ => cases hkind

/-- Whether what is known of a variable stays known. Arrays and structs that live at a slot may have other parts
afterwards, which live at the parts of the slot. -/
structure Variable.Kept (var var' : Variable) : Prop where
  scope : var'.scope = var.scope
  site : var'.site = var.site
  slot : var'.slot = var.slot
  constant : var'.constant = var.constant
  value : var.slot = none ∨ var.value.hasParts = false → var'.value = var.value
  kind : var.value.kind.accepts var'.value.kind = true
  sits : ∀ slot, var.slot = some slot → var'.value.SitsAt slot

theorem Variable.Kept.trans {a b c : Variable} (hab : a.Kept b) (hbc : b.Kept c) : a.Kept c where
  scope := hbc.scope.trans hab.scope
  site := hbc.site.trans hab.site
  slot := hbc.slot.trans hab.slot
  constant := hbc.constant.trans hab.constant
  value h := by
    have hvalue := hab.value h
    refine (hbc.value ?_).trans hvalue
    rwa [hab.slot, hvalue]
  kind := Kind.accepts_trans b.value.kind_ne_any hab.kind hbc.kind
  sits slot hslot := hbc.sits slot (hab.slot.trans hslot)

theorem Variable.Persists.kept {var' : Variable} (h : var.Persists true var') (hvar : var.value.Seated var.slot)
    (hvar' : var'.value.Seated var'.slot) : var.Kept var' := by
  have hsits : ∀ slot, var.slot = some slot → var'.value.SitsAt slot := fun slot hslot =>
    (hvar'.sits slot (h.slot.trans hslot)).2
  cases hslot : var.slot with
  | none =>
    have hvalue := h.known hslot rfl
    refine ⟨h.scope, h.site, h.slot, h.constant, fun _ => hvalue, ?_, hsits⟩
    rw [hvalue]
    exact var.value.accepts_kind
  | some slot =>
    have hkind := h.kind (by simp [hslot])
    refine ⟨h.scope, h.site, h.slot, h.constant, fun hor => ?_, hkind, hsits⟩
    have hparts : var.value.hasParts = false := hor.resolve_left (by simp [hslot])
    exact Value.eq_of_sitsAt hparts (hvar.sits slot hslot).2 (hsits slot hslot) hkind

namespace CompilerState

variable {s s'' : CompilerState} {name : String}

def Keeps (s s' : CompilerState) : Prop :=
  ∀ key f name var, (key, f) ∈ s.frames.ancestors → Ordered.get? name f.vars = some var →
    ∃ f' var', (key, f') ∈ s'.frames.ancestors ∧ Ordered.get? name f'.vars = some var' ∧ var.Kept var'

theorem Keeps.trans (h : s.Keeps s') (h' : s'.Keeps s'') : s.Keeps s'' := by
  intro key f name var hf hvar
  obtain ⟨f1, var1, hf1, hvar1, hkept⟩ := h key f name var hf hvar
  obtain ⟨f2, var2, hf2, hvar2, hkept'⟩ := h' key f1 name var1 hf1 hvar1
  exact ⟨f2, var2, hf2, hvar2, hkept.trans hkept'⟩

theorem Keeps.congr {t t' : CompilerState} (h : s.Keeps s') (hframes : t.frames = s.frames)
    (hframes' : t'.frames = s'.frames) : t.Keeps t' := by
  rwa [Keeps, hframes, hframes']

section

variable (hs : s.Seated)

include hs

theorem Seated.vars {key : Nat} {f : Frame} (hf : (key, f) ∈ s.frames.ancestors)
    (hvar : Ordered.get? name f.vars = some var) : var.value.Seated var.slot := by
  obtain ⟨stack, hstack, hseated⟩ := hs.frames
  rw [hstack.ancestors_eq] at hf
  exact (hseated _ hf).vars _ (Ordered.mem_of_get? hvar)

theorem keeps_of_persist (hs' : s'.Seated)
    (h : Frames.Persist true s.frames.ancestors s'.frames.ancestors) : s.Keeps s' := by
  intro key f name var hf hvar
  obtain ⟨f', hf', hframe⟩ := h.exists_of_mem hf
  obtain ⟨var', hvar', hpersists⟩ := hframe.vars name var hvar
  exact ⟨f', var', hf', hvar', hpersists.kept (hs.vars hf hvar) (hs'.vars hf' hvar')⟩

theorem Seated.keeps (hframes : s'.frames = s.frames) : s.Keeps s' := by
  refine Keeps.congr (keeps_of_persist hs hs ?_) rfl hframes
  exact .refl true _

theorem Moves.keeps {kind : ScopeKind} {scope : Span} (hkind : kind.isStatic = false)
    (h : (Compile.opened kind scope s).Moves s') : s.Keeps { s' with frames := s'.frames.pop.2 } := by
  obtain ⟨stack, hstack, hseated⟩ := hs.frames
  obtain ⟨key, f, hopened, hf, -, hvars, hreturned, hslot⟩ := Advances.stack_opened hstack
  have hnew : f.Seated := ⟨by simp [hvars], by simp [hreturned], by simp [hslot]⟩
  obtain ⟨stack', hstack', -, hpersist⟩ := h.stack _ hopened (forall_mem_cons.mpr ⟨hnew, hseated⟩)
  have hne : stack ≠ [] := by
    rintro rfl
    simpa using hstack.current
  obtain ⟨_, _, rest, -, hrest, hpersist⟩ := hpersist.tail hne hstack'
  refine keeps_of_persist hs ((frame h).seated hs) ?_
  rw [hstack.ancestors_eq, hrest.ancestors_eq]
  simpa [hf, hkind] using hpersist

theorem keeps_of_bind (hs' : s'.Seated) (h : s.frames.bind name var = .ok s'.frames) : s.Keeps s' := by
  obtain ⟨stack, hstack, -⟩ := hs.frames
  have hstack' : (s.frames.modifyTop fun f => { f with vars := f.vars ++ [(name, var)] }).Stack _ :=
    hstack.modify s.frames.current (fun _ => rfl) fun _ => rfl
  rw [← Frames.bind_eq_ok h] at hstack'
  refine keeps_of_persist hs hs' ?_
  rw [hstack.ancestors_eq, hstack'.ancestors_eq]
  exact Frames.persist_changeAt_of_forall (fun f => f.persists_bound name var) hstack.distinct

end

end CompilerState

def Regime.calm (env : Environment) : Regime env CompilerState where
  state := id
  holds _ := True
  goes s s' := s'.frames = s.frames
  stops _ _ _ := True
  refl _ := rfl
  trans h h' := h'.trans h
  holds_of_goes _ := id
  stops_of_goes _ := id

namespace Compile

open CompilerState

variable {s : CompilerState}

/-- Whether a step leaves the frames as they are. -/
abbrev Calm (env : Environment) (s : CompilerState) (step : Compile α) : Prop :=
  (Regime.calm env).Keeps s step fun _ _ => True

theorem calm_tryEmitting {op : TryEmit α} : Calm env s (tryEmitting span op) :=
  .tryEmitting (fun _ _ _ => ⟨_, rfl, rfl, trivial⟩) fun _ _ => trivial

theorem calm_emitNode {node : Node} : Calm env s (emitNode node) := .modifyGet _ rfl rfl trivial

theorem calm_of_adds {P : Nat → α → Prop} (h : Adds (.anything env) span s step P) : Calm env s step := by
  refine .of_success (fun _ _ => trivial) fun _ a s' hstep => ?_
  have hadds := h (Nat.zero_le _)
  rw [show (step env).run s = (.ok a, s') from hstep] at hadds
  obtain ⟨e, -, rfl, -⟩ := hadds
  exact ⟨_, rfl, rfl, trivial⟩

theorem calm_readName {name : String} : Calm env s (readName name span) := by
  refine .framesBind ?_
  split
  · exact .pure trivial
  · split
    · exact .pure trivial
    · exact .fail trivial

theorem calm_method? {receiver : Value} {name : String} : Calm env s (method? receiver name) := by
  unfold method?
  split
  · exact .getBind (.pure trivial)
  · exact .pure trivial

theorem calm_receiverOf {object : Syntax.Expr} : Calm env s (receiverOf object value) := by
  unfold receiverOf
  split
  · exact .framesBind (.pure trivial)
  · exact .pure trivial

theorem calm_stableCondition {ownCell : Bool} : Calm env s (stableCondition condition ownCell) := by
  unfold stableCondition
  split
  · exact .pure trivial
  · refine .bind (P := fun _ _ => True) (.emitting fun _ _ _ => ⟨_, rfl, rfl, trivial⟩) fun _ _ _ _ => ?_
    exact .bind calm_emitNode fun _ _ _ _ => .pure trivial

theorem calm_decisionOf : Calm env s (decisionOf value span) := by
  unfold decisionOf
  split
  all_goals first | exact .pure trivial | exact .fail trivial

theorem calm_orFail {outcome : Except CompileFault α} : Calm env s (orFail span outcome) :=
  .orFail (fun _ _ => trivial) fun _ _ => trivial

/-- Whether a step would expand a function of a script: it fails for that reason where none may be expanded. -/
def Refuses (env : Environment) (s : CompilerState) (step : Compile α) : Prop :=
  ∃ name span s', (step env).run s = (.error ⟨.inlineRecursion name, span⟩, s')

/-- Whether a step leaves the frames as they are unless it expands a function. The step is also given as it is
where no function may be expanded. -/
def Spares (env : Environment) (s : CompilerState) (step plain : Compile α) : Prop :=
  ∀ a s', step.Yields env s a s' →
    (plain.Yields env s a s' ∧ s'.frames = s.frames) ∨ plain.Refuses env s

namespace Spares

theorem of_calm (h : Calm env s step) : Spares env s step step := by
  intro a s' hstep
  obtain ⟨_, rfl, hframes, -⟩ := h.of_yields trivial hstep
  exact .inl ⟨hstep, hframes⟩

theorem bind {plain : Compile α} {g : α → Compile β} (h : Spares env s step plain)
    (hf : ∀ a s', Spares env s' (f a) (g a)) : Spares env s (step >>= f) (plain >>= g) := by
  intro b s'' hbind
  obtain ⟨a, s', hstep, hrest⟩ := yields_bind.mp hbind
  obtain ⟨hplain, hframes⟩ | ⟨name, span, s1, hplain⟩ := h a s' hstep
  · have hrun : ((plain >>= g) env).run s = ((g a) env).run s' := by
      rw [run_bind, show (plain env).run s = (.ok a, s') from hplain]
    obtain ⟨hrest, hframes'⟩ | ⟨name, span, s1, hrest⟩ := hf a s' b s'' hrest
    · exact .inl ⟨yields_bind.mpr ⟨a, s', hplain, hrest⟩, hframes'.trans hframes⟩
    · exact .inr ⟨name, span, s1, hrun.trans hrest⟩
  · exact .inr ⟨name, span, s1, by rw [run_bind, hplain]⟩

theorem getBind {f g : CompilerState → Compile β} (h : Spares env s (f s) (g s)) :
    Spares env s (get >>= f) (get >>= g) := h

theorem callFunction (id : Nat) (receiver : Option Receiver) (args : List Value) :
    Spares env s (callFunction expand id receiver args span)
      (callFunction (expandWithin 0) id receiver args span) := by
  refine .getBind ?_
  cases s.functions[id]? with
  | none => exact .of_calm (.fail trivial)
  | some declared =>
    refine .bind (.of_calm (calm_of_adds (adds_matchCall (P := fun _ => True) (by simp) (by simp)))) fun matched s2 => ?_
    cases hform : declared.form with
    | inline => exact fun _ _ _ => .inr ⟨_, _, _, rfl⟩
    | plain routine paramSlots returnSlot =>
      refine .of_calm (.bind (.forM fun x _ _ _ => .forM fun v _ _ _ => ?_) fun _ _ _ _ => .bind calm_emitNode ?_)
      · exact .discard calm_tryEmitting
      · intro _ _ _ _
        split
        · exact calm_tryEmitting
        · exact .pure trivial

theorem callValue (callee : Value) (args : List Value) :
    Spares env s (callValue expand callee args span) (callValue (expandWithin 0) callee args span) := by
  cases callee with
  | builtin builtin => exact .of_calm (calm_of_adds (adds_callBuiltin (fun _ => trivial) fun _ _ => trivial))
  | function id => exact .callFunction id none args
  | structType id name => exact .of_calm (calm_of_adds (adds_construct (fun _ _ => trivial) fun _ _ _ _ _ => trivial))
  | _ => exact .of_calm (.fail trivial)

end Spares

end Compile

namespace Syntax

open Compile

mutual

theorem Expr.spares_compile (s : CompilerState) :
    ∀ e : Expr, Spares env s (e.compile expand) (e.compile (expandWithin 0))
  | .int _ _ | .decimal _ _ | .string _ _ | .bool _ _ | .null _ => .of_calm (.pure trivial)
  | .var name span => .of_calm calm_readName
  | .unary op operand span => by
    rw [Expr.compile, Expr.compile]
    exact .bind (Expr.spares_compile s operand) fun _ _ => .of_calm calm_tryEmitting
  | .binary left op right span => by
    rw [Expr.compile, Expr.compile]
    refine .bind (Expr.spares_compile s left) fun _ s' => .bind (Expr.spares_compile s' right) fun _ _ => ?_
    exact .of_calm calm_tryEmitting
  | .index base subscript span => by
    rw [Expr.compile, Expr.compile]
    refine .bind (Expr.spares_compile s base) fun _ s' => ?_
    refine .bind (Expr.spares_compile s' subscript) fun _ _ => ?_
    exact .of_calm (.bind (calm_of_adds adds_indexWord) fun _ _ _ _ => calm_orFail)
  | .member base name span => by
    rw [Expr.compile, Expr.compile]
    refine .bind (.of_calm (calm_of_adds adds_blockId?)) fun block s' => ?_
    cases block with
    | some value => exact .of_calm (.pure trivial)
    | none => exact .bind (Expr.spares_compile s' base) fun _ _ => .of_calm calm_orFail
  | .call callee args span => by
    cases callee with
    | member object name memberSpan =>
      rw [Expr.compile, Expr.compile]
      refine .bind (Expr.spares_compile s object) fun receiver s1 => ?_
      refine .bind (.of_calm calm_method?) fun id? s2 => ?_
      cases id? with
      | some id =>
        refine .bind (.of_calm calm_receiverOf) fun _ s3 => ?_
        exact .bind (Expr.spares_compileAll s3 args) fun _ _ => .callFunction _ _ _
      | none =>
        refine .bind (.of_calm calm_orFail) fun _ s3 => ?_
        exact .bind (Expr.spares_compileAll s3 args) fun _ _ => .callValue _ _
    | _ =>
      rw [Expr.compile_call args span (by simp), Expr.compile_call args span (by simp)]
      refine .bind (Expr.spares_compile s _) fun _ s1 => ?_
      exact .bind (Expr.spares_compileAll s1 args) fun _ _ => .callValue _ _
  | .array items span => by
    rw [Expr.compile, Expr.compile]
    exact .bind (Expr.spares_compileAll s items) fun _ _ => .of_calm (.pure trivial)

theorem Expr.spares_compileAll (s : CompilerState) :
    ∀ es : List Expr, Spares env s (Expr.compileAll expand es) (Expr.compileAll (expandWithin 0) es)
  | [] => .of_calm (.pure trivial)
  | e :: rest => by
    rw [Expr.compileAll, Expr.compileAll]
    refine .bind (Expr.spares_compile s e) fun _ s1 => ?_
    exact .bind (Expr.spares_compileAll s1 rest) fun _ _ => .of_calm (.pure trivial)

end

theorem Expr.spares_decide (s : CompilerState) (cond : Expr) :
    Spares env s (Compile.decide expand cond) (Compile.decide (expandWithin 0) cond) :=
  .bind (cond.spares_compile s) fun _ _ => .of_calm calm_decisionOf

theorem Expr.spares_callIf (s : CompilerState) (cond : Expr) (routine : String) :
    Spares env s (callIf expand cond routine) (callIf (expandWithin 0) cond routine) := by
  refine .getBind (.bind (cond.spares_decide s) fun decision s2 => .of_calm ?_)
  split
  · exact .pure trivial
  · exact .bind calm_emitNode fun _ _ _ _ => .pure trivial
  · exact .bind calm_emitNode fun _ _ _ _ => .pure trivial

end Syntax

namespace Compile

open Syntax CompilerState

def Keeping (env : Environment) (step : Compile α) : Prop :=
  ∀ s a s', s.Seated → step.Yields env s a s' → s.Keeps s' ∧ s'.Seated

namespace Keeping

variable {name : String}

theorem of_calm (h : ∀ s, Calm env s step) (hmeets : ∀ s, Meets env s step fun _ _ => True) : Keeping env step := by
  intro s a s' hs hstep
  obtain ⟨_, rfl, hframes, -⟩ := (h s).of_yields trivial hstep
  exact ⟨hs.keeps hframes, (hmeets s).seated hs hstep⟩

theorem pure (a : α) : Keeping env (Pure.pure a) := .of_calm (fun _ => .pure trivial) fun _ => .pure trivial

theorem bind (h : Keeping env step) (hf : ∀ a, Keeping env (f a)) : Keeping env (step >>= f) := by
  intro s b s'' hs hbind
  obtain ⟨a, s', hstep, hrest⟩ := yields_bind.mp hbind
  obtain ⟨hkeeps, hs'⟩ := h s a s' hs hstep
  obtain ⟨hkeeps', hs''⟩ := hf a s' b s'' hs' hrest
  exact ⟨hkeeps.trans hkeeps', hs''⟩

theorem inFrame {kind : ScopeKind} {scope : Span} (hkind : kind.isStatic = false)
    (h : ∀ s, Meets env s step fun _ _ => True) : Keeping env (inFrame kind scope step) := by
  intro s a s' hs hstep
  refine ⟨?_, (meets_inFrame (h _)).seated hs hstep⟩
  obtain ⟨s1, hbody, rfl⟩ := yields_inFrame.mp hstep
  exact ((h _).moves (seated_opened hs) hbody).1.keeps hs hkind

theorem emitGuarded (h : Keeping env body) : Keeping env (emitGuarded condition body) := by
  intro s u s' hs hstep
  obtain ⟨nodes, s1, hbuffer, hnode⟩ := yields_bind.mp hstep
  obtain ⟨s2, hbody, rfl, rfl⟩ := yields_inBuffer.mp hbuffer
  obtain ⟨hkeeps, hs2⟩ := h { s with draft := s.draft.push } _ s2 ⟨hs.frames, hs.functions⟩ hbody
  rw [yields_emitNode.mp hnode]
  exact ⟨hkeeps.congr rfl rfl, hs2.frames, hs2.functions⟩

theorem inRoutine (h : Keeping env body) : Keeping env (inRoutine name span body) := by
  intro s u s' hs hstep
  obtain ⟨s1, hbody, rfl⟩ := yields_inRoutine.mp hstep
  obtain ⟨hkeeps, hs1⟩ := h { s with draft := s.draft.push } _ s1 ⟨hs.frames, hs.functions⟩ hbody
  exact ⟨hkeeps.congr rfl rfl, hs1.frames, hs1.functions⟩

theorem branch {ownCell hasElse : Bool} {onTrue onFalse : ScopeKind → Compile Unit}
    (htrue : Keeping env (onTrue .conditional)) (hfalse : Keeping env (onFalse .conditional)) :
    Keeping env (branch (.tested condition ownCell) onTrue onFalse hasElse) := by
  refine .bind (.of_calm (fun _ => calm_stableCondition) fun _ => meets_stableCondition) fun c => ?_
  refine .bind (.emitGuarded htrue) fun _ => ?_
  split
  · exact .emitGuarded hfalse
  · exact .pure ()

theorem bindNew {var : Variable} (hvar : var.value.Seated var.slot) : Keeping env (bindNew name var span) := by
  intro s u s' hs hstep
  have hs' := (meets_bindNew hvar).seated hs hstep
  refine ⟨?_, hs'⟩
  obtain ⟨_, _, hframes, hbind⟩ := yields_bind.mp hstep
  obtain ⟨rfl, rfl⟩ := yields_frames.mp hframes
  split at hbind
  next frames hok =>
    cases yields_modifyFrames.mp hbind
    exact keeps_of_bind hs hs' hok
  next => exact absurd hbind not_yields_fail

theorem declare {value : Value} {constant : Bool} : Keeping env (declare name value span constant) := by
  intro s u s' hs hstep
  refine ⟨?_, meets_declare.seated hs hstep⟩
  obtain ⟨_, _, hframes, hstep⟩ := yields_bind.mp hstep
  obtain ⟨rfl, rfl⟩ := yields_frames.mp hframes
  obtain ⟨_, _, hread, hstep⟩ := yields_bind.mp hstep
  obtain ⟨rfl, rfl⟩ := yields_read.mp hread
  split at hstep
  · obtain ⟨stored, s1, hstore, hbind⟩ := yields_bind.mp hstep
    obtain ⟨hmoves, hframes, hsits, -⟩ := (meets_store (.new name) (.refl _)).moves hs hstore
    have hvar := seated_pinned (s.frames.top.isVariable_slotFor name) hsits
    exact (hs.keeps hframes).trans (bindNew hvar s1 u s' (hmoves.seated hs) hbind).1
  · obtain ⟨held, s1, hdetach, hbind⟩ := yields_bind.mp hstep
    obtain ⟨hmoves, hframes⟩ := meets_detach.moves hs hdetach
    exact (hs.keeps hframes).trans (bindNew (seated_held held) s1 u s' (hmoves.seated hs) hbind).1

theorem takeId : Keeping env (modifyGet fun s =>
    let (id, frames) := s.frames.takeId
    (id, { s with frames })) := by
  intro s id s' hs hstep
  obtain ⟨-, rfl⟩ := yields_modifyGet.mp hstep
  have hs' := (Moves.number s).seated hs
  obtain ⟨stack, hstack, -⟩ := hs.frames
  refine ⟨keeps_of_persist hs hs' ?_, hs'⟩
  rw [hstack.ancestors_eq, hstack.takeId.ancestors_eq]
  exact .refl true stack

end Keeping

theorem keeping_declarePlain {decl : Function} {routine : String} {s : CompilerState}
    (hbody : ∀ s, Meets env s body fun _ _ => True) (hs : s.Seated) (hroutine : routine ∈ s.routineNames)
    (h : (declarePlain decl signature routine body).Yields env s () s') : s.Keeps s' := by
  obtain ⟨frameId, s1, hnumber, h⟩ := yields_bind.mp h
  obtain ⟨hkeeps, hs1⟩ := Keeping.takeId s frameId s1 hs hnumber
  have hroutine : routine ∈ s1.routineNames := by
    obtain ⟨-, rfl⟩ := yields_modifyGet.mp hnumber
    exact hroutine
  obtain ⟨id, s2, hregister, h⟩ := yields_bind.mp h
  have hs2 := (meets_registerFunction (seated_plain hroutine _ _ _)).seated hs1 hregister
  have hframes : s2.frames = s1.frames := by
    obtain ⟨-, rfl⟩ := yields_modifyGet.mp hregister
    rfl
  refine hkeeps.trans ((hs1.keeps hframes).trans ?_)
  suffices hrest : Keeping env _ from (hrest s2 () s' hs2 h).1
  refine .bind .declare fun _ => .inRoutine (.inFrame rfl fun _ => ?_)
  exact PlaceRules.keeps_plainBody (R := .course env) (fun _ _ => ⟨trivial, trivial⟩) (fun _ _ => trivial) fun s _ => hbody s

theorem keeping_block (budget : Nat) {kind : ScopeKind} (hkind : kind.isStatic = false) (block : Block) :
    Keeping env (Block.compile (expandWithin budget) kind block) := by
  obtain ⟨stmts, span⟩ := block
  rw [Block.compile]
  exact .inFrame hkind fun s => Stmt.meets_compileAll env budget s stmts

end Compile

namespace CompilerState

/-- The states that a compilation comes to from a given one: steps are done, and frames, buffers and routines are
opened. -/
inductive Reaches (s : CompilerState) : CompilerState → Prop
  | refl : Reaches s s
  | moves {t t' : CompilerState} : Reaches s t → t.Moves t' → Reaches s t'
  | opened {t : CompilerState} (kind : ScopeKind) (scope : Span) : Reaches s t →
      Reaches s (Compile.opened kind scope t)
  | push {t : CompilerState} : Reaches s t → Reaches s { t with draft := t.draft.push }
  | hide {t : CompilerState} : Reaches s t → Reaches s { t with draft := t.draft.hide }
  | named {t : CompilerState} (name : String) : Reaches s t →
      Reaches s { t with routineNames := name :: t.routineNames }

def Occurs (s : CompilerState) : Prop := start.Reaches s

theorem Reaches.seated {s t : CompilerState} (h : s.Reaches t) (hs : s.Seated) : t.Seated := by
  induction h with
  | refl => exact hs
  | moves _ hmoves ih => exact hmoves.seated ih
  | opened kind scope _ ih => exact Compile.seated_opened ih
  | push _ ih | hide _ ih => exact ⟨ih.frames, ih.functions⟩
  | named name _ ih =>
    exact ⟨ih.frames, fun id f hf => (ih.functions id f hf).mono (subset_cons_self _ _)⟩

theorem Occurs.seated {s : CompilerState} (h : s.Occurs) : s.Seated := Reaches.seated h seated_start

end CompilerState

namespace Syntax

open Compile CompilerState

variable {budget : Nat} {s : CompilerState} {cond : Expr} {decl : Function}

section

variable (hs : s.Seated)

include hs

theorem keeps_of_decided {onTrue onFalse : ScopeKind → Compile Unit} {hasElse : Bool}
    (htrue : Keeping env (onTrue .conditional)) (hfalse : Keeping env (onFalse .conditional))
    (h : (atLocation span do
      let decision ← Compile.decide (expandWithin budget) cond
      Compile.branch decision onTrue onFalse hasElse).Yields env s () s') :
    ∃ decision s1, (Compile.decide (expandWithin budget) cond).Yields env { s with location := span } decision s1 ∧
      ∀ condition ownCell, decision = .tested condition ownCell → s1.Keeps s' := by
  obtain ⟨s2, hbody, rfl⟩ := yields_atLocation.mp h
  obtain ⟨decision, s1, hdecide, hbranch⟩ := yields_bind.mp hbody
  refine ⟨decision, s1, hdecide, ?_⟩
  rintro condition ownCell rfl
  have hlocated : CompilerState.Seated { s with location := span } := ⟨hs.frames, hs.functions⟩
  have hs1 := (cond.meets_decide env budget _).seated hlocated hdecide
  exact (Keeping.branch htrue hfalse s1 () s2 hs1 hbranch).1.congr rfl rfl

theorem Stmt.keeps_branch {onTrue : Block} {onFalse : Option Block}
    (h : ((branch cond onTrue onFalse span).compile (expandWithin budget)).Yields env s () s') :
    ∃ decision s1, (Compile.decide (expandWithin budget) cond).Yields env { s with location := span } decision s1 ∧
      ∀ condition ownCell, decision = .tested condition ownCell → s1.Keeps s' := by
  cases onFalse with
  | none =>
    rw [compile] at h
    exact keeps_of_decided hs (keeping_block budget rfl onTrue) (.pure ()) h
  | some onFalse =>
    rw [compile] at h
    exact keeps_of_decided hs (keeping_block budget rfl onTrue) (keeping_block budget rfl onFalse) h

theorem rounds_of_loop (h : (loop (expandWithin budget) cond body span).Yields env s () s') :
    ∃ routine s0 entered s1 s2, s0.frames = s.frames ∧ s1.Seated ∧
      (inPrevious (callIf (expandWithin budget) cond routine)).Yields env s0 entered s1 ∧
        (if entered then (do
            body
            let _ ← callIf (expandWithin budget) cond routine)
          else pure ()).Yields env s1 () s2 ∧ s'.frames = s2.frames := by
  obtain ⟨_, _, hget, hloop⟩ := yields_bind.mp h
  obtain ⟨rfl, rfl⟩ := yields_get.mp hget
  obtain ⟨routine, _, hname, hloop⟩ := yields_bind.mp hloop
  obtain ⟨-, rfl⟩ := yields_freshRoutineName.mp hname
  obtain ⟨_, _, hlabel, hloop⟩ := yields_bind.mp hloop
  cases yields_modify.mp hlabel
  obtain ⟨s2, hbody, rfl⟩ := yields_inRoutine.mp hloop
  obtain ⟨entered, s1, hentry, hrounds⟩ := yields_bind.mp hbody
  refine ⟨routine, _, entered, s1, s2, ?_, ?_, hentry, hrounds, ?_⟩
  · rfl
  · refine (meets_inPrevious (cond.meets_callIf env budget (.head _))).seated ?_ hentry
    exact ⟨hs.frames, fun id f hf => (hs.functions id f hf).mono (subset_cons_self _ _)⟩
  · rfl

theorem Stmt.keeps_loop {body : Block}
    (h : ((repeatWhile cond body span).compile (expandWithin budget)).Yields env s () s') :
    ∃ routine s0 entered s1, s0.frames = s.frames ∧
      (inPrevious (callIf (expandWithin budget) cond routine)).Yields env s0 entered s1 ∧
        (s1.Keeps s' ∨ ∃ s2, (Block.compile (expandWithin budget) .loop body).Yields env s1 () s2 ∧
          (callIf (expandWithin 0) cond routine).Refuses env s2) := by
  rw [compile] at h
  obtain ⟨s3, hloop, rfl⟩ := yields_atLocation.mp h
  have hlocated : CompilerState.Seated { s with location := span } := ⟨hs.frames, hs.functions⟩
  obtain ⟨routine, s0, entered, s1, s2, hframes, hs1, hentry, hrounds, hlast⟩ := rounds_of_loop hlocated hloop
  refine ⟨routine, s0, entered, s1, hframes, hentry, ?_⟩
  cases entered with
  | false =>
    obtain ⟨-, rfl⟩ := yields_pure.mp hrounds
    exact .inl (hs1.keeps hlast)
  | true =>
    obtain ⟨_, s4, hbody, hagain⟩ := yields_bind.mp hrounds
    obtain ⟨again, s5, hcall, hpure⟩ := yields_bind.mp hagain
    obtain ⟨-, rfl⟩ := yields_pure.mp hpure
    obtain ⟨-, hcalm⟩ | hrefuses := cond.spares_callIf s4 routine again s5 hcall
    · have hkeeps := (keeping_block budget rfl body s1 () s4 hs1 hbody).1
      exact .inl (hkeeps.congr rfl (hlast.trans hcalm))
    · exact .inr ⟨s4, hbody, hrefuses⟩

theorem keeps_declareFunction (hbody : ∀ s, Meets env s body fun _ _ => True)
    (h : (do
      let routine ← freshRoutineName decl.name
      if decl.name == "init" then modify fun s : CompilerState => { s with userInit := some routine }
      declarePlain decl signature routine body : Compile Unit).Yields env s () s') : s.Keeps s' := by
  obtain ⟨routine, _, hname, h⟩ := yields_bind.mp h
  obtain ⟨-, rfl⟩ := yields_freshRoutineName.mp hname
  have hfunctions := fun id f hf => (hs.functions id f hf).mono (subset_cons_self routine _)
  split at h
  · obtain ⟨_, _, hmodify, h⟩ := yields_bind.mp h
    cases yields_modify.mp hmodify
    refine Keeps.congr (keeping_declarePlain hbody ?_ ?_ h) rfl rfl
    · exact ⟨hs.frames, hfunctions⟩
    · exact .head _
  · refine Keeps.congr (keeping_declarePlain hbody ?_ ?_ h) rfl rfl
    · exact ⟨hs.frames, hfunctions⟩
    · exact .head _

theorem Stmt.keeps_function (hplain : decl.isInline = false)
    (h : ((function decl span).compile (expandWithin budget)).Yields env s () s') :
    ∃ signature s1, (signatureOf (expandWithin budget) decl false).Yields env { s with location := span }
      signature s1 ∧ s1.Keeps s' := by
  obtain ⟨name, isInline, receiver, params, result, ⟨stmts, bodySpan⟩, declSpan⟩ := decl
  obtain rfl : isInline = false := hplain
  rw [compile] at h
  obtain ⟨s2, hdeclare, rfl⟩ := yields_atLocation.mp h
  obtain ⟨signature, s1, hsignature, hrest⟩ := yields_bind.mp hdeclare
  refine ⟨signature, s1, hsignature, ?_⟩
  have hlocated : CompilerState.Seated { s with location := span } := ⟨hs.frames, hs.functions⟩
  have hs1 := Meets.seated (StepRules.keeps_signatureOf ((StepRules.course env).expands_expandWithin budget)
    ⟨fun _ _ => trivial, False.elim, False.elim⟩) hlocated hsignature
  exact (keeps_declareFunction hs1 (fun t => meets_compileAll env budget t stmts) hrest).congr rfl rfl

end

/-- At every point of a compilation, what is known of the variables of the open frames stays known while code is
compiled that may run any number of times: both branches under a condition that is tested when the code runs, the
rounds of a loop once it has been entered, and the body of a plain function. The check for another round is
excepted if it expands a function. What stays known is all but the parts of arrays and structs that live at a slot,
which stay at that slot. -/
theorem Stmt.compile_keeps_known (env : Environment) (budget : Nat) {s s' : CompilerState} (hs : s.Occurs) :
    (∀ cond onTrue onFalse span,
      ((Stmt.branch cond onTrue onFalse span).compile (expandWithin budget)).Yields env s () s' →
        ∃ decision s1,
          (Compile.decide (expandWithin budget) cond).Yields env { s with location := span } decision s1 ∧
            ∀ condition ownCell, decision = .tested condition ownCell → s1.Keeps s') ∧
      (∀ cond body span,
        ((Stmt.repeatWhile cond body span).compile (expandWithin budget)).Yields env s () s' →
          ∃ routine s0 entered s1, s0.frames = s.frames ∧
            (inPrevious (callIf (expandWithin budget) cond routine)).Yields env s0 entered s1 ∧
              (s1.Keeps s' ∨ ∃ s2, (Block.compile (expandWithin budget) .loop body).Yields env s1 () s2 ∧
                (callIf (expandWithin 0) cond routine).Refuses env s2)) ∧
      ∀ decl span, decl.isInline = false →
        ((Stmt.function decl span).compile (expandWithin budget)).Yields env s () s' →
          ∃ signature s1,
            (signatureOf (expandWithin budget) decl false).Yields env { s with location := span } signature s1 ∧
              s1.Keeps s' :=
  ⟨fun _ _ _ _ => Stmt.keeps_branch hs.seated, fun _ _ _ => Stmt.keeps_loop hs.seated,
    fun _ _ => Stmt.keeps_function hs.seated⟩

def growing : Stmt × Stmt :=
  (.assign (.path "a" []) (.array [.int 1 .zero] .zero) .zero,
    .branch (.call (.var "isRaining" .zero) [] .zero)
      ⟨[.assign (.path "a" []) (.array [.int 1 .zero, .int 2 .zero] .zero) .zero], ⟨1, 2⟩⟩ none .zero)

end Syntax

def CompilerState.knownLength? (name : String) (s : CompilerState) : Option Nat :=
  (s.frames.find? name).bind fun (_, var) =>
    match var.value with
    | .array items => some items.length
    | _ => none

def Environment.growing : Environment :=
  ⟨⟨"", ""⟩, {}, {}, (Analysis.of ⟨[Syntax.growing.1, Syntax.growing.2], .zero⟩).scopes⟩

theorem Compile.yields_of_isOk {s : CompilerState} {step : Compile Unit}
    (h : ((step env).run s).1.isOk = true) : step.Yields env s () ((step env).run s).2 := by
  generalize hrun : (step env).run s = ran at h
  obtain ⟨outcome, s'⟩ := ran
  cases outcome with
  | ok _ => exact hrun
  | error _ => cases h

namespace CompilerState

open Compile Syntax

def grown : CompilerState × CompilerState :=
  let before := (((growing.1.compile (expandWithin 1)) Environment.growing).run .start).2
  (before, (((growing.2.compile (expandWithin 1)) Environment.growing).run before).2)

theorem yields_grown :
    (growing.1.compile (expandWithin 1)).Yields Environment.growing .start () grown.1 ∧
      (growing.2.compile (expandWithin 1)).Yields Environment.growing grown.1 () grown.2 :=
  ⟨yields_of_isOk (by decide +kernel), yields_of_isOk (by decide +kernel)⟩

theorem occurs_grown : grown.1.Occurs :=
  Reaches.moves .refl ((Stmt.meets_compileAll Environment.growing 1 .start [growing.1]).moves seated_start
    (yields_bind.mpr ⟨(), _, yields_grown.1, yields_pure.mpr ⟨rfl, rfl⟩⟩)).1

end CompilerState

/-- The array that grows stays at its slot. -/
theorem Syntax.Stmt.compile_keeps_known_growing :
    ∃ condition ownCell s1, (Compile.decide (Compile.expandWithin 1) (.call (.var "isRaining" .zero) [] .zero)).Yields
      Environment.growing { CompilerState.grown.1 with location := .zero } (.tested condition ownCell) s1 ∧
        s1.Keeps CompilerState.grown.2 := by
  obtain ⟨decision, s1, hdecide, hkeeps⟩ :=
    (compile_keeps_known Environment.growing 1 CompilerState.occurs_grown).1 _ _ _ _ CompilerState.yields_grown.2
  have htested : (((Compile.decide (Compile.expandWithin 1) (.call (.var "isRaining" .zero) [] .zero))
      Environment.growing).run { CompilerState.grown.1 with location := .zero }).1.toOption.any
        (· matches .tested _ _) = true := by decide +kernel
  rw [show _ = (Except.ok decision, s1) from hdecide] at htested
  cases decision with
  | known _ => cases htested
  | tested condition ownCell => exact ⟨condition, ownCell, s1, hdecide, hkeeps _ _ rfl⟩

/-- The length of an array that lives at a slot is not kept: it is the one after the branch, whether the branch runs
or not. -/
theorem Syntax.Stmt.branch_changes_length :
    ∃ s s', s.Occurs ∧ (growing.2.compile (Compile.expandWithin 1)).Yields Environment.growing s () s' ∧
      s.knownLength? "a" = some 1 ∧ s'.knownLength? "a" = some 2 :=
  ⟨_, _, CompilerState.occurs_grown, CompilerState.yields_grown.2, by decide +kernel, by decide +kernel⟩

end Datapack
