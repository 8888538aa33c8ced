import Datapack.Proofs.Course.Stmt
import Datapack.Proofs.Trail

/-!
What the open frames look like while a script is compiled. Steps are followed with this shape, with the functions they
register, and with the assignments that they refuse because a variable without a slot would be written under runtime
control.
-/

namespace Datapack

open Syntax List

variable {β : Type} {frames : Frames} {name : String} {var : Variable} {v a : Value} {slot : Slot}
  {s s' : CompilerState} {env : Environment} {fine fine' : FunctionDef → Prop} {span : Span} {key : Nat}

theorem Ordered.isSome_get? {κ : Type} [DecidableEq κ] (key : κ) (pairs : List (κ × β)) :
    (get? key pairs).isSome = (pairs.map (·.1)).contains key := by
  induction pairs with
  | nil => rfl
  | cons pair rest ih =>
    rw [get?, map_cons, contains_cons]
    by_cases h : pair.1 = key
    · simp [h]
    · simp [h, Ne.symm h, ih]

theorem Frames.get?_of_bind {fs : Frames} (h : fs.bind name var = .ok frames) :
    Ordered.get? name fs.top.vars = none := by
  rw [bind] at h
  split at h
  · cases h
  next hnone => exact hnone

namespace Value

mutual

def Calls (P : Nat → Prop) : Value → Prop
  | .function id => P id
  | .struct _ _ fields => FieldsCall P fields
  | .array items => ItemsCall P items
  | _ => True

def FieldsCall (P : Nat → Prop) : List (String × Value) → Prop
  | [] => True
  | (_, value) :: rest => Calls P value ∧ FieldsCall P rest

def ItemsCall (P : Nat → Prop) : List Value → Prop
  | [] => True
  | value :: rest => Calls P value ∧ ItemsCall P rest

end

variable {P Q : Nat → Prop} {e e' : Emission} {v' : Value}

theorem fieldsCall_iff {fields : List (String × Value)} : FieldsCall P fields ↔ ∀ field ∈ fields, Calls P field.2 := by
  induction fields with
  | nil => simp [FieldsCall]
  | cons field rest ih => simp [FieldsCall, ih]

theorem itemsCall_iff {items : List Value} : ItemsCall P items ↔ ∀ item ∈ items, Calls P item := by
  induction items with
  | nil => simp [ItemsCall]
  | cons item rest ih => simp [ItemsCall, ih]

theorem leafwise_calls : Leafwise (fun _ => True) (Calls P) where
  fields := by simp [Calls, fieldsCall_iff]
  items := itemsCall_iff

theorem Calls.mono (h : ∀ id, P id → Q id) (hv : v.Calls P) : v.Calls Q := by
  refine leafwise_calls.mono leafwise_calls (fun _ => id) (fun v hflat hv => ?_) hv
  cases v with
  | function id => exact h id hv
  | struct _ _ _ | array _ => exact hflat.elim
  | _ => trivial

theorem Calls.mark {temporary : Bool} (hv : v.Calls P) : (v.mark temporary).Calls P := by
  refine leafwise_calls.mark leafwise_calls (fun _ => id) (fun v hflat hv => ?_) hv
  cases v with
  | struct _ _ _ | array _ => exact hflat.elim
  | _ => exact hv

theorem calls_of_store (h : (v.store slot).Yields e v' e') : v'.Calls P := by
  obtain ⟨hstorable, rfl, -⟩ := yields_store.mp h
  refine Leafwise.true.placed leafwise_calls (fun _ => id) (fun leaf place hleaf _ => ?_) trivial
  have hleaf' := hstorable leaf place hleaf
  cases leaf with
  | function _ => cases hleaf'
  | struct _ _ _ | array _ => exact hleaf.isFlat.elim
  | _ => trivial

theorem Calls.detach (hv : v.Calls P) (h : v.detach.Yields e v' e') : v'.Calls P := by
  obtain ⟨-, rfl, -⟩ | ⟨-, hstore⟩ := yields_detach.mp h
  · exact hv
  · exact calls_of_store hstore

theorem Calls.select {part : Value} {selector : Selector} (hv : v.Calls P) (h : v.select selector = .ok part) :
    part.Calls P := leafwise_calls.select hv h

theorem Kind.calls_atSlot? {kind : Kind} (h : kind.atSlot? slot = some v) : v.Calls P := by
  cases kind <;> cases h <;> trivial

theorem Results.calls {C : Cell → Bool → Prop} (h : v.Results C) : v.Calls P := by
  cases v with
  | number | fixed | bool | string => trivial
  | _ => exact h.elim

theorem within_anything (v : Value) : v.Within fun _ => True := by
  refine Value.Places.mono (fun _ _ _ => ?_) v.places_true
  exact fun _ => trivial

theorem calls_binary {b : Value} {op : BinaryOp} (h : (a.binary op b).Yields e v e') : v.Calls P :=
  ((obeys_binary (a.within_anything.headPlaces e.nextTemporary _) (b.within_anything.headPlaces _ _)).of_yields
    .refl h).2.calls

theorem calls_unary {op : UnaryOp} (h : (a.unary op).Yields e v e') : v.Calls P :=
  ((obeys_unary (a.within_anything.headPlaces e.nextTemporary _)).of_yields .refl h).2.calls

end Value

def Frame.shape (f : Frame) : FrameShape := ⟨f.kind, f.scope, f.vars.map (·.1)⟩

namespace CompilerState

def shape (s : CompilerState) : List FrameShape := s.frames.ancestors.map (·.2.shape)

def IsFunction (s : CompilerState) (id : Nat) : Prop :=
  ∃ f, s.functions[id]? = some f ∧ f.signature.isMethod = false

def Registers (s s' : CompilerState) : Prop :=
  ∀ (id : Nat) (f : FunctionDef), s.functions[id]? = some f → s'.functions[id]? = some f

/-- Whether an assignment to a name is refused, because its variable has no slot and the code may run any number of
times for one run of the variable's frame. -/
def Refuses (s : CompilerState) (name : String) : Prop :=
  ∃ key var, s.frames.find? name = some (key, var) ∧ var.constant = false ∧ var.slot = none ∧
    s.frames.isDynamicBelow key = true

end CompilerState

/-- Whether variables know the scope of their frame, have slots if they need them, and hold proper functions. The
receiver of a method has the slot of the variable that it came from. -/
structure Frame.InOrder (env : Environment) (P : Nat → Prop) (f : Frame) : Prop where
  scope : ∀ x ∈ f.vars, x.2.scope = f.scope
  storage : ∀ x ∈ f.vars, x.2.slot = none → x.2.constant = false →
    env.scopes.requiresStorage f.scope x.1 = false ∨ x.1 = Compile.selfName ∧ f.kind = .inlineFunction
  values : ∀ x ∈ f.vars, x.2.value.Calls P
  returned : ∀ v, f.returned = some v → v.Calls P

structure CompilerState.InOrder (env : Environment) (fine : FunctionDef → Prop) (s : CompilerState) : Prop where
  frames : ∃ stack, s.frames.Stack stack ∧ ∀ e ∈ stack, e.2.InOrder env s.IsFunction
  functions : ∀ (id : Nat) (f : FunctionDef), s.functions[id]? = some f →
    fine f ∧ ∀ p ∈ f.signature.params, ∀ v, p.default? = some v → v.Calls s.IsFunction

namespace CompilerState

variable {s'' : CompilerState}

theorem Registers.refl (s : CompilerState) : s.Registers s := fun _ _ => id

theorem Registers.trans (h : s.Registers s') (h' : s'.Registers s'') : s.Registers s'' :=
  fun id f hf => h' id f (h id f hf)

theorem Registers.isFunction (h : s.Registers s') {id : Nat} (hid : s.IsFunction id) : s'.IsFunction id := by
  obtain ⟨f, hf, hmethod⟩ := hid
  exact ⟨f, h id f hf, hmethod⟩

theorem Registers.calls (h : s.Registers s') (hv : v.Calls s.IsFunction) : v.Calls s'.IsFunction :=
  hv.mono fun _ => h.isFunction

theorem InOrder.congr (h : s.InOrder env fine) (hframes : s'.frames = s.frames) (hfunctions : s'.functions = s.functions) :
    s'.InOrder env fine := by
  have hsame : s'.IsFunction = s.IsFunction := funext fun id => by rw [IsFunction, hfunctions]; rfl
  exact ⟨hframes ▸ hsame ▸ h.frames, hfunctions ▸ hsame ▸ h.functions⟩

theorem InOrder.imp (h : s.InOrder env fine) (hfine : ∀ (id : Nat) f, s.functions[id]? = some f → fine f → fine' f) :
    s.InOrder env fine' :=
  ⟨h.frames, fun id f hf => (h.functions id f hf).imp_left (hfine id f hf)⟩

theorem shape_eq {stack : List (Nat × Frame)} (h : s.frames.Stack stack) : s.shape = stack.map (·.2.shape) := by
  rw [shape, h.ancestors_eq]

end CompilerState

namespace Compile

open CompilerState

variable {α : Type} {fine'' : FunctionDef → Prop} {target middle : List FrameShape} {stuck stuck' : Prop}
  {value : Value} {path : List Selector}

/-- What a step comes to in a state that is in order. If it succeeds, the state that it leaves is in order and looks as
told, and its result is as told; a refused assignment makes it fail only as told. -/
def Ends (env : Environment) (fine fine' : FunctionDef → Prop) (s : CompilerState) (step : Compile α)
    (target : List FrameShape) (post : α → CompilerState → Prop) (stuck : Prop) : Prop :=
  s.InOrder env fine →
    match (step env).run s with
    | (.ok a, s') => s'.InOrder env fine' ∧ s.Registers s' ∧ s'.shape = target ∧ post a s'
    | (.error error, _) => error.fault.isStaticWrite = true → stuck

abbrev Stays (env : Environment) (fine : FunctionDef → Prop) (s : CompilerState) (step : Compile α)
    (post : α → CompilerState → Prop) (stuck : Prop) : Prop :=
  Ends env fine fine s step s.shape post stuck

namespace Ends

variable {P : α → CompilerState → Prop} {Q : β → CompilerState → Prop} {step : Compile α} {a : α} {scope : Span}
  {R : CompilerState → Prop} {body : Compile Unit} {kind : ScopeKind} {fault : CompileFault} {f : α → Compile β}

theorem of_yields (h : Ends env fine fine' s step target P stuck) (hs : s.InOrder env fine)
    (hstep : step.Yields env s a s') : s'.InOrder env fine' ∧ s.Registers s' ∧ s'.shape = target ∧ P a s' := by
  have hrun := h hs
  rw [Yields] at hstep
  rwa [hstep] at hrun

theorem surely (hs : s.InOrder env fine) (hstep : step.Yields env s a s')
    (h : Ends env fine fine' s step target P True) :
    s'.InOrder env fine' ∧ s.Registers s' ∧ s'.shape = target ∧ P a s' := h.of_yields hs hstep

theorem of_inOrder (h : s.InOrder env fine → Ends env fine fine' s step target P stuck) :
    Ends env fine fine' s step target P stuck := fun hs => h hs hs

theorem pure (h : P a s) : Stays env fine s (Pure.pure a) P stuck := fun hs => ⟨hs, .refl s, rfl, h⟩

theorem fail (h : fault.isStaticWrite = true → stuck) :
    Ends env fine fine' s (Compile.fail fault span) target P stuck := fun _ => h

theorem bind (h : Ends env fine fine' s step middle P stuck)
    (hf : ∀ a s', step.Yields env s a s' → s'.InOrder env fine' → s.Registers s' → s'.shape = middle → P a s' →
      Ends env fine' fine'' s' (f a) target Q stuck) : Ends env fine fine'' s (step >>= f) target Q stuck := by
  intro hs
  have hfirst := h hs
  rw [run_bind]
  cases hran : (step env).run s with
  | mk outcome s' =>
    rw [hran] at hfirst
    cases outcome with
    | error error => exact hfirst
    | ok a =>
      obtain ⟨hs', hregisters, hshape, ha⟩ := hfirst
      have hrest := hf a s' hran hs' hregisters hshape ha hs'
      simp only
      generalize ((f a) env).run s' = ran at hrest ⊢
      obtain ⟨outcome, s''⟩ := ran
      cases outcome with
      | error error => exact hrest
      | ok b => exact ⟨hrest.1, hregisters.trans hrest.2.1, hrest.2.2⟩

section

variable (h : Ends env fine fine' s step target P stuck)

include h

theorem imp {P' : α → CompilerState → Prop}
    (hP : ∀ a s', step.Yields env s a s' → s'.InOrder env fine' → s.Registers s' → P a s' → P' a s')
    (hstuck : stuck → stuck') : Ends env fine fine' s step target P' stuck' := by
  intro hs
  have hstep := h hs
  cases hran : (step env).run s with
  | mk outcome s' =>
    rw [hran] at hstep
    cases outcome with
    | error error => exact fun herror => hstuck (hstep herror)
    | ok a => exact ⟨hstep.1, hstep.2.1, hstep.2.2.1, hP a s' hran hstep.1 hstep.2.1 hstep.2.2.2⟩

theorem anything : Ends env fine fine' s step target (fun _ _ => True) stuck :=
  h.imp (fun _ _ _ _ _ _ => trivial) id

theorem weaken (hstuck : stuck → stuck') : Ends env fine fine' s step target P stuck' :=
  h.imp (fun _ _ _ _ _ => id) hstuck

end

theorem shaped (h : Ends env fine fine' s step middle P stuck) (htarget : middle = target) :
    Ends env fine fine' s step target P stuck := htarget ▸ h

theorem andThen (h : Stays env fine s step P stuck)
    (hf : ∀ a s', step.Yields env s a s' → s.Registers s' → P a s' → Stays env fine s' (f a) Q stuck) :
    Stays env fine s (step >>= f) Q stuck :=
  .bind h fun a s' hstep _ hregisters hshape ha => hshape ▸ hf a s' hstep hregisters ha

theorem failBind (h : fault.isStaticWrite = true → stuck) :
    Ends env fine fine' s (Compile.fail fault span >>= f) target Q stuck := fun _ => h

theorem getBind {f : CompilerState → Compile β} (h : Ends env fine fine' s (f s) target Q stuck) :
    Ends env fine fine' s (get >>= f) target Q stuck := h

theorem readBind {f : Environment → Compile β} (h : Ends env fine fine' s (f env) target Q stuck) :
    Ends env fine fine' s (read >>= f) target Q stuck := h

theorem framesBind {f : Frames → Compile β} (h : Ends env fine fine' s (f s.frames) target Q stuck) :
    Ends env fine fine' s (Compile.frames >>= f) target Q stuck := h

theorem orFail {outcome : Except CompileFault α} (h : ∀ a, outcome = .ok a → P a s)
    (herror : ∀ fault, outcome = .error fault → fault.isStaticWrite = false) :
    Stays env fine s (Compile.orFail span outcome) P stuck := by
  cases outcome with
  | ok a => exact .pure (h a rfl)
  | error fault => exact .fail (by simp [herror fault rfl])

theorem modifyGet {f : CompilerState → α × CompilerState} (hframes : (f s).2.frames = s.frames)
    (hfunctions : (f s).2.functions = s.functions) (hP : P (f s).1 (f s).2) :
    Stays env fine s (MonadState.modifyGet f) P stuck := by
  refine fun hs => ⟨hs.congr hframes hfunctions, fun id g hg => ?_, ?_, hP⟩
  · exact (congrArg (·[id]?) hfunctions).trans hg
  · exact congrArg (fun fs : Frames => fs.ancestors.map (·.2.shape)) hframes

theorem change {f : CompilerState → CompilerState} (hframes : (f s).frames = s.frames)
    (hfunctions : (f s).functions = s.functions) (hR : R (f s)) :
    Stays env fine s (modify f) (fun _ s' => R s') stuck :=
  modifyGet (f := fun s => ((), f s)) hframes hfunctions hR

theorem emitting {op : Emit α} (h : ∀ a e, op.Yields { nextTemporary := s.nextTemporary } a e → P a (absorb e s)) :
    Stays env fine s (Compile.emitting op) P stuck :=
  fun hs => ⟨hs.congr rfl rfl, fun _ _ => id, rfl, h _ _ rfl⟩

theorem tryEmitting {op : TryEmit α}
    (h : ∀ a e, op.Yields { nextTemporary := s.nextTemporary } a e → P a (absorb e s)) :
    Stays env fine s (Compile.tryEmitting span op) P stuck := by
  intro hs
  rw [run_tryEmitting]
  cases hrun : op.run { nextTemporary := s.nextTemporary } with
  | mk outcome e =>
    cases outcome with
    | ok a => exact ⟨hs.congr rfl rfl, fun _ _ => id, rfl, h a e hrun⟩
    | error error => exact fun hfault => by cases hfault

theorem emitNode {node : Node} : Stays env fine s (Compile.emitNode node) (fun _ _ => True) stuck :=
  fun hs => ⟨hs.congr rfl rfl, fun _ _ => id, rfl, trivial⟩

theorem discard (h : Ends env fine fine' s step target (fun _ s' => R s') stuck) :
    Ends env fine fine' s (Functor.discard step) target (fun _ s' => R s') stuck := by
  rw [Functor.discard, Functor.mapConst]
  change Ends env fine fine' s (Function.const α PUnit.unit <$> step) _ _ _
  rw [← bind_pure_comp]
  refine .bind h fun _ s' _ _ _ hshape hR => ?_
  exact shaped (.pure hR) hshape

theorem bracket {opening closing : CompilerState → CompilerState} {body : Compile α}
    (hopen : (opening s).frames = s.frames ∧ (opening s).functions = s.functions)
    (hclose : ∀ s, (closing s).frames = s.frames ∧ (closing s).functions = s.functions)
    (h : Ends env fine fine' (opening s) body target (fun a s1 => P a (closing s1)) stuck) :
    Ends env fine fine' s (Compile.bracket opening closing body) target P stuck := by
  intro hs
  have hbody := h (hs.congr hopen.1 hopen.2)
  change match (((body env).run (opening s)).1, closing ((body env).run (opening s)).2) with
    | (.ok a, s') => s'.InOrder env fine' ∧ s.Registers s' ∧ s'.shape = target ∧ P a s'
    | (.error error, _) => error.fault.isStaticWrite = true → stuck
  generalize (body env).run (opening s) = ran at hbody
  obtain ⟨outcome, s1⟩ := ran
  cases outcome with
  | error error => exact hbody
  | ok a =>
    obtain ⟨hs1, hregisters, hshape, ha⟩ := hbody
    refine ⟨hs1.congr (hclose s1).1 (hclose s1).2, fun id f hf => ?_, ?_, ha⟩
    · rw [(hclose s1).2]
      exact hregisters id f (hopen.2 ▸ hf)
    · rw [shape, (hclose s1).1]
      exact hshape

theorem atLocation (h : Ends env fine fine' { s with location := span } step target
      (fun a s1 => P a { s1 with location := s.location }) stuck) :
    Ends env fine fine' s (Compile.atLocation span step) target P stuck :=
  .getBind (.bracket ⟨rfl, rfl⟩ (fun _ => ⟨rfl, rfl⟩) h)

theorem inPrevious (h : Ends env fine fine' { s with draft := s.draft.hide } step target
      (fun a s1 => P a { s1 with draft := s1.draft.unhide }) stuck) :
    Ends env fine fine' s (Compile.inPrevious step) target P stuck :=
  .bracket ⟨rfl, rfl⟩ (fun _ => ⟨rfl, rfl⟩) h

theorem inBuffer (h : Ends env fine fine' { s with draft := s.draft.push } body target
      (fun _ s1 => R { s1 with draft := s1.draft.pop.2 }) stuck) :
    Ends env fine fine' s (Compile.inBuffer body) target (fun _ s' => R s') stuck := by
  intro hs
  have hbody := h (hs.congr rfl rfl)
  rw [run_inBuffer]
  generalize (body env).run { s with draft := s.draft.push } = ran at hbody
  obtain ⟨outcome, s1⟩ := ran
  cases outcome with
  | error error => exact hbody
  | ok a => exact ⟨hbody.1.congr rfl rfl, hbody.2.1, hbody.2.2.1, hbody.2.2.2⟩

section

variable (h : Ends env fine fine' { s with draft := s.draft.push } body target (fun _ _ => True) stuck)

include h

theorem inRoutine : Ends env fine fine' s (Compile.inRoutine name span body) target (fun _ _ => True) stuck := by
  refine .bind (.inBuffer (R := fun _ => True) h) fun nodes s1 _ _ _ hshape _ => ?_
  exact shaped (.change rfl rfl trivial) hshape

theorem emitGuarded {condition : Condition} :
    Ends env fine fine' s (Compile.emitGuarded condition body) target (fun _ _ => True) stuck := by
  refine .bind (.inBuffer (R := fun _ => True) h) fun nodes s1 _ _ _ hshape _ => ?_
  exact shaped .emitNode hshape

end

section

variable (hs : s.InOrder env fine)

include hs

theorem inOrder_opened :
    (opened kind scope s).InOrder env fine ∧ (opened kind scope s).shape = ⟨kind, scope, []⟩ :: s.shape := by
  obtain ⟨stack, hstack, hframes⟩ := hs.frames
  obtain ⟨key, f, hopened, hkind, hscope, hvars, hreturned, -⟩ :
    ∃ key f, (opened kind scope s).frames.Stack ((key, f) :: stack) ∧ _ := Advances.stack_opened hstack
  have hf : f.InOrder env s.IsFunction := ⟨by simp [hvars], by simp [hvars], by simp [hvars], by simp [hreturned]⟩
  refine ⟨⟨⟨_, hopened, forall_mem_cons.mpr ⟨hf, hframes⟩⟩, hs.functions⟩, ?_⟩
  rw [shape_eq hopened, shape_eq hstack, map_cons, Frame.shape, hkind, hscope, hvars]
  rfl

theorem shape_top : ∃ rest, s.shape = s.frames.top.shape :: rest := by
  obtain ⟨stack, hstack, -⟩ := hs.frames
  match stack, hstack with
  | (key, f) :: rest, hstack => exact ⟨rest.map (·.2.shape), by rw [shape_eq hstack, hstack.top_eq]; rfl⟩
  | [], hstack => simpa using hstack.current

theorem inOrder_popped {inner next : FrameShape} {rest : List FrameShape}
    (h : s.shape = inner :: next :: rest) : CompilerState.InOrder env fine { s with frames := s.frames.pop.2 } ∧
      CompilerState.shape { s with frames := s.frames.pop.2 } = next :: rest := by
  obtain ⟨stack, hstack, hframes⟩ := hs.frames
  rw [shape_eq hstack] at h
  match stack, hstack, hframes, h with
  | (_, _) :: (_, _) :: _, hstack, hframes, h =>
    have hpop := hstack.pop
    refine ⟨⟨⟨_, hpop, fun e he => hframes e (.tail _ he)⟩, hs.functions⟩, ?_⟩
    exact (shape_eq hpop).trans (List.cons.inj h).2

end

theorem inFrame (inner : FrameShape) (h : Ends env fine fine' (opened kind scope s) step (inner :: s.shape)
      (fun a s1 => P a { s1 with frames := s1.frames.pop.2 }) stuck) :
    Ends env fine fine' s (Compile.inFrame kind scope step) s.shape P stuck := by
  intro hs
  have hbody := h (inOrder_opened hs).1
  change match (((step env).run (opened kind scope s)).1,
      { ((step env).run (opened kind scope s)).2 with
        frames := ((step env).run (opened kind scope s)).2.frames.pop.2 }) with
    | (.ok a, s') => s'.InOrder env fine' ∧ s.Registers s' ∧ s'.shape = s.shape ∧ P a s'
    | (.error error, _) => error.fault.isStaticWrite = true → stuck
  generalize (step env).run (opened kind scope s) = ran at hbody
  obtain ⟨outcome, s1⟩ := ran
  cases outcome with
  | error error => exact hbody
  | ok a =>
    obtain ⟨hs1, hregisters, hshape, ha⟩ := hbody
    obtain ⟨rest, hrest⟩ := shape_top hs
    rw [hrest] at hshape ⊢
    obtain ⟨hpopped, hlook⟩ := inOrder_popped hs1 hshape
    exact ⟨hpopped, hregisters, hlook, ha⟩

theorem changeFrame {change : Frame → Frame} {g : Frames → Frames} (hg : g s.frames = s.frames.modify key change)
    (hchange : ∀ f : Frame, (change f).parent = f.parent ∧ (change f).id = f.id ∧ (change f).shape = f.shape)
    (hin : ∀ f, s.frames.get? key = some f → f.InOrder env s.IsFunction → (change f).InOrder env s.IsFunction) :
    Stays env fine s (modifyFrames g) (fun _ s' =>
      s' = { s with frames := s.frames.modify key change }) stuck := by
  intro hs
  have hrun : ((modifyFrames g) env).run s = (.ok (), { s with frames := g s.frames }) := rfl
  rw [hrun, hg]
  obtain ⟨stack, hstack, hframes⟩ := hs.frames
  have hmodify := hstack.modify key (fun f => (hchange f).1) (fun f => (hchange f).2.1)
  refine ⟨⟨⟨_, hmodify, ?_⟩, hs.functions⟩, fun _ _ => id, ?_, rfl⟩
  · intro e he
    obtain ⟨⟨k, f⟩, hmem, rfl⟩ := mem_map.mp he
    rw [Frames.changeAt]
    split
    next heq => exact hin f (heq ▸ hstack.get k f hmem) (hframes _ hmem)
    · exact hframes _ hmem
  · rw [shape_eq hstack]
    refine (shape_eq hmodify).trans ?_
    rw [map_map]
    refine map_congr_left fun e _ => ?_
    rw [Function.comp_apply, Frames.changeAt]
    split
    · exact (hchange e.2).2.2
    · rfl

theorem takeId : Stays env fine s (MonadState.modifyGet fun s : CompilerState =>
    (s.frames.takeId.1, { s with frames := s.frames.takeId.2 })) (fun id s' =>
      id = s.frames.nextId ∧ s' = { s with frames := s.frames.takeId.2 }) stuck := by
  intro hs
  obtain ⟨stack, hstack, hframes⟩ := hs.frames
  refine ⟨⟨⟨stack, hstack.takeId, hframes⟩, hs.functions⟩, fun _ _ => id, ?_, rfl, rfl⟩
  exact (shape_eq hstack.takeId).trans (shape_eq hstack).symm

theorem registerFunction {f : FunctionDef} (hfine : ∀ g, fine g → fine' g) (hf : fine' f)
    (hdefaults : ∀ p ∈ f.signature.params, ∀ v, p.default? = some v → v.Calls s.IsFunction) :
    Ends env fine fine' s (Compile.registerFunction f) s.shape (fun id s' =>
      id = s.functions.size ∧ s' = { s with functions := s.functions.push f }) stuck := by
  intro hs
  have hregisters : s.Registers { s with functions := s.functions.push f } := by
    intro id g hg
    obtain ⟨hlt, heq⟩ := Array.getElem?_eq_some_iff.mp hg
    exact (Array.getElem?_push_lt hlt).trans (congrArg some heq)
  refine ⟨⟨?_, fun id g hg => ?_⟩, hregisters, rfl, rfl, rfl⟩
  · obtain ⟨stack, hstack, hframes⟩ := hs.frames
    refine ⟨stack, hstack, fun e he => ?_⟩
    have hframe := hframes e he
    exact ⟨hframe.scope, hframe.storage, fun x hx => hregisters.calls (hframe.values x hx),
      fun v hv => hregisters.calls (hframe.returned v hv)⟩
  · change (s.functions.push f)[id]? = some g at hg
    rw [Array.getElem?_push] at hg
    split at hg
    · cases hg
      exact ⟨hf, fun p hp v hv => hregisters.calls (hdefaults p hp v hv)⟩
    · obtain ⟨hg1, hg2⟩ := hs.functions id g hg
      exact ⟨hfine g hg1, fun p hp v hv => hregisters.calls (hg2 p hp v hv)⟩

end Ends

theorem ends_bindNew (hscope : var.scope = s.frames.top.scope) (hstorage : var.slot = none → var.constant = false →
      env.scopes.requiresStorage s.frames.top.scope name = false ∨
        name = selfName ∧ s.frames.top.kind = .inlineFunction) (hvalue : var.value.Calls s.IsFunction) :
    Ends env fine fine s (bindNew name var span) (FrameShape.bind name s.shape) (fun _ s' =>
      (s.frames.top.vars.map (·.1)).contains name = false ∧
        s' = { s with frames := s.frames.modifyTop fun f => { f with vars := f.vars ++ [(name, var)] } }) stuck := by
  refine .framesBind ?_
  split
  next frames hbind =>
    intro hs
    obtain ⟨stack, hstack, hframes⟩ := hs.frames
    rw [Frames.bind_eq_ok hbind]
    cases stack with
    | nil => simpa using hstack.current
    | cons top rest =>
      obtain ⟨key, f⟩ := top
      have htop := hstack.top_eq
      rw [htop] at hscope hstorage
      have hmodify : (s.frames.modifyTop fun f => { f with vars := f.vars ++ [(name, var)] }).Stack _ :=
        hstack.modifyTop (fun _ => rfl) (fun _ => rfl)
      have hf := hframes _ (.head _)
      refine ⟨⟨⟨_, hmodify, forall_mem_cons.mpr ⟨⟨?_, ?_, ?_, hf.returned⟩,
        fun e he => hframes e (.tail _ he)⟩⟩, hs.functions⟩, fun _ _ => id, ?_, ?_, rfl⟩
      · exact forall_mem_append.mpr ⟨hf.scope, by simpa using hscope⟩
      · exact forall_mem_append.mpr ⟨hf.storage, by simpa using hstorage⟩
      · exact forall_mem_append.mpr ⟨hf.values, forall_mem_singleton.mpr hvalue⟩
      · rw [shape_eq hstack]
        refine (shape_eq hmodify).trans ?_
        simp [FrameShape.bind, Frame.shape]
      · rw [← Ordered.isSome_get?, Frames.get?_of_bind hbind]
        rfl
  next => exact .fail (by rintro ⟨⟩)

theorem ends_store :
    Stays env fine s (tryEmitting span (value.store slot)) (fun stored s' =>
      stored.Calls s.IsFunction ∧ s'.frames = s.frames ∧ s'.functions = s.functions) stuck :=
  .tryEmitting fun _ _ hyields => ⟨Value.calls_of_store hyields, rfl, rfl⟩

theorem ends_detach (hvalue : value.Calls s.IsFunction) :
    Stays env fine s (tryEmitting span value.detach) (fun held s' =>
      held.Calls s.IsFunction ∧ s'.frames = s.frames ∧ s'.functions = s.functions) stuck :=
  .tryEmitting fun _ _ hyields => ⟨hvalue.detach hyields, rfl, rfl⟩

theorem isFunction_congr (h : s'.functions = s.functions) : s'.IsFunction = s.IsFunction :=
  funext fun id => by rw [IsFunction, h]; rfl

theorem ends_declare {constant : Bool} (hvalue : value.Calls s.IsFunction) :
    Ends env fine fine s (declare name value span constant) (FrameShape.bind name s.shape) (fun _ s' =>
      s'.functions = s.functions) stuck := by
  refine .framesBind (.readBind ?_)
  split
  · refine .bind ends_store fun stored s' _ _ _ hshape hstored => ?_
    obtain ⟨hcalls, hframes, hfunctions⟩ := hstored
    rw [← hshape]
    refine .imp (ends_bindNew (by rw [hframes]) (fun hslot => by cases hslot) ?_) (fun _ _ _ _ _ h => ?_) id
    · rw [isFunction_congr hfunctions]
      exact hcalls.mark
    · rw [h.2]
      exact hfunctions
  next hstorage =>
    refine .bind (ends_detach hvalue) fun held s' _ _ _ hshape hheld => ?_
    obtain ⟨hcalls, hframes, hfunctions⟩ := hheld
    rw [← hshape]
    refine .imp (ends_bindNew (by rw [hframes]) (fun _ hconstant => .inl ?_) ?_) (fun _ _ _ _ _ h => ?_) id
    · rw [hframes]
      simpa [show constant = false from hconstant] using hstorage
    · rw [isFunction_congr hfunctions]
      exact hcalls.mark
    · rw [h.2]
      exact hfunctions

theorem ends_replace {current : Value} {slot : Option Slot} (hvalue : value.Calls s.IsFunction)
    (hcurrent : current.Calls s.IsFunction) :
    Stays env fine s (replace value span path current slot) (fun new s' =>
      new.Calls s.IsFunction ∧ s'.frames = s.frames ∧ s'.functions = s.functions) stuck := by
  rw [replace_eq]
  refine .bind (P := fun _ s' => s = s')
    (.orFail (fun _ _ => rfl) fun _ h => (Value.isNoPart_of_selectPath h).isStaticWrite) ?_
  rintro old _ - - - - rfl
  have hgraft {part : Value} (hpart : part.Calls s.IsFunction) : (current.graft path part).Calls s.IsFunction :=
    Value.leafwise_calls.graft hcurrent hpart
  refine .bind (P := fun part s' => part.Calls s.IsFunction ∧ s'.frames = s.frames ∧ s'.functions = s.functions) ?_
    fun part s' _ _ _ hshape hpart => .shaped (.pure ⟨hgraft hpart.1, hpart.2⟩) hshape
  cases slot with
  | none => exact ends_detach hvalue
  | some place =>
    rw [Option.map_some, replace]
    split
    · exact ends_store
    · exact .fail (by rintro ⟨⟩)

theorem isSome_find? (s : CompilerState) (name : String) :
    (s.frames.find? name).isSome = FrameShape.anyBinds name s.shape := by
  rw [Frames.find?, FrameShape.anyBinds, shape]
  induction s.frames.ancestors with
  | nil => rfl
  | cons e rest ih =>
    rw [findSome?_cons, map_cons, any_cons, ← ih, Frame.shape, ← Ordered.isSome_get?]
    cases hvar : Ordered.get? name e.2.vars <;> simp [hvar]

theorem calls_of_find? (hs : s.InOrder env fine) (hfind : s.frames.find? name = some (key, var)) :
    var.value.Calls s.IsFunction := by
  obtain ⟨stack, hstack, hframes⟩ := hs.frames
  obtain ⟨f, hf, hvar⟩ := hstack.find?_eq_some hfind
  exact (hframes _ hf).values _ (Ordered.mem_of_get? hvar)

theorem shape_rebound (f : Frame) (name : String) (value : Value) :
    Frame.shape { f with vars := Ordered.modify name (fun v => { v with value }) f.vars } = f.shape := by
  have hnames : ∀ vars : List (String × Variable),
      (Ordered.modify name (fun v => { v with value }) vars).map (·.1) = vars.map (·.1) := by
    intro vars
    induction vars with
    | nil => rfl
    | cons x rest ih =>
      rw [Ordered.modify]
      split <;> simp [ih]
  rw [Frame.shape, Frame.shape, hnames]

theorem inOrder_rebound {f : Frame} {P : Nat → Prop} (hf : f.InOrder env P) (name : String) (hvalue : value.Calls P) :
    Frame.InOrder env P { f with vars := Ordered.modify name (fun v => { v with value }) f.vars } := by
  have hmem : ∀ x ∈ Ordered.modify name (fun v => { v with value }) f.vars,
      ∃ y ∈ f.vars, x.1 = y.1 ∧ x.2.scope = y.2.scope ∧ x.2.slot = y.2.slot ∧ x.2.constant = y.2.constant ∧
        x.2.value.Calls P := by
    intro x hx
    obtain hx | ⟨old, hold, rfl⟩ := Ordered.of_mem_modify hx
    · exact ⟨x, hx, rfl, rfl, rfl, rfl, hf.values x hx⟩
    · exact ⟨_, Ordered.mem_of_get? hold, rfl, rfl, rfl, rfl, hvalue⟩
  refine ⟨fun x hx => ?_, fun x hx hslot hconstant => ?_, fun x hx => ?_, hf.returned⟩
  · obtain ⟨y, hy, -, hscope, -⟩ := hmem x hx
    exact hscope.trans (hf.scope y hy)
  · obtain ⟨y, hy, hname, -, hslot', hconstant', -⟩ := hmem x hx
    rw [hname]
    exact hf.storage y hy (hslot' ▸ hslot) (hconstant' ▸ hconstant)
  · obtain ⟨y, -, -, -, -, -, hcalls⟩ := hmem x hx
    exact hcalls

theorem ends_rebind (hfind : s.frames.find? name = some (key, var)) (hrebind : s.frames.rebind name value = .ok frames)
    (hvalue : value.Calls s.IsFunction) :
    Stays env fine s (modifyFrames fun _ => frames) (fun _ s' => s'.functions = s.functions) stuck := by
  refine .imp (Ends.changeFrame (Frames.rebind_eq_ok hfind hrebind) ?_ ?_) (fun _ _ _ _ _ h => ?_) id
  · exact fun f => ⟨rfl, rfl, shape_rebound f name value⟩
  · exact fun f _ hf => inOrder_rebound hf name hvalue
  · rw [h]

theorem ends_assign (hvalue : value.Calls s.IsFunction) :
    Ends env fine fine s (assign name path value span) (FrameShape.assign name s.shape) (fun _ s' =>
      s'.functions = s.functions) (s.Refuses name) := by
  refine .of_inOrder fun hs => .framesBind ?_
  have hsome := isSome_find? s name
  split
  next hnone =>
    rw [hnone] at hsome
    have hshape : FrameShape.assign name s.shape = FrameShape.bind name s.shape := by simp [FrameShape.assign, ← hsome]
    split
    · rw [hshape]
      exact ends_declare hvalue
    · exact .fail (by rintro ⟨⟩)
  next key var hfind =>
    rw [hfind] at hsome
    have hshape : FrameShape.assign name s.shape = s.shape := by simp [FrameShape.assign, ← hsome]
    rw [hshape]
    split
    · exact .failBind (by rintro ⟨⟩)
    next hconstant =>
    refine .framesBind ?_
    split
    next hdynamic =>
      simp only [Bool.and_eq_true] at hdynamic
      refine .failBind fun _ => ⟨key, var, hfind, by simpa using hconstant, ?_, hdynamic.2⟩
      simpa using hdynamic.1
    · refine .bind (ends_replace hvalue (calls_of_find? hs hfind)) fun new s' _ _ _ hshape' hnew => .framesBind ?_
      obtain ⟨hcalls, hframes, hfunctions⟩ := hnew
      rw [hframes]
      split
      next frames hrebind =>
        rw [← hshape']
        have hcalls' : new.pinned.Calls s'.IsFunction := by
          rw [isFunction_congr hfunctions]
          exact hcalls.mark
        refine .imp (ends_rebind (hframes ▸ hfind) (hframes ▸ hrebind) hcalls') (fun _ _ _ _ _ h => ?_) id
        exact h.trans hfunctions
      next => exact .fail (by rintro ⟨⟩)

end Compile

end Datapack
