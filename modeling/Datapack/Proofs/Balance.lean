import Datapack.Proofs.Knowledge

/-!
Brackets. Whatever compiling opens it closes again, whether a step succeeds or fails: a step leaves the buffers that
were open with nodes added at their ends, and the frames that were open with other bindings at most.
-/

namespace Datapack

open Syntax List CompilerState

variable {name : String} {kind : ScopeKind} {scope span : Span} {stack : List (Nat × Frame)} {P : Span → Prop}
  {s : CompilerState} {env : Environment}

namespace Draft

/-- Whether a draft goes on from another: the open buffers and the finished routines have got something at their ends
at most, and the same buffers are set aside. -/
structure Continues (d d' : Draft) : Prop where
  buffers : List.Forall₂ (fun buffer buffer' : Array Node => buffer.toList <+: buffer'.toList) d.buffers d'.buffers
  hidden : d'.hidden = d.hidden
  routines : d.routines.toList <+: d'.routines.toList

namespace Continues

variable {d d' : Draft}

theorem refl (d : Draft) : d.Continues d :=
  ⟨forall₂_same.mpr fun _ _ => prefix_refl _, rfl, prefix_refl _⟩

theorem trans {d'' : Draft} (h : d.Continues d') (h' : d'.Continues d'') : d.Continues d'' := by
  refine ⟨?_, h'.hidden.trans h.hidden, h.routines.trans h'.routines⟩
  rw [forall₂_iff_get]
  obtain ⟨hlength, hbuffers⟩ := forall₂_iff_get.mp h.buffers
  obtain ⟨hlength', hbuffers'⟩ := forall₂_iff_get.mp h'.buffers
  exact ⟨hlength.trans hlength', fun i hi hi' => (hbuffers i hi (hlength ▸ hi)).trans (hbuffers' i (hlength ▸ hi) hi')⟩

theorem depth_eq (h : d.Continues d') : d'.depth = d.depth := h.buffers.length_eq.symm

theorem append (h : 1 ≤ d.depth) (node : Node) : d.Continues (d.append node) := by
  obtain ⟨routines, buffers, hidden, nextIndex⟩ := d
  cases buffers with
  | nil => cases h
  | cons top below =>
    refine ⟨.cons ?_ (refl ⟨routines, below, hidden, nextIndex⟩).buffers, rfl, prefix_refl _⟩
    rw [Array.toList_push]
    exact prefix_append _ _

theorem appendAll (h : 1 ≤ d.depth) (nodes : List Node) : d.Continues (d.appendAll nodes) := by
  induction nodes generalizing d with
  | nil => exact refl d
  | cons node rest ih =>
    have hfirst := append h node
    exact hfirst.trans (ih (hfirst.depth_eq ▸ h))

theorem appendAt (h : 1 ≤ d.depth) (depth : Nat) (nodes : List Node) : d.Continues (d.appendAt depth nodes) := by
  rw [Draft.appendAt]
  split
  · refine ⟨?_, rfl, prefix_refl _⟩
    refine forall₂_iff_get.mpr ⟨by simp, fun i hi hi' => ?_⟩
    simp only [get_eq_getElem, getElem_modify]
    split
    · simp
    · exact prefix_refl _
  · exact appendAll h nodes

theorem finish (d : Draft) (name : String) (nodes : List Node) (location : Option Span) :
    d.Continues (d.finish name nodes location) := by
  refine ⟨(refl d).buffers, rfl, ?_⟩
  simp [Draft.finish]

theorem pop (h : d.push.Continues d') : d.Continues d'.pop.2 := by
  obtain ⟨routines, buffers, hidden, nextIndex⟩ := d'
  obtain ⟨hbuffers, hhidden, hroutines⟩ := h
  cases hbuffers with
  | cons _ hbelow => exact ⟨hbelow, hhidden, hroutines⟩

theorem unhide (h : d.hide.Continues d') (hopen : 1 ≤ d.depth) : d.Continues d'.unhide := by
  obtain ⟨routines, buffers, hidden, nextIndex⟩ := d
  obtain ⟨routines', buffers', hidden', nextIndex'⟩ := d'
  cases buffers with
  | nil => cases hopen
  | cons top below =>
    obtain ⟨hbuffers, rfl, hroutines⟩ := h
    exact ⟨.cons (prefix_refl _) hbuffers, rfl, hroutines⟩

end Continues

end Draft

def Frame.bare (f : Frame) : Frame := { f with vars := [], returnSlot := none, returnKind := none, returned := none }

namespace Frames

def chain (fs : Frames) : List (Nat × Frame) := fs.ancestors.map (Prod.map id Frame.bare)

def Remain (fs fs' : Frames) : Prop :=
  ∀ stack, fs.Stack stack → ∃ stack', fs'.Stack stack' ∧
    stack'.map (Prod.map id Frame.bare) = stack.map (Prod.map id Frame.bare)

namespace Remain

variable {fs fs' : Frames}

theorem refl (fs : Frames) : fs.Remain fs := fun stack h => ⟨stack, h, rfl⟩

theorem trans {fs'' : Frames} (h : fs.Remain fs') (h' : fs'.Remain fs'') : fs.Remain fs'' := by
  intro stack hstack
  obtain ⟨stack', hstack', heq⟩ := h stack hstack
  obtain ⟨stack'', hstack'', heq'⟩ := h' stack' hstack'
  exact ⟨stack'', hstack'', heq'.trans heq⟩

theorem modify (fs : Frames) (key : Nat) {change : Frame → Frame} (h : ∀ f, (change f).bare = f.bare) :
    fs.Remain (fs.modify key change) := by
  intro stack hstack
  have hparent : ∀ f, (change f).bare.parent = f.bare.parent := fun f => by rw [h f]
  have hid : ∀ f, (change f).bare.id = f.bare.id := fun f => by rw [h f]
  refine ⟨_, hstack.modify key hparent hid, ?_⟩
  rw [map_map]
  refine map_congr_left fun e _ => ?_
  rw [Function.comp_apply, changeAt]
  split
  · exact Prod.ext rfl (h e.2)
  · rfl

theorem bind {var : Variable} (h : fs.bind name var = .ok fs') : fs.Remain fs' := by
  rw [Frames.bind] at h
  split at h
  · cases h
  · cases h
    exact modify fs _ fun _ => rfl

theorem rebind {value : Value} (h : fs.rebind name value = .ok fs') : fs.Remain fs' := by
  rw [Frames.rebind] at h
  split at h
  · cases h
  · cases h
    exact modify fs _ fun _ => rfl

theorem pop (change : Frame → Frame) (hparent : ∀ f, (change f).parent = f.parent) (hid : ∀ f, (change f).id = f.id)
    (h : ((fs.push kind scope).modifyTop change).Remain fs') : fs.Remain fs'.pop.2 := by
  intro stack hstack
  cases stack with
  | nil => simpa using hstack.current
  | cons e rest =>
    obtain ⟨new, hpushed⟩ := hstack.push kind scope
    obtain ⟨stack', hstack', heq⟩ := h _ (hpushed.modifyTop hparent hid)
    rcases stack' with _ | ⟨top, _ | ⟨next, below⟩⟩
    · simp at heq
    · simp at heq
    · exact ⟨_, hstack'.pop, (List.cons.inj heq).2⟩

theorem chain_eq (h : fs.Remain fs') (hstack : fs.Stack stack) : fs'.chain = fs.chain ∧ fs'.current = fs.current := by
  obtain ⟨stack', hstack', heq⟩ := h stack hstack
  refine ⟨by rw [chain, chain, hstack.ancestors_eq, hstack'.ancestors_eq, heq], ?_⟩
  have hhead := congrArg (fun l => l.head?.map Prod.fst) heq
  simp only [head?_map, Option.map_map] at hhead
  exact Option.some.inj (hstack'.current.symm.trans (hhead.trans hstack.current))

end Remain

end Frames

namespace CompilerState

def Declares (P : Span → Prop) (s : CompilerState) : Prop := ∀ f ∈ s.functions, ∀ site ∈ f.decl.sites, P site

/-- Whether everything that is opened and closed in the course of a compilation is as it was: the draft goes on, the
same frames are open, and the same statement is being compiled. -/
structure Balanced (s s' : CompilerState) : Prop where
  draft : s.draft.Continues s'.draft
  current : s'.frames.current = s.frames.current
  chain : s'.frames.chain = s.frames.chain
  location : s'.location = s.location

structure Resumes (P : Span → Prop) (s s' : CompilerState) : Prop where
  draft : s.draft.Continues s'.draft
  frames : s.frames.Remain s'.frames
  location : s'.location = s.location
  declares : s.Declares P → s'.Declares P

namespace Resumes

variable {s' : CompilerState}

theorem refl (s : CompilerState) : s.Resumes P s := ⟨.refl _, .refl _, rfl, id⟩

theorem trans {s'' : CompilerState} (h : s.Resumes P s') (h' : s'.Resumes P s'') : s.Resumes P s'' :=
  ⟨h.draft.trans h'.draft, h.frames.trans h'.frames, h'.location.trans h.location, fun hs => h'.declares (h.declares hs)⟩

theorem of_eq (hdraft : s'.draft = s.draft) (hframes : s'.frames = s.frames) (hlocation : s'.location = s.location)
    (hfunctions : s'.functions = s.functions) : s.Resumes P s' := by
  refine ⟨hdraft ▸ .refl _, hframes ▸ .refl _, hlocation, fun hs => ?_⟩
  rwa [Declares, hfunctions]

theorem ofDraft {draft : Draft} (h : s.draft.Continues draft) : s.Resumes P { s with draft } := ⟨h, .refl _, rfl, id⟩

theorem ofFrames {frames : Frames} (h : s.frames.Remain frames) : s.Resumes P { s with frames } :=
  ⟨.refl _, h, rfl, id⟩

theorem balanced (h : s.Resumes P s') (hstack : s.frames.Stack stack) : s.Balanced s' :=
  ⟨h.draft, (h.frames.chain_eq hstack).2, (h.frames.chain_eq hstack).1, h.location⟩

end Resumes

end CompilerState

/-- Steps that leave everything open as it was, however they end, and fail only at spans with a property, wherever a
buffer is open and the declarations of known functions have the property. -/
def Regime.balance (P : Span → Prop) (env : Environment) : Regime env CompilerState where
  state := id
  holds s := 1 ≤ s.draft.depth ∧ s.Declares P
  goes := Resumes P
  stops s s' error := s.Resumes P s' ∧ P error.span
  refl := .refl
  trans := .trans
  holds_of_goes h hs := ⟨h.draft.depth_eq ▸ hs.1, h.declares hs.2⟩
  stops_of_goes h hstops := ⟨h.trans hstops.1, hstops.2⟩

namespace Compile

variable {α : Type} {body : Compile Unit}

abbrev Balances (P : Span → Prop) (env : Environment) (s : CompilerState) (step : Compile α) : Prop :=
  (Regime.balance P env).Keeps s step fun _ _ => True

theorem balances_fail {fault : CompileFault} (h : P span) : Balances P env s (Compile.fail fault span : Compile α) :=
  Regime.Keeps.fail ⟨.refl s, h⟩

theorem balances_modifyGet {f : CompilerState → α × CompilerState} (h : 1 ≤ s.draft.depth → s.Resumes P (f s).2) :
    Balances P env s (MonadState.modifyGet f) := .of_holds fun hs => Regime.Keeps.modifyGet (f s).2 rfl (h hs.1) trivial

theorem balances_change {f : CompilerState → CompilerState} (h : 1 ≤ s.draft.depth → s.Resumes P (f s)) :
    Balances P env s (modify f) := balances_modifyGet h

theorem balances_emitting {op : Emit α} : Balances P env s (Compile.emitting op) :=
  balances_modifyGet fun hopen => ⟨.appendAll hopen _, .refl _, rfl, id⟩

theorem balances_tryEmitting (h : P span) (op : TryEmit α) : Balances P env s (Compile.tryEmitting span op) := by
  refine .bind balances_emitting fun outcome _ _ _ => ?_
  split
  · exact .pure trivial
  · exact balances_fail h

theorem balances_emitNode {node : Node} : Balances P env s (Compile.emitNode node) :=
  balances_change fun hopen => .ofDraft (.append hopen _)

theorem balances_modifyFrames {f : Frames → Frames} (h : s.frames.Remain (f s.frames)) :
    Balances P env s (Compile.modifyFrames f) := balances_change fun _ => .ofFrames h

section

variable (h : Balances P env { s with draft := s.draft.push } body)

include h

theorem balances_inBuffer {use : List Node → CompilerState → CompilerState}
    (huse : ∀ nodes s', 1 ≤ s'.draft.depth → Resumes P s' (use nodes s')) :
    Balances P env s (Compile.inBuffer body >>= fun nodes => modify (use nodes)) := by
  have hpop : ∀ s', Resumes P { s with draft := s.draft.push } s' →
      s.Resumes P { s' with draft := s'.draft.pop.2 } :=
    fun s' hs' => ⟨hs'.draft.pop, hs'.frames, hs'.location, hs'.declares⟩
  refine Regime.Keeps.inBuffer _ rfl (fun hs => ⟨Nat.le_add_left 1 _, hs.2⟩) (fun s' _ hs hgoes _ => ?_)
    (fun s' _ hstops => ⟨hpop s' hstops.1, hstops.2⟩) h
  have hpopped := hpop s' hgoes
  exact ⟨_, rfl, hpopped.trans (huse _ _ (hpopped.draft.depth_eq ▸ hs.1)), trivial⟩

theorem balances_inRoutine :
    Balances P env s (Compile.inRoutine name span body) := balances_inBuffer h fun _ _ _ => .ofDraft (.finish _ _ _ _)

end

theorem balances_inPrevious {body : Compile α} (hdeep : 2 ≤ s.draft.depth)
    (h : Balances P env { s with draft := s.draft.hide } body) : Balances P env s (Compile.inPrevious body) := by
  have hhide : s.draft.hide.depth = s.draft.depth - 1 := by
    obtain ⟨routines, buffers, hidden, nextIndex⟩ := s.draft
    cases buffers <;> rfl
  have hunhide : ∀ s', Resumes P { s with draft := s.draft.hide } s' →
      s.Resumes P { s' with draft := s'.draft.unhide } :=
    fun s' hs' => ⟨hs'.draft.unhide (by omega), hs'.frames, hs'.location, hs'.declares⟩
  refine Regime.Keeps.bracket _ rfl (fun hs => ⟨?_, hs.2⟩) (fun s' _ _ hgoes _ => ⟨_, rfl, hunhide s' hgoes, trivial⟩)
    (fun s' _ hstops => ⟨hunhide s' hstops.1, hstops.2⟩) h
  change 1 ≤ s.draft.hide.depth
  omega

theorem balances_inFrame {body : Compile α} (h : Balances P env (opened kind scope s) body) :
    Balances P env s (Compile.inFrame kind scope body) := by
  have hclose : ∀ s', (opened kind scope s).Resumes P s' → s.Resumes P { s' with frames := s'.frames.pop.2 } := by
    refine fun s' hs' => ⟨hs'.draft, ?_, hs'.location, hs'.declares⟩
    exact .pop (fun f => { f with bufferDepth := s.draft.depth }) (fun _ => rfl) (fun _ => rfl) hs'.frames
  exact Regime.Keeps.bracket (opened kind scope s) rfl id (fun s' _ _ hgoes _ => ⟨_, rfl, hclose s' hgoes, trivial⟩)
    (fun s' _ hstops => ⟨hclose s' hstops.1, hstops.2⟩) h

theorem balances_atLocation {body : Compile α} (h : Balances P env { s with location := span } body) :
    Balances P env s (Compile.atLocation span body) := by
  have hclose : ∀ s', Resumes P { s with location := span } s' →
      s.Resumes P { s' with location := s.location } :=
    fun s' hs' => ⟨hs'.draft, hs'.frames, rfl, hs'.declares⟩
  refine .getBind (Regime.Keeps.bracket _ rfl id (fun s' _ _ hgoes _ => ?_) (fun s' _ hstops => ?_) h)
  · exact ⟨_, rfl, hclose s' hgoes, trivial⟩
  · exact ⟨hclose s' hstops.1, hstops.2⟩

theorem balances_freshRoutineName {base : String} : Balances P env s (Compile.freshRoutineName base) :=
  balances_modifyGet fun _ => .of_eq rfl rfl rfl rfl

theorem balances_of_adds {step : Compile α} {Q : Nat → α → Prop} (h : P span) (hadds : Adds (.anything env) span s step Q) :
    Balances P env s step := by
  refine .of_cases fun hs => ?_
  have hstep := hadds (Nat.zero_le _)
  have habsorb : ∀ e, s.Resumes P (absorb e s) := fun e => ⟨.appendAll hs.1 _, .refl _, rfl, id⟩
  cases hrun : (step env).run s with
  | mk outcome s' =>
    rw [hrun] at hstep
    cases outcome with
    | ok a =>
      obtain ⟨e, -, rfl, -⟩ := hstep
      exact .inl ⟨a, _, hrun, habsorb e, trivial⟩
    | error error =>
      obtain ⟨hspan, -, -, e, rfl⟩ := hstep
      exact .inr ⟨error, _, hrun, habsorb e, hspan ▸ h⟩

theorem balances_replace (h : P span) (value : Value) (path : List Selector) (current : Value) (slot : Option Slot) :
    Balances P env s (replace value span path current slot) := by
  exact .replace (fun _ _ _ _ _ => balances_tryEmitting h _) (fun _ => balances_tryEmitting h _) fun _ _ => ⟨.refl s, h⟩

theorem balances_bindNew (h : P span) (name : String) (var : Variable) : Balances P env s (bindNew name var span) := by
  refine .framesBind ?_
  split
  next hbind => exact balances_modifyFrames (.bind hbind)
  next => exact balances_fail h

theorem balances_stableCondition (condition : Condition) (ownCell : Bool) :
    Balances P env s (stableCondition condition ownCell) := by
  unfold stableCondition
  split
  · exact .pure trivial
  · exact .bind balances_emitting fun _ _ _ _ => .bind balances_emitNode fun _ _ _ _ => .pure trivial

theorem balances_loop {expand : Expansion} {cond : Expr} (hcall : ∀ s name, Balances P env s (callIf expand cond name))
    (hbody : ∀ s, Balances P env s body) : Balances P env s (loop expand cond body span) := by
  refine .getBind (.bind balances_freshRoutineName fun routine s1 _ _ => ?_)
  refine .bind (balances_change fun _ => .of_eq rfl rfl rfl rfl) fun _ s2 _ _ => .of_holds fun hs2 => balances_inRoutine ?_
  refine .bind (balances_inPrevious (Nat.succ_le_succ hs2.1) (hcall _ routine)) fun again _ _ _ => ?_
  split
  · exact .bind (hbody _) fun _ _ _ _ => .bind (hcall _ routine) fun _ _ _ _ => .pure trivial
  · exact .pure trivial

theorem balances_registerFunction {f : FunctionDef} (h : ∀ site ∈ f.decl.sites, P site) :
    Balances P env s (registerFunction f) := by
  refine balances_modifyGet fun _ => ⟨.refl _, .refl _, rfl, fun hs g hg => ?_⟩
  obtain hg | rfl := Array.mem_push.mp hg
  · exact hs g hg
  · exact h

end Compile

open Compile

def PlaceRules.balance (P : Span → Prop) (env : Environment) : PlaceRules env CompilerState where
  toRegime := .balance P env
  terms := ⟨P, False, False⟩
  clean _ := True
  value _ _ := True
  stored _ _ := True
  current _ _ := True
  fixed _ _ := True
  object _ _ := True
  bindable _ _ _ := True
  value_of_goes _ _ := trivial
  stored_of_goes _ _ := trivial
  current_of_goes _ _ _ := trivial
  fixed_of_goes _ _ := trivial
  object_of_goes _ _ := trivial
  stop h _ := ⟨.refl _, h⟩
  clean_of _ := trivial
  known _ _ := trivial
  known_fixed _ _ := trivial
  array := ⟨fun _ _ _ => trivial, fun _ => trivial⟩
  store _ := trivial
  select _ := ⟨fun _ => trivial, fun _ => trivial⟩
  found _ _ := ⟨trivial, trivial, trivial, trivial⟩
  part _ _ _ := trivial
  free _ _ := trivial
  hold _ _ := trivial
  receive _ := trivial
  parameter _ _ _ := trivial
  bind h _ := balances_bindNew h _ _
  storeNew h _ _ := .imp (balances_tryEmitting h _) fun _ _ _ _ _ _ _ => trivial
  detachNew h _ _ := .imp (balances_tryEmitting h _) fun _ _ _ _ _ _ _ => trivial
  overwrite h _ _ _ _ := by
    refine .bind (balances_replace h _ _ _ _) fun updated s1 _ _ => .framesBind ?_
    split
    next hrebind => exact balances_modifyFrames (.rebind hrebind)
    next => exact balances_fail h
  returnTo := balances_modifyFrames (.modify _ _ fun _ => rfl)
  returnKind := balances_modifyFrames (.modify _ _ fun _ => rfl)

namespace Compile

theorem balances_returnValue (h : P span) (value : Value) : Balances P env s (returnValue value span) := by
  refine PlaceRules.keeps_returnValue (R := .balance P env) h fun key frame _ _ => ?_
  refine .imp (.keptResult (P := fun _ _ => True) (fun _ => trivial) (fun _ _ => ?_) fun _ _ _ => balances_tryEmitting h _)
    fun _ _ _ _ => balances_modifyFrames (.modify _ _ fun _ => rfl)
  exact balances_inBuffer (.discard (balances_tryEmitting h _)) fun _ _ hopen => .ofDraft (.appendAt hopen _ _)

theorem balances_declarePlain {decl : Function} (h : Terms.AllowsFunction ⟨P, False, False⟩ decl) {body : Compile Unit}
    (hbody : ∀ s, Balances P env s body) (signature : Signature) (routine : String) :
    Balances P env s (declarePlain decl signature routine body) := by
  refine .bind (balances_modifyGet fun _ => .ofFrames fun stack h => ⟨stack, h.takeId, rfl⟩) fun frameId _ _ _ => ?_
  refine .bind (balances_registerFunction h.sites) fun id _ _ _ => ?_
  refine .bind (PlaceRules.keeps_declare (R := .balance P env) h.span trivial trivial) fun _ _ _ _ => ?_
  refine balances_inRoutine (balances_inFrame (PlaceRules.keeps_plainBody (R := .balance P env) ?_ ?_ fun s _ => hbody s))
  · exact fun param hparam => ⟨(h.param hparam).1, trivial⟩
  · exact fun _ _ => trivial

end Compile

def StepRules.balance (P : Span → Prop) (env : Environment) : StepRules env CompilerState where
  toPlaceRules := .balance P env
  inside _ := True
  function _ f := ∀ site ∈ f.decl.sites, P site
  routine _ _ := True
  tested _ _ _ := True
  stable _ _ := True
  inside_of_goes _ := id
  function_of_goes _ := id
  routine_of_goes _ := id
  stable_of_goes _ := id
  truth _ := trivial
  nonzero _ := trivial
  negate _ := trivial
  registered hs hf := hs.2 _ (Array.mem_of_getElem? hf)
  default _ _ _ _ _ := trivial
  params hf _ hparam := ⟨(Terms.AllowsFunction.param ⟨hf, False.elim, False.elim⟩ hparam).1, trivial⟩
  receiver hf hsite := Terms.AllowsFunction.receiver ⟨hf, False.elim, False.elim⟩ hsite
  body hf := Terms.AllowsFunction.body ⟨hf, False.elim, False.elim⟩
  objectName _ _ := trivial
  unary h _ := balances_tryEmitting h _
  binary h _ _ := balances_tryEmitting h _
  update h _ _ := balances_tryEmitting h _
  callBuiltin h _ := balances_of_adds h (adds_callBuiltin (fun _ => trivial) fun _ _ => trivial)
  construct h _ := balances_of_adds h (adds_construct (fun _ _ => trivial) fun _ _ _ _ _ => trivial)
  pass h _ _ _ _ := balances_tryEmitting h _
  enter _ _ := balances_emitNode
  fetch h _ _ _ := balances_tryEmitting h _
  stabilize _ := balances_stableCondition _ _
  call _ := balances_emitNode
  callIf _ _ := balances_emitNode
  locate h _ _ := balances_atLocation (h _ trivial)
  frame _ h := balances_inFrame (h _ trivial fun _ => id)
  inline h := .imp (balances_inFrame (.anything (h (opened _ _ _) trivial (fun _ => id) fun _ => id))) fun _ _ _ _ =>
    ⟨trivial, fun _ _ => trivial⟩
  guard _ _ h := balances_inBuffer (h _ trivial) fun _ _ hopen => .ofDraft (.append hopen _)
  loop hcall hbody := balances_loop (fun s name => hcall s name trivial) fun s => hbody s trivial
  giveBack _ h _ := balances_returnValue h _
  register h _ := balances_registerFunction h.sites
  plain h _ hbody := by
    refine .bind balances_freshRoutineName fun routine _ _ _ => ?_
    have hplain := fun s signature => balances_declarePlain (s := s) h (fun s => hbody s trivial) signature routine
    split
    · exact .bind (balances_change fun _ => .of_eq rfl rfl rfl rfl) fun _ _ _ _ => hplain _ _
    · exact hplain _ _
  addStruct _ := balances_modifyGet fun _ => .of_eq rfl rfl rfl rfl
  addMethod := balances_change fun _ => .of_eq rfl rfl rfl rfl

/-- The budget of a step is the limit less its depth. A body is one deeper, and what follows it is as deep as before. -/
theorem Compile.expandWithin_depth (depth : Nat) (f : FunctionDef) (receiver : Option Receiver) (args : List Argument)
    (span : Span) : expandWithin (expansionDepth - depth) f receiver args span =
      if expansionDepth ≤ depth then fail (.inlineRecursion f.signature.name) span
      else expandBody f receiver args span
        (Stmt.compileAll (expandWithin (expansionDepth - (depth + 1))) f.decl.body.stmts) := by
  split
  next hdeep => rw [Nat.sub_eq_zero_of_le hdeep, expandWithin]
  next hdeep =>
    have hbudget : expansionDepth - depth = expansionDepth - (depth + 1) + 1 := by omega
    rw [hbudget, expandWithin]

/-- However a statement, an expression, a call, an expansion or a return comes out, it leaves what is open as it was. -/
theorem Compile.brackets_close {s : CompilerState} (hs : s.Occurs) (hopen : 1 ≤ s.draft.depth) (env : Environment)
    (budget : Nat) :
    (∀ stmt : Stmt, s.Balanced (((stmt.compile (expandWithin budget)) env).run s).2) ∧
      (∀ e : Expr, s.Balanced (((e.compile (expandWithin budget)) env).run s).2) ∧
      (∀ callee args span, s.Balanced (((callValue (expandWithin budget) callee args span) env).run s).2) ∧
      (∀ id receiver args span,
        s.Balanced (((callFunction (expandWithin budget) id receiver args span) env).run s).2) ∧
      (∀ f receiver args span, s.Balanced (((expandWithin budget f receiver args span) env).run s).2) ∧
      ∀ value span, s.Balanced (((returnValue value span) env).run s).2 := by
  obtain ⟨stack, hstack, -⟩ := hs.seated.frames
  have balanced : ∀ {α : Type} {step : Compile α},
      Balances (fun _ => True) env s step → s.Balanced ((step env).run s).2 := by
    intro α step hstep
    have hresumes : s.Resumes (fun _ => True) ((step env).run s).2 := by
      obtain ⟨_, s', hrun, hgoes, -⟩ | ⟨_, s', hrun, hstops⟩ := hstep.cases ⟨hopen, fun _ _ _ _ => trivial⟩
      · exact (congrArg Prod.snd hrun) ▸ hgoes
      · exact (congrArg Prod.snd hrun) ▸ hstops.1
    exact hresumes.balanced hstack
  have hexpand := (StepRules.balance (fun _ => True) env).expands_expandWithin budget
  refine ⟨fun stmt => balanced ?_, fun e => balanced ?_, fun _ _ _ => balanced ?_, fun _ _ _ _ => balanced ?_,
    fun _ _ _ _ => balanced ?_, fun _ _ => balanced ?_⟩
  · exact stmt.runs_compile hexpand ⟨fun _ _ => trivial, False.elim, False.elim⟩ s trivial
  · exact (e.keeps_compile hexpand s ⟨fun _ _ => trivial, False.elim⟩).anything
  · exact (StepRules.keeps_callValue hexpand trivial fun _ _ => trivial).anything
  · exact (StepRules.keeps_callFunction hexpand trivial (fun _ _ => trivial) fun _ _ => trivial).anything
  · exact (hexpand s _ _ _ _ trivial (fun _ _ => trivial) (fun _ _ => trivial) fun _ _ _ _ => trivial).anything
  · exact balances_returnValue trivial _

/-- A loop that returns where there is no function fails in a frame, and in a buffer of its own. -/
theorem Compile.brackets_close_loop :
    ((((Stmt.repeatWhile (.bool true .zero) ⟨[.return none .zero], .zero⟩ .zero).compile (expandWithin 1))
      Environment.growing).run CompilerState.start).1.isOk = false ∧
    CompilerState.start.Balanced ((((Stmt.repeatWhile (.bool true .zero) ⟨[.return none .zero], .zero⟩ .zero).compile
      (expandWithin 1)) Environment.growing).run CompilerState.start).2 :=
  ⟨by decide +kernel, (brackets_close .refl (Nat.le_refl 1) Environment.growing 1).1 _⟩

end Datapack
