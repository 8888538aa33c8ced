import Datapack.Proofs.Simulation.Builtin
import Datapack.Proofs.Visit.Stmt

/-!
Calls leave the open frames as they look, also those that expand the body of a function. So the whole compilation of a
script is refused as a write under runtime control only at an assignment that the script leads to.
-/

namespace Datapack

open Syntax List FunctionDef

variable {decl : Function} {parts : List Stmt} {f : FunctionDef} {args values : List Value} {matched : List Argument}
  {env : Environment} {receiver : Option Receiver}

theorem Syntax.Function.parts_eq (decl : Function) : decl.parts = Stmt.allParts decl.body.stmts := by
  obtain ⟨_, _, _, _, _, ⟨stmts, _⟩, _⟩ := decl
  rw [parts, Block.parts]

theorem Syntax.Function.parts_subset_of_mem {methods : List Function} (h : decl ∈ methods) :
    decl.parts ⊆ allParts methods := by
  induction methods with
  | nil => cases h
  | cons first rest ih =>
    rw [allParts]
    obtain rfl | h := mem_cons.mp h
    · exact subset_append_left _ _
    · exact subset_append_of_subset_right _ (ih h)

theorem FunctionDef.Fine.exists_of_matchArgs (h : f.Fine parts) (hmatched : f.signature.matchArgs args = .ok matched) :
    ∃ values : List Value, matched = values.map .one ∧ values.length = f.decl.params.length := by
  obtain ⟨values, hvalues, hlength, -⟩ := Signature.exists_of_distribute (fun p hp => (h.arity p hp).1) hmatched
  refine ⟨values, hvalues, hlength.trans ?_⟩
  simpa using congrArg List.length h.names

theorem FunctionDef.Fine.body_subset (h : f.Fine parts) (hclosed : ∀ part ∈ parts, part.parts ⊆ parts) :
    Stmt.allParts f.decl.body.stmts ⊆ parts := by
  rw [← Function.parts_eq]
  obtain ⟨-, span, hpart⟩ | ⟨-, name, fields, methods, body, span, hpart, hmethod⟩ := h.declared
  · have hparts := hclosed _ hpart
    rw [Stmt.parts] at hparts
    exact subset_of_cons_subset hparts
  · have hparts := hclosed _ hpart
    rw [Stmt.parts] at hparts
    exact List.Subset.trans (Function.parts_subset_of_mem hmethod) (subset_of_cons_subset hparts)

namespace Compile

open CompilerState Point

variable {s : CompilerState} {fine : FunctionDef → Prop} {stuck : Prop} {span : Span}

def enteredNames (decl : Function) (receiver : Option Receiver) : List String :=
  (if receiver.isSome && decl.receiver.isSome then [selfName] else []) ++ decl.params.map (·.name)

theorem ends_bindReceiver (hscope : s.frames.top.scope = decl.body.span) (hkind : s.frames.top.kind = .inlineFunction)
    (hreceiver : ∀ r, receiver = some r → r.value.Calls s.IsFunction) :
    Ends env fine fine s (bindReceiver decl receiver)
      (FrameShape.bindAll (if receiver.isSome && decl.receiver.isSome then [selfName] else []) s.shape)
      (fun _ s' => s'.functions = s.functions) stuck := by
  unfold bindReceiver
  cases receiver with
  | none => exact .pure rfl
  | some r =>
    cases decl.receiver with
    | none => exact .pure rfl
    | some site =>
      refine (ends_bindNew hscope.symm (fun _ _ => .inr ⟨rfl, hkind⟩) (hreceiver r rfl)).imp (fun _ _ _ _ _ h => ?_) id
      rw [h.2]

theorem ends_bindArguments {scope : Span} {args : List (Param × Argument)} (hscope : s.frames.top.scope = scope)
    (hargs : ∀ x ∈ args, ∀ v ∈ x.2.values, v.Calls s.IsFunction) :
    Ends env fine fine s (bindArguments scope args) (FrameShape.bindAll (args.map (·.1.name)) s.shape)
      (fun _ s' => s'.functions = s.functions) stuck := by
  induction args generalizing s with
  | nil => exact .pure rfl
  | cons first rest ih =>
    obtain ⟨param, argument⟩ := first
    cases argument with
    | many _ => exact .fail nofun
    | one value =>
      -- what is left to do once the first parameter is bound
      have hrest : ∀ {s' : CompilerState}, s.InOrder env fine → s'.InOrder env fine →
          s'.shape = FrameShape.bind param.name s.shape → s'.functions = s.functions →
            Ends env fine fine s' (bindArguments scope rest)
              (FrameShape.bindAll ((param.name :: rest.map (·.1.name))) s.shape)
              (fun _ s'' => s''.functions = s.functions) stuck := by
        intro s' hs hs' hshape hfunctions
        have htop := congrArg FrameShape.scope (shape_top_bind hs hs' hshape)
        rw [FrameShape.bindAll, foldl_cons, ← hshape]
        refine (ih (htop.trans hscope) fun x hx v hv => ?_).imp (fun _ _ _ _ _ h => h.trans hfunctions) id
        rw [isFunction_congr hfunctions]
        exact hargs x (.tail _ hx) v hv
      have hvalue : value.Calls s.IsFunction := hargs _ (.head _) value (mem_singleton.mpr rfl)
      refine .of_inOrder fun hs => .framesBind (.readBind ?_)
      split
      · refine .bind ends_store fun stored s1 _ hs1 _ hshape1 hstored => ?_
        obtain ⟨hcalls, hframes, hfunctions⟩ := hstored
        refine .bind (ends_bindNew (by rw [hframes, hscope]) (fun hslot => by cases hslot) ?_) ?_
        · rw [isFunction_congr hfunctions]
          exact hcalls.mark
        · rintro _ s2 - hs2 - hshape2 ⟨-, rfl⟩
          exact hrest hs hs2 (hshape1 ▸ hshape2) hfunctions
      next hstorage =>
        simp only [Bool.or_eq_true, not_or, Bool.not_eq_true] at hstorage
        refine .bind (ends_bindNew hscope.symm (fun _ _ => .inl ?_) ?_) ?_
        · rw [hscope]
          exact hstorage.2
        · exact hvalue.mark
        · rintro _ s2 - hs2 - hshape2 ⟨-, rfl⟩
          exact hrest hs hs2 hshape2 rfl

theorem ends_enterExpanded (hlength : values.length = f.decl.params.length)
    (hscope : s.frames.top.scope = f.decl.body.span) (hkind : s.frames.top.kind = .inlineFunction)
    (hreceiver : ∀ r, receiver = some r → r.value.Calls s.IsFunction) (hvalues : ∀ v ∈ values, v.Calls s.IsFunction) :
    Ends env fine fine s (enterExpanded f receiver (values.map .one))
      (FrameShape.bindAll (enteredNames f.decl receiver) s.shape) (fun _ s' => s'.functions = s.functions) stuck := by
  have hnames : (f.decl.params.zip (values.map Argument.one)).map (·.1.name) = f.decl.params.map (·.name) :=
    Param.names_zip (by simp [hlength])
  refine .of_inOrder fun hs => .bind (.changeFrame rfl (fun _ => ⟨rfl, rfl, rfl⟩) ?_) ?_
  · exact fun f _ hf => ⟨hf.scope, hf.storage, hf.values, hf.returned⟩
  · intro _ s1 _ hs1 _ hshape1 hs1eq
    have hfunctions1 : s1.functions = s.functions := by rw [hs1eq]
    have htop1 := shape_top_eq hs hs1 hshape1
    refine .bind (ends_bindReceiver ((congrArg FrameShape.scope htop1).trans hscope)
      ((congrArg FrameShape.kind htop1).trans hkind) (by rwa [isFunction_congr hfunctions1])) ?_
    intro _ s2 _ hs2 _ hshape2 hfunctions2
    have hfunctions := hfunctions2.trans hfunctions1
    have htop2 : s2.frames.top.scope = s1.frames.top.scope := by
      obtain ⟨rest1, hrest1⟩ := Ends.shape_top hs1
      obtain ⟨rest2, hrest2⟩ := Ends.shape_top hs2
      rw [hrest1, hrest2, FrameShape.bindAll_cons] at hshape2
      exact congrArg FrameShape.scope (List.cons.inj hshape2).1
    have htarget : FrameShape.bindAll (enteredNames f.decl receiver) s.shape =
        FrameShape.bindAll ((f.decl.params.zip (values.map Argument.one)).map (·.1.name)) s2.shape := by
      rw [hnames, hshape2, hshape1, enteredNames, FrameShape.bindAll, foldl_append]
      rfl
    rw [htarget]
    refine (ends_bindArguments (htop2.trans ((congrArg FrameShape.scope htop1).trans hscope)) ?_).imp
      (fun _ _ _ _ _ h => h.trans hfunctions) id
    intro x hx v hv
    obtain ⟨value, hvalue, heq⟩ := mem_map.mp (of_mem_zip hx).2
    rw [← heq] at hv
    rw [isFunction_congr hfunctions, mem_singleton.mp hv]
    exact hvalues value hvalue

theorem calls_top (hs : s.InOrder env fine) : (s.frames.top.returned.getD .null).Calls s.IsFunction ∧
    ∀ self, Ordered.get? selfName s.frames.top.vars = some self → self.value.Calls s.IsFunction := by
  obtain ⟨stack, hstack, hframes⟩ := hs.frames
  match stack, hstack, hframes with
  | (key, f) :: rest, hstack, hframes =>
    have hf := hframes _ (.head _)
    rw [hstack.top_eq]
    refine ⟨?_, fun self hself => hf.values _ (Ordered.mem_of_get? hself)⟩
    cases hreturned : f.returned with
    | none => trivial
    | some v => exact hf.returned v hreturned
  | [], hstack, _ => simpa using hstack.current

theorem ends_plainCall {routine : String} {slots : List Slot} {result : Kind} {returnSlot : Slot} :
    Stays env fine s (do
      (matched.zip slots).forM fun (argument, slot) =>
        argument.values.forM fun value => discard (tryEmitting span (value.store slot))
      emit (.call routine)
      match result.atSlot? returnSlot with
      | some result => tryEmitting span result.detach
      | none => return .null) (fun v s' => v.Calls s'.IsFunction) stuck := by
  refine .bind (.forM (fun _ => s.shape) rfl ?_) fun _ s1 _ _ _ hshape _ => ?_
  · rintro before ⟨argument, slot⟩ after s' - - - hshape
    refine .shaped (.forM (fun _ => s'.shape) rfl ?_) hshape
    intro before value after s'' _ _ _ hshape'
    rw [← hshape']
    exact .discard (R := fun _ => True) ends_store.anything
  · rw [← hshape]
    refine .andThen .emitNode fun _ s2 _ _ _ => ?_
    split
    next result hresult =>
      exact (ends_detach (Value.Kind.calls_atSlot? hresult)).imp
        (fun _ s' _ _ _ h => by rw [isFunction_congr h.2.2]; exact h.1) id
    · exact .pure trivial

section

variable {body : Compile Unit} (inner : FrameShape) (hlength : values.length = f.decl.params.length)
  (hreceiver : ∀ r, receiver = some r → ReceiverInOrder s r) (hvalues : ∀ v ∈ values, v.Calls s.IsFunction)
  (hbody : ∀ s1, (enterExpanded f receiver (values.map .one)).Yields env (opened .inlineFunction f.decl.body.span s) () s1 →
    s1.shape = ⟨.inlineFunction, f.decl.body.span, enteredNames f.decl receiver⟩ :: s.shape →
      Ends env (Fine parts) (Fine parts) s1 body (inner :: s.shape) (fun _ _ => True) stuck)
  (hback : ∀ before var slot self s1 s2, receiver = some ⟨before, some var, slot⟩ →
    (enterExpanded f receiver (values.map .one)).Yields env (opened .inlineFunction f.decl.body.span s) () s1 →
      body.Yields env s1 () s2 → Ordered.get? selfName s2.frames.top.vars = some self →
        self.value.same before = false → CompilerState.Refuses { s2 with frames := s2.frames.pop.2 } var → stuck)

include inner hlength hreceiver hvalues hbody hback

theorem ends_inExpansion :
    Stays env (Fine parts) s (inExpansion f receiver (values.map .one) body)
      (fun result s3 => result.1.Calls s3.IsFunction ∧ (∀ v, result.2 = some v → v.Calls s3.IsFunction) ∧
        ∀ before var slot after, receiver = some ⟨before, some var, slot⟩ → result.2 = some after →
          after.same before = false → s3.Refuses var → stuck) stuck := by
  refine .of_inOrder fun hs => .inFrame inner ?_
  refine .bind (ends_enterExpanded hlength (scope_top_opened hs) (kind_top_opened hs) (fun r hr => (hreceiver r hr).1)
    hvalues) ?_
  intro _ s1 henter _ _ hshape1 _
  rw [(Ends.inOrder_opened hs).2, FrameShape.bindAll_cons] at hshape1
  refine .bind (hbody s1 henter hshape1) fun _ s2 hdone hs2 _ hshape2 _ => .framesBind ?_
  refine .shaped (.pure ⟨(calls_top hs2).1, ?_, ?_⟩) hshape2
  · intro v hv
    obtain ⟨self, hself, rfl⟩ := Option.map_eq_some_iff.mp hv
    exact (calls_top hs2).2 self hself
  · intro before var slot after hr hafter
    obtain ⟨self, hself, rfl⟩ := Option.map_eq_some_iff.mp hafter
    exact hback before var slot self s1 s2 hr henter hdone hself

theorem ends_expandBody :
    Stays env (Fine parts) s (expandBody f receiver (values.map .one) span body)
      (fun v s' => v.Calls s'.IsFunction) stuck := by
  rw [expandBody_eq]
  refine .bind (ends_inExpansion inner hlength hreceiver hvalues hbody hback) ?_
  rintro ⟨returned, self⟩ s3 - - hregisters hshape3 ⟨hreturned, hself, hstuck⟩
  dsimp only
  rw [← hshape3]
  split
  next before var slot after =>
    split
    next hchanged =>
      have hbound := (hreceiver _ rfl).2 var rfl
      rw [← hshape3] at hbound
      refine .bind ((ends_assignBound (hself after rfl) (.inr hbound)).weaken ?_) ?_
      · exact hstuck before var slot after rfl rfl (by simpa using hchanged)
      · exact fun _ _ _ _ hregisters' hshape4 _ => .shaped (.pure (hregisters'.calls hreturned)) hshape4
    · exact .pure hreturned
  · exact .pure hreturned

end

theorem ends_callFunction {expand : Expansion} {id : Nat} (hargs : ∀ v ∈ args, v.Calls s.IsFunction)
    (hexpand : ∀ (f : FunctionDef) (values : List Value), f.Fine parts → s.functions[id]? = some f → f.form = .inline →
      f.signature.matchArgs args = .ok (values.map .one) → values.length = f.decl.params.length →
        (∀ v ∈ values, v.Calls s.IsFunction) →
          Stays env (Fine parts) s (expand f receiver (values.map .one) span)
            (fun v s' => v.Calls s'.IsFunction) stuck) :
    Stays env (Fine parts) s (callFunction expand id receiver args span)
      (fun v s' => v.Calls s'.IsFunction) stuck := by
  refine .of_inOrder fun hs => .getBind ?_
  split
  · exact .fail nofun
  next f hf =>
    obtain ⟨hfine, hdefaults⟩ := hs.functions id f hf
    refine .bind (ends_matchCall hargs hdefaults) ?_
    rintro matched _ - - - - ⟨rfl, hmatched, hvalues⟩
    split
    next hform =>
      obtain ⟨values, rfl, hlength⟩ := hfine.exists_of_matchArgs hmatched
      refine hexpand f values hfine hf hform hmatched hlength fun v hv => ?_
      exact hvalues _ (mem_map_of_mem hv) v (mem_singleton.mpr rfl)
    · exact ends_plainCall

theorem callsEnd (hclosed : ∀ part ∈ parts, part.parts ⊆ parts) (b : Nat) : CallsEnd env parts b := by
  induction b with
  | zero =>
    intro s id receiver site args span _ hargs
    exact ends_callFunction hargs fun f values _ _ _ _ _ _ => .fail nofun
  | succ b ih =>
    intro s id receiver site args span hreceiver hargs
    refine ends_callFunction hargs fun f values hfine hf hform hmatched hlength hvalues => ?_
    obtain ⟨names, hnames⟩ := Stmt.exists_reshapeAll f.decl.body.stmts
      ⟨.inlineFunction, f.decl.body.span, enteredNames f.decl receiver⟩ s.shape
    refine ends_expandBody ⟨.inlineFunction, f.decl.body.span, names⟩ hlength hreceiver hvalues ?_ ?_
    · intro s1 henter hshape
      refine .shaped ((Stmt.ends_compileAll ih f.decl.body.stmts s1 (hfine.body_subset hclosed)).weaken ?_) ?_
      · exact .step (.expansion hf hform hmatched henter)
      · rw [hshape]
        exact hnames
    · rintro before var slot self s1 s2 rfl henter hdone hself hchanged hrefuses
      refine .step (.assignBack hf hform hmatched henter hdone hself hchanged) ?_
      exact ⟨_, _, _, _, _, .refl, rfl, hrefuses⟩

end Compile

namespace CompilerState

theorem inOrder_start (env : Environment) (fine : FunctionDef → Prop) : CompilerState.start.InOrder env fine where
  frames := ⟨_, Frames.start_stack, fun e he => by
    cases mem_singleton.mp he
    exact ⟨by simp, by simp, by simp, by simp⟩⟩
  functions id f h := by simp [CompilerState.start] at h

end CompilerState

/-- A script is refused for a write under runtime control only if it leads to an assignment that is refused. -/
theorem Environment.stuck_of_compile {script : Script} {error : CompileError} (h : env.compile script = .error error)
    (herror : error.fault.isStaticWrite = true) : script.start.Stuck env := by
  have hcalls : Compile.CallsEnd env (Stmt.allParts script.stmts) Compile.expansionDepth :=
    Compile.callsEnd (Stmt.allWoven script.stmts).parts_subset _
  have hmain : Compile.Ends env (Fine (Stmt.allParts script.stmts))
      (Fine (Stmt.allParts script.stmts)) {} (Compile.inRoutine "main" script.span _) _ (fun _ _ => True) _ :=
    .inRoutine (Stmt.ends_compileAll hcalls script.stmts .start (List.Subset.refl _))
  have hmain := hmain ((CompilerState.inOrder_start env _).congr rfl rfl)
  change ((Compile.script script env).run {}).1 = _ at h
  rw [Compile.script, Compile.run_bind] at h
  split at h
  · cases h
  next hrun =>
    rw [hrun] at hmain
    exact hmain (Except.error.inj h ▸ herror)

end Datapack
