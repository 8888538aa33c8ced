import Datapack.Proofs.Course.Step

/-!
The course of a compilation. Every step moves the state: the values of expressions offer only temporaries for change,
branches and loops are written to buffers of their own, and functions give back what they return.
-/

namespace Datapack

open List Value

variable {value : Value} {env : Environment} {s : CompilerState} {span : Span} {body : Compile Unit}
  {routine name : String}

theorem Kind.sitsAt_atSlot? {kind : Kind} {slot : Slot} (hslot : slot.temporary = false)
    (h : kind.atSlot? slot = some value) : value.SitsAt slot := by
  cases kind <;> simp only [atSlot?, Option.some.injEq, reduceCtorEq, hslot] at h <;> subst h
  case number | fixed | bool | string => exact rfl
  case null => trivial

namespace Compile

open Syntax CompilerState

variable {frame : Frame}

theorem meets_callBuiltin {builtin : Builtin} {args : List Value} (hargs : ∀ v ∈ args, v.Within Cell.IsTemporary) :
    Meets env s (callBuiltin builtin args span) fun _ v => v.Within Cell.IsTemporary := by
  by_cases hrun : builtin = .run
  · subst hrun
    refine .bind (meets_of_adds (adds_matchCall (P := fun _ => True) (by simp) (by simp))) fun _ _ _ _ => ?_
    exact .bind (meets_emit (by simp) (by simp) (by simp [Instr.target?])) fun _ _ _ _ => .pure trivial
  · exact meets_value (adds_callBuiltin hrun.elim fun v hv => (hargs v hv).mono fun _ => .inl)

theorem meets_stableCondition {condition : Condition} {ownCell : Bool} :
    Meets env s (stableCondition condition ownCell) fun _ _ => True := by
  unfold stableCondition
  split
  · exact .pure trivial
  · refine .bind (P := fun _ c => c.IsTemporary) (.emitting fun c e hyields => ?_) fun target _ _ htarget => ?_
    · obtain ⟨rfl, rfl⟩ := Emit.yields_freshCell.mp hyields
      exact ⟨_, rfl, .compute .fresh, _, rfl⟩
    · refine .bind (meets_emit (by simp) (by simp) fun c hc => ?_) fun _ _ _ _ => .pure trivial
      exact Option.some.inj hc ▸ htarget

theorem meets_loop {expand : Expansion} {cond : Expr}
    (hcall : ∀ s : CompilerState, ∀ name ∈ s.routineNames, Meets env s (callIf expand cond name) fun _ _ => True)
    (hbody : ∀ s, Meets env s body fun _ _ => True) : Meets env s (loop expand cond body span) fun _ _ => True := by
  refine .getBind (meets_freshRoutine fun name _ => ?_)
  refine .bind (meets_change (.label _ _)) fun _ s1 hmoves _ => .inRoutine ?_
  have hname : name ∈ s1.routineNames := hmoves.routineNames_subset (.head _)
  refine .bind (meets_inPrevious (hcall _ name hname)) fun again s2 hmore _ => ?_
  split
  · refine .bind (hbody s2) fun _ s3 hlast _ => .bind (hcall s3 name ?_) fun _ _ _ _ => .pure trivial
    exact hlast.routineNames_subset (hmore.routineNames_subset hname)
  · exact .pure trivial

theorem meets_registerFunction {f : FunctionDef} (hf : f.Seated s.routineNames) :
    Meets env s (registerFunction f) fun _ _ => True := .modifyGet _ rfl (.function hf) trivial

theorem seated_plain {known : List String} (h : routine ∈ known) (signature : Signature) (decl : Function)
    (frameId : Nat) :
    FunctionDef.Seated known ⟨signature, decl, .plain routine
      (signature.params.map fun p => Slot.ofVariable frameId p.name) (Slot.ofVariable frameId returnName)⟩ := by
  intro routine params result hform
  obtain ⟨rfl, rfl, rfl⟩ := FunctionForm.plain.inj hform
  refine ⟨h, ?_, Slot.isVariable_ofVariable frameId returnName⟩
  exact forall_mem_map.mpr fun p _ => Slot.isVariable_ofVariable frameId p.name

theorem seated_top (hs : s.Seated) : s.frames.top.Seated := by
  obtain ⟨stack, hstack, hseated⟩ := hs.frames
  cases stack with
  | nil => simpa using hstack.current
  | cons e rest =>
    rw [hstack.top_eq]
    exact hseated e (.head _)

end Compile

open Compile

def PlaceRules.course (env : Environment) : PlaceRules env CompilerState where
  toRegime := .course env
  terms := .nothing
  clean _ := True
  value _ v := v.Within Cell.IsTemporary
  stored _ _ := True
  current s v := v.Within Cell.IsTemporary ∨
    ∃ slot, s.HasSlot slot ∧ v.Within fun c => c.IsTemporary ∨ c.PartOf slot.cell
  fixed _ _ := True
  object _ r := r.value.Seated r.slot
  bindable _ _ var := var.value.Seated var.slot
  value_of_goes _ := id
  stored_of_goes _ := id
  current_of_goes hs h := Or.imp_right fun ⟨slot, hslot, hv⟩ => ⟨slot, h.hasSlot hs hslot, hv⟩
  fixed_of_goes _ := id
  object_of_goes _ := id
  stop _ hfault := hfault
  clean_of _ := trivial
  known := places_of_static
  known_fixed _ _ := trivial
  array := itemPlaces_iff
  store _ := trivial
  select hpart := ⟨fun h => leafwise_places.select h hpart, fun _ => trivial⟩
  found hs hfind := ⟨(seated_of_find? hs hfind).1.within, trivial, trivial, (seated_of_find? hs hfind).1⟩
  part hs hfind hpart := by
    obtain ⟨hvar, hslots⟩ := seated_of_find? hs hfind
    split
    next hsome =>
      obtain ⟨slot, hslot⟩ := Option.isSome_iff_exists.mp hsome
      refine .inr ⟨slot, hslots slot hslot, Within.mono (fun _ => .inr) (Lies.inPlace ?_)⟩
      exact leafwise_places.selectPath (hvar.sits slot hslot).2.lies hpart
    next => exact .inl (leafwise_places.selectPath hvar.within hpart)
  free hv _ := ⟨hv, fun _ hslot => by cases hslot⟩
  hold _ _ := seated_held _
  receive hr := hr
  parameter _ _ hv := by
    refine ⟨within_of_holds (Slot.isVariable_ofVariable _ _) (Kind.places_atSlot? hv), fun place hplace => ?_⟩
    cases hplace
    exact ⟨Slot.isVariable_ofVariable _ _, Kind.sitsAt_atSlot? rfl hv⟩
  bind _ hvar := meets_bindNew hvar
  storeNew _ _ _ := .imp (meets_store (.new _) (.refl _)) fun _ _ _ hstored _ _ _ =>
    seated_pinned (Frame.isVariable_slotFor _ _) hstored.2.1
  detachNew _ _ _ := .imp meets_detach fun _ held _ _ _ _ _ => seated_held held
  overwrite _ _ hfind hstatic _ := meets_rebind hfind hstatic
  returnTo := meets_change (.head fun _ => ⟨rfl, rfl, rfl, rfl, rfl, fun _ hslot =>
    .inr (Option.some.inj hslot ▸ Slot.isVariable_ofVariable _ _)⟩)
  returnKind := meets_change (.head fun _ => ⟨rfl, rfl, rfl, rfl, rfl, fun _ => .inl⟩)

namespace Compile

variable {signature : Signature}

theorem meets_declare {constant : Bool} : Meets env s (declare name value span constant) fun _ _ => True :=
  PlaceRules.keeps_declare (R := .course env) trivial trivial trivial

theorem meets_returnValue (hvalue : value.Within Cell.IsTemporary) :
    Meets env s (returnValue value span) fun _ _ => True := by
  refine .of_holds fun hs => PlaceRules.keeps_returnValue (R := .course env) trivial fun key frame hkey hframe => ?_
  have hslot : (frame.returnSlot.getD (frame.slotFor returnName)).IsVariable := by
    obtain ⟨stack, hstack, hseated⟩ := hs.frames
    obtain ⟨e, he, rfl⟩ := hstack.mem_of_enclosingFunction? hkey
    cases Option.some.inj ((hstack.get _ e.2 he).symm.trans hframe)
    cases hsome : e.2.returnSlot with
    | none => exact e.2.isVariable_slotFor returnName
    | some slot => exact (hseated e he).returnSlot slot hsome
  refine .imp (.keptResult (fun _ => hvalue) (fun previous _ => ?_) fun s' _ hframes => ?_) fun _ kept _ hkept =>
    meets_change (.result hkept.1)
  · refine meets_inBuffer (Q := fun _ _ => True)
      (fun nodes s1 => { s1 with draft := s1.draft.appendAt frame.bufferDepth nodes })
      ?_ fun _ hmoves _ => ⟨.earlier frame.bufferDepth hmoves, trivial⟩
    exact .discard (.anything (meets_store ((CompilerState.Owns.result hframe).congr rfl rfl) (.refl _)))
  · exact .imp (meets_store (.result (hframes ▸ hframe)) (.refl _)) fun _ _ _ h => within_of_holds hslot h.2.2.2

theorem finishes_declarePlain {decl : Syntax.Function} (hroutine : routine ∈ s.routineNames)
    (hbody : ∀ s, Meets env s body fun _ _ => True) :
    Finishes env s routine (declarePlain decl signature routine body) := by
  refine .bind (P := fun _ _ => True) (.modifyGet _ rfl (.number s) trivial) fun frameId s1 hmoves _ => ?_
  refine .bind (meets_registerFunction (seated_plain (hmoves.routineNames_subset hroutine) _ _ _)) fun id s2 _ _ => ?_
  refine .bind meets_declare fun _ s3 _ _ => .inRoutine (meets_inFrame ?_)
  exact PlaceRules.keeps_plainBody (R := .course env) (fun _ _ => ⟨trivial, trivial⟩) (fun _ _ => trivial) fun s _ => hbody s

end Compile

def StepRules.course (env : Environment) : StepRules env CompilerState where
  toPlaceRules := .course env
  inside _ := True
  function s f := ∃ id : Nat, s.functions[id]? = some f
  routine s name := name ∈ s.routineNames
  tested _ _ _ := True
  stable _ _ := True
  inside_of_goes _ := id
  function_of_goes h := fun ⟨id, hf⟩ => ⟨id, h.grows.2 id _ hf⟩
  routine_of_goes h hname := h.routineNames_subset hname
  stable_of_goes _ := id
  truth _ := trivial
  nonzero _ := trivial
  negate := id
  registered _ hf := ⟨_, hf⟩
  default _ _ _ _ _ := trivial
  params _ _ _ := ⟨trivial, trivial⟩
  receiver _ _ := trivial
  body _ := Terms.nothing_allows _
  objectName _ _ := trivial
  unary _ hv := meets_operate fun _ _ _ h => unary_extends hv h
  binary _ ha hb := meets_operate fun _ _ _ h => binary_extends ha hb h
  update _ hcurrent hv := by
    refine meets_tryEmitting fun result e hyields => ⟨?_, trivial⟩
    obtain hcurrent | ⟨slot, hslot, hcurrent⟩ := hcurrent
    · exact .compute (binary_extends hcurrent hv hyields).1
    · exact .store (.bound hslot) (binary_extends hcurrent (hv.mono fun _ => .inl) hyields).1
  callBuiltin _ hargs := meets_callBuiltin hargs
  construct _ hargs := meets_value (adds_construct (fun v hv => (hargs v hv).mono fun _ => .inl)
    fun _ _ _ _ hfields => fieldPlaces_iff.mpr fun x hx => (hfields x hx).2)
  pass _ hf hform hslot _ := .anything (meets_store (.parameter hf.choose_spec hform hslot) (.refl _))
  enter hf hform := .of_holds fun hs => by
    refine meets_emit (fun callee heq => ?_) (by simp) (by simp [Instr.target?])
    exact Instr.call.inj heq ▸ (hs.functions _ _ hf.choose_spec _ _ _ hform).1
  fetch _ hf hform hv := .of_holds fun hs => meets_operate fun _ _ _ h => (detach_extends h).imp_right
    (· (within_of_holds (hs.functions _ _ hf.choose_spec _ _ _ hform).2.2 (Kind.places_atSlot? hv)))
  stabilize _ := meets_stableCondition
  call hname := meets_emitNode (by simpa [Node.leaf, Node.calls, Node.callsAll] using hname)
    (by simp [Node.leaf, Node.instrs, Node.lines, Instr.target?])
  callIf hname _ := meets_emitNode (by simpa [Node.leaf, Node.guarded, Node.calls, Node.callsAll] using hname)
    (by simp [Node.leaf, Node.guarded, Node.instrs, Node.lines, Node.linesAll, Instr.target?])
  locate h _ _ := meets_atLocation (h _ trivial)
  frame _ h := meets_inFrame (h _ trivial fun _ => id)
  inline h := by
    refine .bracket (opened _ _ _) rfl seated_opened (fun s1 result hs hmoves hresult => ?_) (fun _ _ => id)
      (h _ trivial (fun _ => id) fun _ => id)
    refine ⟨_, rfl, .frame hmoves, ?_, fun _ _ => trivial⟩
    rw [hresult]
    cases hreturned : Frame.returned _ with
    | none => trivial
    | some v => exact (seated_top (hmoves.seated (seated_opened hs))).returned v hreturned
  guard _ _ h := meets_inBuffer
    (fun nodes s1 => { s1 with draft := s1.draft.append (located s1 (.guarded [_] nodes)) }) (h _ trivial)
    fun _ hmoves _ => ⟨.guarded [_] _ hmoves, trivial⟩
  loop hcall hbody := meets_loop hcall fun s => hbody s trivial
  giveBack _ _ hv := meets_returnValue hv
  register _ _ := meets_registerFunction fun _ _ _ hform => by cases hform
  plain _ _ hbody := by
    refine meets_freshRoutine fun name _ => ?_
    split
    · refine .bind (meets_change (.init (.head _))) fun _ s2 hmoves _ => ?_
      exact finishes_declarePlain (hmoves.routineNames_subset (.head _)) fun s => hbody s trivial
    · exact finishes_declarePlain (.head _) fun s => hbody s trivial
  addStruct _ := .modifyGet _ rfl (.structs _ _) trivial
  addMethod := meets_change (.structs _ _)

theorem Syntax.Stmt.meets_compileAll (env : Environment) (budget : Nat) (s : CompilerState) (stmts : List Stmt) :
    Meets env s (Stmt.compileAll (expandWithin budget) stmts) fun _ _ => True :=
  Stmt.runs_compileAll ((StepRules.course env).expands_expandWithin budget) stmts (Terms.nothing_allows _) s trivial

theorem Syntax.Expr.meets_decide (env : Environment) (budget : Nat) (s : CompilerState) (cond : Expr) :
    Meets env s (Compile.decide (expandWithin budget) cond) fun _ _ => True :=
  (StepRules.keeps_decide ((StepRules.course env).expands_expandWithin budget) (Terms.nothing_allowsExpr _)).anything

theorem Syntax.Expr.meets_callIf (env : Environment) (budget : Nat) (cond : Expr)
    (hname : name ∈ s.routineNames) : Meets env s (callIf (expandWithin budget) cond name) fun _ _ => True :=
  StepRules.keeps_callIf ((StepRules.course env).expands_expandWithin budget) (Terms.nothing_allowsExpr _) hname

theorem CompilerState.seated_start : start.Seated where
  frames := ⟨_, Frames.start_stack, fun e he => by
    cases mem_singleton.mp he
    exact ⟨by simp, by simp, by simp⟩⟩
  functions id f h := by simp [start] at h

end Datapack
