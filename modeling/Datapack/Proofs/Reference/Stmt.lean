import Datapack.Proofs.Reference.Step

/-!
Statements and whole scripts refer to fit places. Everything that a script compiles to refers to variables, to
temporaries, and to constants that `init` fills.
-/

namespace Datapack

open Syntax Compile PlaceRules

variable {names : Prop} {env : Environment} {s : CompilerState} {span : Span}

def Terms.naming (names : Prop) : Terms := ⟨fun _ => True, names, False⟩

theorem Syntax.Stmt.Bind.allows {stmts : List Stmt} (h : Stmt.Bind names stmts) : (Terms.naming names).Allows stmts :=
  ⟨fun _ _ => trivial, h, nofun⟩

def PlaceRules.fitness (names : Prop) (env : Environment) : PlaceRules env CompilerState where
  toRegime := .fitness names env
  terms := .naming names
  clean := Clean names
  value _ v := v.Fit names
  stored _ v := v.Fit names
  current _ v := v.Fit names
  fixed _ _ := True
  object _ r := r.Fit names
  bindable _ name var := var.Fit names name
  value_of_goes _ := id
  stored_of_goes _ := id
  current_of_goes _ _ := id
  fixed_of_goes _ := id
  object_of_goes _ := id
  stop _ _ := trivial
  clean_of h hnames := Clean.isName (h hnames) hnames
  known := Value.fit_of_static
  known_fixed _ _ := trivial
  array := Value.itemsFit_iff
  store := id
  select hpart := ⟨fun h => Value.leafwise_fit.select h hpart, id⟩
  found hs hfind := by
    have hvar := hs.frames.find? hfind
    exact ⟨hvar.value, trivial, hvar.clean, hvar.value, hvar.slot, fun _ h => Option.some.inj h ▸ hvar.clean⟩
  part hs hfind hpart := by
    have hpart := Value.leafwise_fit.selectPath (hs.frames.find? hfind).value hpart
    split
    · exact Value.Fit.mark hpart true
    · exact hpart
  free hv _ := ⟨hv, nofun, nofun⟩
  hold hname hv := Variable.fit_pinned hname hv nofun
  receive hr := ⟨.of (by decide), hr.value, hr.slot⟩
  parameter hname hformal hv :=
    ⟨hname, Kind.fit_atSlot? (.ofVariable _ hformal) hv, fun _ h => Option.some.inj h ▸ .ofVariable _ hformal⟩
  bind _ hvar := sustains_bindNew hvar
  storeNew _ hname hv := .imp (sustains_store hv (.ofVariable _ hname)) fun _ _ _ hheld _ _ _ =>
    Variable.fit_pinned hname hheld fun _ h => Option.some.inj h ▸ .ofVariable _ hname
  detachNew _ hname hv := .imp (sustains_detach hv) fun _ _ _ hheld _ _ _ => Variable.fit_pinned hname hheld nofun
  overwrite _ hs hfind _ hv := by
    have hvar := hs.frames.find? hfind
    refine .bind (sustains_replace hv hvar.value hvar.slot) fun updated _ _ hupdated => .framesBind ?_
    split
    next hrebind => exact sustains_modifyFrames fun hfs => hfs.rebind hupdated hrebind
    next => exact .fail trivial
  returnTo := sustains_modifyFrames fun hfs => hfs.modify fun f hf =>
    ⟨hf.vars, fun _ h => Option.some.inj h ▸ .ofVariable _ (.of (by decide)), hf.returned⟩
  returnKind := sustains_modifyFrames fun hfs => hfs.modify fun f hf => ⟨hf.vars, hf.returnSlot, hf.returned⟩

theorem Compile.sustains_returnValue {value : Value} (hvalue : value.Fit names) :
    Sustains names env s (returnValue value span) fun _ _ => True := by
  refine .of_holds fun hs => keeps_returnValue (R := .fitness names env) trivial fun key frame _ hframe => ?_
  have hframe : frame.Fit names := hs.frames key frame hframe
  have hslot : (frame.returnSlot.getD (frame.slotFor returnName)).Fit names := by
    cases hsome : frame.returnSlot with
    | none => exact .ofVariable _ (.of (by decide))
    | some slot => exact hframe.returnSlot slot hsome
  refine .imp (.keptResult (fun _ => hvalue) (fun previous hprevious => ?_) fun _ _ _ => sustains_store hvalue hslot)
    fun _ kept _ hkept => ?_
  · refine sustains_inBuffer _ (fun _ _ hdraft hnodes => hdraft.appendAt frame.bufferDepth hnodes) ?_
    exact .discard (.anything (sustains_store (hframe.returned previous hprevious) hslot))
  · refine sustains_modifyFrames fun hfs => hfs.modify fun f hf => ⟨hf.vars, hf.returnSlot, fun v hv => ?_⟩
    exact Option.some.inj hv ▸ hkept.1

theorem Compile.sustains_declarePlain {decl : Function} {signature : Signature} {routine : String} {body : Compile Unit}
    (hname : Clean names decl.name) (hparams : ∀ param ∈ decl.params, Clean names param.name)
    (hbinds : Stmt.Bind names decl.body.stmts) (hroutine : Clean names routine)
    (hsignature : ∀ p ∈ signature.params, Clean names p.name ∧ ∀ v, p.default? = some v → v.Fit names)
    (hbody : ∀ s, Sustains names env s body fun _ _ => True) :
    Sustains names env s (declarePlain decl signature routine body) fun _ _ => True := by
  refine .bind (sustains_modifyGet (P := fun _ _ => True) (fun hs => hs.withFrames hs.frames) trivial) ?_
  refine fun frameId _ _ _ => .bind (sustains_registerFunction ⟨?_, hparams, hbinds, ?_⟩) fun id _ _ _ => ?_
  · exact fun p hp => (hsignature p hp).2
  · intro _ params result hform
    obtain ⟨rfl, rfl, rfl⟩ := FunctionForm.plain.inj hform
    refine ⟨hroutine, fun slot hslot => ?_, .ofVariable frameId (.of (by decide))⟩
    obtain ⟨p, hp, rfl⟩ := List.mem_map.mp hslot
    exact .ofVariable frameId (hsignature p hp).1
  · refine .bind (keeps_declare (R := .fitness names env) trivial hname trivial) fun _ _ _ _ => ?_
    refine sustains_inRoutine (sustains_inFrame (keeps_plainBody (R := .fitness names env) ?_ ?_ ?_))
    · exact fun param hparam => ⟨trivial, hparams param hparam⟩
    · exact fun p hp => (hsignature p hp).1
    · exact fun s _ => hbody s

def StepRules.fitness (names : Prop) (env : Environment) (henv : env.Clean names) : StepRules env CompilerState where
  toPlaceRules := .fitness names env
  inside _ := True
  function _ f := f.Fit names
  routine _ name := Clean names name
  tested _ c _ := c.Fit names
  stable _ c := c.Fit names
  inside_of_goes _ := id
  function_of_goes _ := id
  routine_of_goes _ := id
  stable_of_goes _ := id
  truth := id
  nonzero := id
  negate := id
  registered hs hf := hs.functions _ (Array.mem_of_getElem? hf)
  default hf := hf.default
  params hf param hparam := ⟨trivial, hf.params param hparam⟩
  receiver _ _ := trivial
  body hf := hf.body.allows
  objectName hr hname := hr.var _ hname
  unary _ hv := .imp (sustains_tryEmitting (Value.obeys_unary hv.headPlaces)) fun _ _ _ h => h.fit
  binary _ ha hb := .imp (sustains_tryEmitting (Value.obeys_binary ha.headPlaces hb.headPlaces)) fun _ _ _ h => h.fit
  update _ ha hb := .imp (sustains_tryEmitting (Value.obeys_binary ha.headPlaces hb.headPlaces)) fun _ _ _ h => h.fit
  callBuiltin _ hargs := sustains_of_adds henv fun _ => adds_callBuiltin (fun _ => trivial) hargs
  construct _ hargs := by
    refine sustains_of_adds henv fun hs => adds_construct hargs ?_
    intro n declared fields hdeclared hfields
    refine Value.fieldsFit_iff.mpr fun x hx => ⟨?_, (hfields x hx).2⟩
    obtain ⟨field, hfield, hname⟩ := List.mem_map.mp (hfields x hx).1
    exact hname ▸ hs.structs declared (Array.mem_of_getElem? hdeclared) field hfield
  pass _ hf hform hslot hv := .anything (sustains_store hv ((hf.plain _ _ _ hform).2.1 _ hslot))
  enter hf hform := sustains_emitNode ⟨(hf.plain _ _ _ hform).1, trivial⟩
  fetch _ hf hform hv := sustains_detach (Kind.fit_atSlot? (hf.plain _ _ _ hform).2.2 hv)
  stabilize hc := sustains_stableCondition hc
  call hname := sustains_emitNode ⟨hname, trivial⟩
  callIf hname hc := sustains_emitNode ⟨fun _ h => List.mem_singleton.mp h ▸ hc, ⟨hname, trivial⟩, trivial⟩
  locate h s _ := .getBind (sustains_bracket
    (fun hs => ⟨hs.frames, hs.draft, hs.functions, hs.structs, hs.distinct, hs.userInit⟩)
    (fun _ _ hs _ => ⟨⟨hs.frames, hs.draft, hs.functions, hs.structs, hs.distinct, hs.userInit⟩, trivial⟩)
    (h _ trivial))
  frame _ h := sustains_inFrame (h _ trivial fun _ => id)
  inline h := by
    refine sustains_bracket (fun hs => hs.opened _ _) (fun s1 result hs hresult => ?_)
      (h (opened _ _ _) trivial (fun _ => id) fun _ => id)
    refine ⟨hs.withFrames hs.frames.pop, ?_, fun v hv => ?_⟩
    · rw [hresult]
      change (s1.frames.top.returned.getD .null).Fit names
      cases hreturned : s1.frames.top.returned with
      | none => trivial
      | some v => exact hs.frames.top.returned v hreturned
    · rw [hresult] at hv
      obtain ⟨var, hvar, rfl⟩ := Option.map_eq_some_iff.mp hv
      exact (hs.frames.top.vars _ (Ordered.mem_of_get? hvar)).value
  guard _ hc h := sustains_inBuffer (fun nodes s' => s'.draft.append (located s' (.guarded [_] nodes)))
    (fun _ _ hdraft hnodes => hdraft.append ⟨fun _ h => List.mem_singleton.mp h ▸ hc, Node.allIn_iff.mpr hnodes⟩)
    (h _ trivial)
  loop hcall hbody := sustains_loop hcall fun s => hbody s trivial
  giveBack _ _ hv := sustains_returnValue hv
  register hdecl hparams := sustains_registerFunction
    ⟨hparams, fun _ => clean_param (R := .fitness names env) hdecl, hdecl.body.named, nofun⟩
  plain hdecl hsignature hbody := by
    have hname := clean_name (R := .fitness names env) hdecl
    refine .bind (sustains_freshRoutineName hname) fun routine s1 _ hroutine => ?_
    have hplain : ∀ s', Sustains names env s' _ fun _ _ => True := fun s' =>
      sustains_declarePlain hname (fun _ => clean_param (R := .fitness names env) hdecl) hdecl.body.named
        hroutine hsignature fun s => hbody s trivial
    split
    · refine .bind (sustains_modify fun hs => ?_) fun _ s' _ _ => hplain s'
      refine ⟨hs.frames, hs.draft, hs.functions, hs.structs, hs.distinct, fun other hother => ?_⟩
      exact Option.some.inj hother ▸ hroutine
    · exact hplain s1
  addStruct hfields := by
    refine sustains_modifyGet (fun hs => ?_) trivial
    refine ⟨hs.frames, hs.draft, hs.functions, fun d hd => ?_, hs.distinct, hs.userInit⟩
    obtain hd | rfl := Array.mem_push.mp hd
    · exact hs.structs d hd
    · exact hfields
  addMethod := by
    refine sustains_modify fun hs => ?_
    refine ⟨hs.frames, hs.draft, hs.functions, fun d hd => ?_, hs.distinct, hs.userInit⟩
    obtain ⟨i, hi, rfl⟩ := Array.mem_iff_getElem.mp hd
    have hold := hs.structs _ (Array.getElem_mem (by simpa using hi))
    simp only [Array.getElem_modify]
    split
    · exact hold
    · exact hold

theorem Syntax.Stmt.fit_compileAll {budget : Nat} {stmts : List Stmt} (henv : env.Clean names)
    (hstmts : Stmt.Bind names stmts)
    (hrun : (Stmt.compileAll (Compile.expandWithin budget) stmts).Yields env .start () s) : s.Fit names := by
  have hkeeps := Stmt.runs_compileAll ((StepRules.fitness names env henv).expands_expandWithin budget)
    stmts hstmts.allows .start trivial
  obtain ⟨_, rfl, hgoes, -⟩ := hkeeps.of_yields .start hrun
  exact hgoes .start

end Datapack
