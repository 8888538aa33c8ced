import Datapack.Proofs.Course.Basic

/-!
Steps and what they move. One rule for each way to change the state, and then the steps that read, bind and assign
variables.
-/

namespace Datapack

variable {name : String} {body : Compile Unit} {slot : Slot}

theorem Cell.isTemporary_of_available {e e' : Emission} {c : Cell}
    (h : e.Available Cell.IsTemporary e' c) : c.IsTemporary := by
  obtain h | ⟨k, -, -, rfl⟩ := h
  · exact h
  · exact ⟨k, rfl⟩

/-- Steps that move the state, if what is known is where it should be. If they fail, this is not because a program is
not closed. -/
def Regime.course (env : Environment) : Regime env CompilerState where
  state := id
  holds := CompilerState.Seated
  goes := CompilerState.Moves
  stops _ _ error := error.fault.isLink = false
  refl := .refl
  trans := .trans
  holds_of_goes h := h.seated
  stops_of_goes _ := id

namespace Compile

open CompilerState

variable {α : Type} {env : Environment} {s : CompilerState} {P : CompilerState → α → Prop} {step : Compile α}
  {span : Span} {value : Value} {var : Variable} {a : α} {s' : CompilerState} {kind : ScopeKind} {scope : Span}

abbrev Meets (env : Environment) (s : CompilerState) (step : Compile α) (post : CompilerState → α → Prop) : Prop :=
  (Regime.course env).Keeps s step post

/-- Whether a step moves the state and then finishes a routine whose name has been taken for it. -/
def Finishes (env : Environment) (s : CompilerState) (name : String) (step : Compile Unit) : Prop :=
  s.Seated →
    (∃ s1 s2 location, s.Moves s1 ∧ Moves { s1 with draft := s1.draft.push } s2 ∧ (step env).run s =
      (.ok (), { s2 with draft := s2.draft.pop.2.finish name s2.draft.pop.1.toList location })) ∨
    ∃ error s', (step env).run s = (.error error, s') ∧ error.fault.isLink = false

theorem calls_located (node : Node) : (located s node).calls = node.calls := by
  obtain ⟨instr, children, location, index⟩ := node
  cases instr <;> rfl

theorem instrs_located (node : Node) : (located s node).instrs = node.instrs := by
  obtain ⟨instr, children, location, index⟩ := node
  cases instr <;> rfl

theorem Meets.moves (h : Meets env s step P) (hs : s.Seated)
    (hstep : step.Yields env s a s') : s.Moves s' ∧ P s' a := by
  obtain ⟨_, rfl, hmoves, ha⟩ := h.of_yields hs hstep
  exact ⟨hmoves, ha⟩

theorem Meets.seated (h : Meets env s step P) (hs : s.Seated)
    (hstep : step.Yields env s a s') : s'.Seated := (h.moves hs hstep).1.seated hs

theorem meets_change {f : CompilerState → CompilerState} (h : s.Moves (f s)) : Meets env s (modify f) fun _ _ => True :=
  .modifyGet (f s) rfl h trivial

theorem meets_tryEmitting {op : TryEmit α}
    (h : ∀ a e, op.Yields { nextTemporary := s.nextTemporary } a e → s.Moves (absorb e s) ∧ P (absorb e s) a) :
    Meets env s (tryEmitting span op) P :=
  .tryEmitting (fun a e hyields => ⟨_, rfl, h a e hyields⟩) fun _ _ => rfl

theorem meets_emitNode {node : Node} (hcalls : ∀ callee ∈ node.calls, callee ∈ s.routineNames)
    (htargets : ∀ i ∈ node.instrs, ∀ c, i.target? = some c → c.IsTemporary) :
    Meets env s (emitNode node) fun _ _ => True := by
  rw [← calls_located (s := s) node] at hcalls
  rw [← instrs_located (s := s) node] at htargets
  exact meets_change (.write hcalls htargets)

theorem meets_emit {i : Instr} (hcalls : ∀ callee, i = .call callee → callee ∈ s.routineNames)
    (hguarded : ∀ conditions, i ≠ .guarded conditions)
    (htarget : ∀ c, i.target? = some c → c.IsTemporary) : Meets env s (emit i) fun _ _ => True := by
  refine meets_emitNode ?_ ?_
  · intro callee hcallee
    cases i <;> simp_all [Node.leaf, Node.calls, Node.callsAll]
  · rw [Node.leaf, Node.instrs_leaf hguarded]
    simpa using htarget

theorem meets_atLocation (h : Meets env { s with location := span } step fun _ _ => True) :
    Meets env s (atLocation span step) fun _ _ => True := by
  refine .getBind (.bracket _ rfl (fun hs => ⟨hs.frames, hs.functions⟩) (fun s1 _ _ hmoves _ => ?_) (fun _ _ => id) h)
  exact ⟨_, rfl, (Moves.locate s span).trans (hmoves.trans (.locate s1 s.location)), trivial⟩

theorem seated_opened (hs : s.Seated) : (opened kind scope s).Seated := by
  obtain ⟨stack, hstack, hseated⟩ := hs.frames
  obtain ⟨key, f, hopened, -, -, hvars, hreturned, hslot⟩ := Advances.stack_opened hstack
  exact ⟨⟨_, hopened, List.forall_mem_cons.mpr
    ⟨⟨by simp [hvars], by simp [hreturned], by simp [hslot]⟩, hseated⟩⟩, hs.functions⟩

theorem meets_inFrame {P : α → Prop}
    (h : Meets env (opened kind scope s) step fun _ => P) : Meets env s (inFrame kind scope step) fun _ => P :=
  .bracket (opened kind scope s) rfl seated_opened (fun _ _ _ hmoves hP => ⟨_, rfl, .frame hmoves, hP⟩) (fun _ _ => id) h

theorem meets_inPrevious (h : Meets env { s with draft := s.draft.hide } step fun _ _ => True) :
    Meets env s (inPrevious step) fun _ _ => True :=
  .bracket _ rfl (fun hs => ⟨hs.frames, hs.functions⟩) (fun _ _ _ hmoves _ => ⟨_, rfl, .previous hmoves, trivial⟩)
    (fun _ _ => id) h

theorem meets_inBuffer (use : List Node → CompilerState → CompilerState) {P Q : CompilerState → Unit → Prop}
    (hbody : Meets env { s with draft := s.draft.push } body Q)
    (huse : ∀ s1, Moves { s with draft := s.draft.push } s1 → Q s1 () →
      s.Moves (use s1.draft.pop.1.toList { s1 with draft := s1.draft.pop.2 }) ∧
      P (use s1.draft.pop.1.toList { s1 with draft := s1.draft.pop.2 }) ()) :
    Meets env s (inBuffer body >>= fun nodes => modify (use nodes)) P :=
  .inBuffer _ rfl (fun hs => ⟨hs.frames, hs.functions⟩) (fun s1 _ _ hmoves h => ⟨_, rfl, huse s1 hmoves h⟩)
    (fun _ _ => id) hbody

theorem meets_freshRoutine {base : String} {f : String → Compile Unit}
    (h : ∀ name, name ∉ s.routineNames →
      Finishes env { s with routineNames := name :: s.routineNames } name (f name)) :
    Meets env s (freshRoutineName base >>= f) fun _ _ => True := by
  refine .of_cases fun hs => ?_
  have hname := unusedName_notMem base s.routineNames
  have hrun : ((freshRoutineName base) env).run s = (.ok (unusedName base s.routineNames),
    { s with routineNames := unusedName base s.routineNames :: s.routineNames }) := rfl
  rw [run_bind, show ((freshRoutineName base) env).run ((Regime.course env).state s) = _ from hrun]
  refine (h _ hname ⟨hs.frames, fun id f hf => ?_⟩).imp_left ?_
  · exact (hs.functions id f hf).mono (List.subset_cons_self _ _)
  · rintro ⟨s1, s2, location, hfirst, hbody, hrun⟩
    exact ⟨(), _, hrun, .routine location hname hfirst hbody, trivial⟩

theorem Finishes.bind {f : α → Compile Unit} (h : Meets env s step P)
    (hf : ∀ a s', s.Moves s' → P s' a → Finishes env s' name (f a)) : Finishes env s name (step >>= f) := by
  intro hs
  rw [run_bind]
  obtain ⟨a, s', hrun, hmoves, ha⟩ | ⟨error, s', hrun, hlink⟩ := h.cases hs
  · rw [show (step env).run s = (.ok a, s') from hrun]
    refine (hf a s' hmoves ha (hmoves.seated hs)).imp_left ?_
    rintro ⟨s1, s2, location, hbefore, hbody, hlast⟩
    exact ⟨s1, s2, location, hmoves.trans hbefore, hbody, hlast⟩
  · rw [show (step env).run s = (.error error, s') from hrun]
    exact .inr ⟨error, s', rfl, hlink⟩

theorem Finishes.inRoutine (h : Meets env { s with draft := s.draft.push } body fun _ _ => True) :
    Finishes env s name (Compile.inRoutine name span body) := by
  intro hs
  rw [Compile.inRoutine, run_bind, run_inBuffer]
  obtain ⟨_, s2, hrun, hmoves, -⟩ | ⟨error, s', hrun, hlink⟩ := h.cases ⟨hs.frames, hs.functions⟩
  · rw [show (body env).run { s with draft := s.draft.push } = (.ok (), s2) from hrun]
    exact .inl ⟨s, s2, some span, .refl s, hmoves, rfl⟩
  · rw [show (body env).run { s with draft := s.draft.push } = (.error error, s') from hrun]
    exact .inr ⟨error, _, rfl, hlink⟩

theorem meets_of_adds {P : α → Prop}
    (h : Adds (.within env Cell.IsTemporary s.nextTemporary) span s step fun _ a => P a) :
    Meets env s step fun _ a => P a := by
  refine .of_cases fun _ => ?_
  have hadds := h .refl
  cases hrun : (step env).run s with
  | mk outcome s' =>
    cases outcome with
    | ok a =>
      obtain ⟨e, hextends, rfl, ha⟩ := h.extends_of_yields hrun
      exact .inl ⟨a, _, hrun, .compute hextends, ha⟩
    | error error =>
      rw [hrun] at hadds
      exact .inr ⟨error, s', hrun, hadds.2.1⟩

theorem meets_value {step : Compile Value} (h : Adds (.within env Cell.IsTemporary s.nextTemporary) span s step
      (CallRules.within env Cell.IsTemporary s.nextTemporary).value) :
    Meets env s step fun _ v => v.Within Cell.IsTemporary :=
  meets_of_adds (h.imp fun _ _ hv =>
    Value.Places.mono (fun _ _ hc ht => (hc ht).elim id fun ⟨k, _, _, hk⟩ => ⟨k, hk⟩) hv)

theorem meets_operate {op : TryEmit Value}
    (hop : ∀ e v e', op.Yields e v e' → e.Extends Cell.IsTemporary e' ∧ v.Within (e.Available Cell.IsTemporary e')) :
    Meets env s (tryEmitting span op) fun _ v => v.Within Cell.IsTemporary := by
  refine meets_tryEmitting fun v e hyields => ⟨.compute (hop _ v e hyields).1, ?_⟩
  exact (hop _ v e hyields).2.mono fun _ => Cell.isTemporary_of_available

theorem meets_detach : Meets env s (tryEmitting span value.detach) fun s' _ => s'.frames = s.frames :=
  meets_tryEmitting fun _ _ hyields => ⟨.compute (Value.detach_extends hyields).1, rfl⟩

theorem meets_store {base : Slot} (hbase : s.Owns base) (hslot : slot.cell.PartOf base.cell) :
    Meets env s (tryEmitting span (value.store slot)) fun s' stored =>
      s'.frames = s.frames ∧ stored.pinned.SitsAt slot ∧ stored.kind = value.kind ∧
        stored.Places slot.Holds := by
  refine meets_tryEmitting fun stored e hyields => ?_
  obtain ⟨hext, -, hplaces⟩ := Value.store_extends hyields
  refine ⟨.store hbase (hext.mono ?_), rfl, (Value.sitsAt_of_store hyields).1,
    (Value.sitsAt_of_store hyields).2, hplaces⟩
  rintro c rfl
  exact .inr hslot

variable {key : Nat} {path : List Selector}

theorem seated_of_find? (hs : s.Seated) (hfind : s.frames.find? name = some (key, var)) :
    var.value.Seated var.slot ∧ ∀ slot, var.slot = some slot → s.HasSlot slot := by
  obtain ⟨stack, hstack, hseated⟩ := hs.frames
  obtain ⟨f, hf, hvar⟩ := hstack.find?_eq_some hfind
  refine ⟨(hseated _ hf).vars _ (Ordered.mem_of_get? hvar), fun slot hslot => ?_⟩
  exact ⟨key, f, name, var, hstack.ancestors_eq.symm ▸ hf, hvar, hslot⟩

theorem meets_bindNew (hvar : var.value.Seated var.slot) : Meets env s (bindNew name var span) fun _ _ => True := by
  refine .framesBind ?_
  split
  next frames hbind => exact meets_change (.bind hbind hvar)
  next => exact .fail rfl

theorem seated_pinned {stored : Value} (hslot : slot.IsVariable) (h : stored.pinned.SitsAt slot) :
    stored.pinned.Seated (some slot) := by
  refine ⟨stored.within_pinned, fun place hplace => ?_⟩
  cases hplace
  exact ⟨hslot, h⟩

theorem seated_held (held : Value) : held.pinned.Seated none :=
  ⟨held.within_pinned, fun _ hplace => by cases hplace⟩

theorem meets_replace {current : Value} {slot : Option Slot}
    (hslot : ∀ sl, slot = some sl → (∃ base, s.Owns base ∧ sl.cell.PartOf base.cell) ∧ current.SitsAt sl) :
    Meets env s (replace value span path current slot) fun s' new => s'.frames = s.frames ∧
      ∀ sl, slot = some sl → new.pinned.SitsAt sl ∧ current.kind.accepts new.kind = true := by
  refine .replace (fun place old hplace hold haccepts => ?_) (fun hnone => ?_) fun fault hfault => ?_
  · obtain ⟨⟨base, hbase, hpart⟩, hcurrent⟩ := hslot place hplace
    refine .imp (meets_store hbase ((place.partOf_along path).1.trans hpart)) fun s' part _ hstored => ?_
    refine ⟨hstored.1, fun sl hsl => ?_⟩
    cases Option.some.inj (hplace.symm.trans hsl)
    exact ⟨hcurrent.graft hstored.2.1, Value.kind_graft (hstored.2.2.1.symm ▸ haccepts) hold⟩
  · exact .imp meets_detach fun _ _ _ hframes => ⟨hframes, fun sl hsl => absurd (hnone.symm.trans hsl) nofun⟩
  · exact hfault.isLink

theorem meets_rebind (hfind : s.frames.find? name = some (key, var))
    (hstatic : var.slot = none → s.frames.isDynamicBelow key = false) :
    Meets env s (do
      let updated ← replace value span path var.value var.slot
      match (← frames).rebind name updated.pinned with
      | .ok frames => modifyFrames fun _ => frames
      | .error _ => fail (.internal "variable disappeared during assignment") span) fun _ _ => True := by
  refine .of_holds fun hs => ?_
  obtain ⟨hvar, hslots⟩ := seated_of_find? hs hfind
  refine .bind (meets_replace fun slot hslot => ?_) fun new s' _ hnew => .framesBind ?_
  · exact ⟨⟨slot, .bound (hslots slot hslot), .refl _⟩, (hvar.sits slot hslot).2⟩
  · obtain ⟨hframes, hnew⟩ := hnew
    rw [show ((Regime.course env).state s').frames = s.frames from hframes]
    split
    next frames hrebind =>
      refine meets_change (.rebind (hframes ▸ hfind) (hframes ▸ hrebind) (fun hnone => hframes ▸ hstatic hnone) ?_ ?_)
      · exact ⟨new.within_pinned, fun slot hslot => ⟨(hvar.sits slot hslot).1, (hnew slot hslot).1⟩⟩
      · intro hsome
        obtain ⟨slot, hslot⟩ := Option.ne_none_iff_exists'.mp hsome
        rw [Value.pinned, Value.kind_mark]
        exact (hnew slot hslot).2
    next => exact .fail rfl

end Compile

end Datapack
