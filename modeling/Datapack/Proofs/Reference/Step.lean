import Datapack.Proofs.Reference.State

/-!
Steps of a compilation that keep its state fit, each of them from a fit state on.
-/

namespace Datapack

open Syntax

variable {names : Prop} {env : Environment} {s : CompilerState}

def CallRules.fit (names : Prop) (henv : env.Clean names) : CallRules env where
  toDiscipline := .fit names
  value _ v := v.Fit names
  raw := True
  value_mono _ := id
  number := Iff.rfl
  fixed := Iff.rfl
  bool := Iff.rfl
  text := trivial
  null := trivial
  array := Value.itemsFit_iff
  parts h x hx := (Value.fieldsFit_iff.mp h x hx).2
  tests := by
    rintro n _ (rfl | rfl | ⟨feature, hfeature, rfl⟩)
    · exact Clean.of (by decide)
    · exact Clean.of (by decide)
    · exact .append (.of (by decide)) (henv.feature feature hfeature)
  shows _ hcell := ⟨Path.clean_temporary _, hcell⟩
  tells := trivial
  places hblock := henv.block _ hblock
  runs _ := trivial

def Regime.fitness (names : Prop) (env : Environment) : Regime env CompilerState where
  state := id
  holds := CompilerState.Fit names
  goes s s' := s.Fit names → s'.Fit names
  stops _ _ _ := True
  refl _ := id
  trans h h' hs := h' (h hs)
  holds_of_goes := id
  stops_of_goes _ := id

theorem Clean.unusedName {base : String} (h : Clean names base) (used : List String) :
    Clean names (Compile.unusedName base used) := by
  rw [Compile.unusedName]
  cases hfind : List.find? _ _ with
  | none => exact h
  | some name =>
    obtain rfl | hmem := List.mem_cons.mp (List.mem_of_find?_eq_some hfind)
    · exact h
    · obtain ⟨k, -, rfl⟩ := List.mem_map.mp hmem
      exact (h.append (.of (by decide))).append (.toString _)

namespace Compile

variable {α : Type} {P : CompilerState → α → Prop} {span : Span} {body : Compile α} {name : String} {value : Value}
  {op : TryEmit α} {slot : Slot} {path : List Selector} {frame : Frame}

abbrev Sustains (names : Prop) (env : Environment) (s : CompilerState) (step : Compile α)
    (post : CompilerState → α → Prop) : Prop :=
  (Regime.fitness names env).Keeps s step post

theorem sustains_modifyGet {f : CompilerState → α × CompilerState} (h : s.Fit names → (f s).2.Fit names)
    (hP : P (f s).2 (f s).1) : Sustains names env s (modifyGet f) P :=
  .modifyGet (f s).2 rfl h hP

theorem sustains_modify {f : CompilerState → CompilerState} (h : s.Fit names → (f s).Fit names) :
    Sustains names env s (modify f) fun _ _ => True :=
  sustains_modifyGet h trivial

theorem sustains_modifyFrames {f : Frames → Frames} (h : s.frames.Fit names → (f s.frames).Fit names) :
    Sustains names env s (modifyFrames f) fun _ _ => True :=
  sustains_modify fun hs => hs.withFrames (h hs.frames)

theorem sustains_emitNode {node : Node} (h : node.All (Instr.Fit names [])) :
    Sustains names env s (emitNode node) fun _ _ => True := by
  refine sustains_modify fun hs => hs.withDraft (hs.draft.append ?_)
  have hall := h.mono fun i hi => hi.mono (List.nil_subset s.constants)
  obtain ⟨instr, children, location, number⟩ := node
  exact hall

theorem sustains_emitting {op : Emit α} {P : Nat → α → Prop} (h : Emit.Obeys (.fit names) s.nextTemporary op P) :
    Sustains names env s (emitting op) fun s' a => P s'.nextTemporary a := by
  refine .of_holds fun hs => .emitting fun a e hop => ?_
  have hfits := h { nextTemporary := s.nextTemporary } (Nat.zero_le _) .refl
  rw [show op.run { nextTemporary := s.nextTemporary } = (a, e) from hop] at hfits
  exact ⟨_, rfl, fun _ => hs.absorb hfits.1, hfits.2⟩

theorem sustains_of_follows {P : Nat → α → Prop} (h : ∀ a e, op.Yields { nextTemporary := s.nextTemporary } a e →
      Emission.Follows (.fit names) { nextTemporary := s.nextTemporary } e ∧ P e.nextTemporary a) :
    Sustains names env s (tryEmitting span op) fun s' a => P s'.nextTemporary a := by
  refine .of_holds fun hs => .tryEmitting (fun a e hop => ?_) fun _ _ => trivial
  exact ⟨_, rfl, fun _ => hs.absorb (h a e hop).1, (h a e hop).2⟩

theorem sustains_tryEmitting {P : Nat → α → Prop} (h : Emit.TryObeys (.fit names) s.nextTemporary op P) :
    Sustains names env s (tryEmitting span op) fun s' a => P s'.nextTemporary a :=
  sustains_of_follows fun _ _ hop => h.of_yields (Nat.zero_le _) hop

theorem sustains_of_adds {P : Nat → α → Prop} {step : Compile α} (henv : env.Clean names)
    (h : s.Fit names → Adds (.fit names henv) span s step P) :
    Sustains names env s step fun s' a => P s'.nextTemporary a := by
  refine .of_success (fun _ _ => trivial) fun hs a s' hstep => ?_
  have hadds := h hs (Nat.zero_le _)
  rw [show (step env).run s = (.ok a, s') from hstep] at hadds
  obtain ⟨e, hfollows, rfl, ha⟩ := hadds
  exact ⟨_, rfl, fun _ => hs.absorb hfollows, ha⟩

theorem sustains_bracket {opening closing : CompilerState → CompilerState} {P' : CompilerState → α → Prop}
    (hopening : s.Fit names → (opening s).Fit names)
    (hclosing : ∀ s' a, s'.Fit names → P' s' a → (closing s').Fit names ∧ P (closing s') a)
    (h : Sustains names env (opening s) body P') : Sustains names env s (bracket opening closing body) P := by
  refine .bracket (opening s) rfl hopening (fun s' a hs hgoes ha => ?_) (fun _ _ => id) h
  obtain ⟨hclosed, hP⟩ := hclosing s' a (hgoes (hopening hs)) ha
  exact ⟨_, rfl, fun _ => hclosed, hP⟩

theorem sustains_inPrevious (h : Sustains names env { s with draft := s.draft.hide } body fun _ _ => True) :
    Sustains names env s (inPrevious body) fun _ _ => True :=
  sustains_bracket (fun hs => hs.withDraft hs.draft.hide) (fun _ _ hs _ => ⟨hs.withDraft hs.draft.unhide, trivial⟩) h

theorem sustains_inFrame {kind : ScopeKind} {scope : Span}
    (h : Sustains names env (opened kind scope s) body fun _ _ => True) :
    Sustains names env s (inFrame kind scope body) fun _ _ => True :=
  sustains_bracket (fun hs => hs.opened kind scope) (fun _ _ hs _ => ⟨hs.withFrames hs.frames.pop, trivial⟩) h

theorem sustains_inBuffer {body : Compile Unit} (use : List Node → CompilerState → Draft)
    (huse : ∀ nodes s', s'.draft.All (Instr.Fit names s'.constants) →
      (∀ node ∈ nodes, node.All (Instr.Fit names s'.constants)) → (use nodes s').All (Instr.Fit names s'.constants))
    (h : Sustains names env { s with draft := s.draft.push } body fun _ _ => True) :
    Sustains names env s (inBuffer body >>= fun nodes => modify fun s => { s with draft := use nodes s })
      fun _ _ => True := by
  refine .inBuffer _ rfl (fun hs => hs.withDraft hs.draft.push) (fun s' _ hs hgoes _ => ?_) (fun _ _ => id) h
  have hs' := hgoes (hs.withDraft hs.draft.push)
  refine ⟨_, rfl, fun _ => ?_, trivial⟩
  exact hs'.withDraft (huse _ { s' with draft := s'.draft.pop.2 } hs'.draft.pop.1 hs'.draft.pop.2)

theorem sustains_inRoutine {body : Compile Unit}
    (h : Sustains names env { s with draft := s.draft.push } body fun _ _ => True) :
    Sustains names env s (inRoutine name span body) fun _ _ => True :=
  sustains_inBuffer _ (fun _ _ hdraft hnodes => Draft.All.finish hdraft hnodes) h

theorem sustains_freshRoutineName {base : String} (h : Clean names base) :
    Sustains names env s (freshRoutineName base) fun _ name => Clean names name :=
  sustains_modifyGet
    (fun hs => ⟨hs.frames, hs.draft, hs.functions, hs.structs, hs.distinct, hs.userInit⟩) (h.unusedName _)

theorem sustains_bindNew {var : Variable} (hvar : var.Fit names name) :
    Sustains names env s (bindNew name var span) fun _ _ => True := by
  refine .framesBind ?_
  split
  next fs hbind => exact sustains_modifyFrames fun hfs => hfs.bind hvar hbind
  next => exact .fail trivial

theorem sustains_store (hvalue : value.Fit names) (hslot : slot.Fit names) :
    Sustains names env s (tryEmitting span (value.store slot)) fun _ v => v.Fit names :=
  sustains_of_follows (P := fun _ v => v.Fit names) fun _ _ h => Value.fits_store hvalue hslot h

theorem sustains_detach (hvalue : value.Fit names) :
    Sustains names env s (tryEmitting span value.detach) fun _ v => v.Fit names :=
  sustains_of_follows (P := fun _ v => v.Fit names) fun _ _ h => Value.fits_detach hvalue h

theorem Slot.Fit.along {v part : Value} (hslot : slot.Fit names)
    (hv : v.Fit names) (h : v.selectPath path = .ok part) : (slot.along path).Fit names := by
  induction path generalizing slot v with
  | nil => exact hslot
  | cons selector rest ih =>
    rw [Value.selectPath] at h
    split at h
    next inner hinner =>
      have hinner' := Value.leafwise_fit.select hv hinner
      cases Value.selects_of_select hinner with
      | field hget => exact ih (hslot.member (Value.fieldsFit_iff.mp hv _ (Ordered.mem_of_get? hget)).1) hinner' h
      | element => exact ih (hslot.element _) hinner' h
    next => cases h

theorem sustains_replace {current : Value} {slot : Option Slot} (hvalue : value.Fit names)
    (hcurrent : current.Fit names) (hslot : ∀ x, slot = some x → x.Fit names) :
    Sustains names env s (replace value span path current slot) fun _ v => v.Fit names := by
  refine .replace (fun place old hplace hold _ => ?_) (fun _ => ?_) fun _ _ => trivial
  · refine .imp (sustains_store hvalue (Slot.Fit.along (hslot place hplace) hcurrent hold)) fun _ part _ hpart => ?_
    exact Value.leafwise_fit.graft hcurrent hpart
  · exact .imp (sustains_detach hvalue) fun _ part _ hpart => Value.leafwise_fit.graft hcurrent hpart

theorem sustains_stableCondition {condition : Condition} {ownCell : Bool} (h : condition.Fit names) :
    Sustains names env s (stableCondition condition ownCell) fun _ c => c.Fit names := by
  unfold stableCondition
  split
  · exact .pure h
  · refine .bind (sustains_emitting .freshCell) fun target _ _ (htarget : target.Fit names) => ?_
    exact .bind (sustains_emitNode ⟨⟨htarget, by simpa using h⟩, trivial⟩) fun _ _ _ _ => .pure htarget

theorem sustains_loop {expand : Expansion} {cond : Expr} {body : Compile Unit}
    (hcall : ∀ s name, Clean names name → Sustains names env s (callIf expand cond name) fun _ _ => True)
    (hbody : ∀ s, Sustains names env s body fun _ _ => True) :
    Sustains names env s (loop expand cond body span) fun _ _ => True := by
  have hbase : Clean names ("while_" ++ toString s.nextLabel) := .append (.of (by decide)) (.toString _)
  refine .getBind (.bind (sustains_freshRoutineName hbase) fun routine _ _ hroutine => ?_)
  refine .bind (sustains_modify fun hs => ?_) fun _ _ _ _ => sustains_inRoutine ?_
  · exact ⟨hs.frames, hs.draft, hs.functions, hs.structs, hs.distinct, hs.userInit⟩
  refine .bind (sustains_inPrevious (hcall _ routine hroutine)) fun again _ _ _ => ?_
  split
  · exact .bind (hbody _) fun _ _ _ _ => .bind (hcall _ routine hroutine) fun _ _ _ _ => .pure trivial
  · exact .pure trivial

theorem sustains_registerFunction {f : FunctionDef} (hf : f.Fit names) :
    Sustains names env s (registerFunction f) fun _ _ => True := by
  refine sustains_modifyGet (fun hs => ?_) trivial
  refine ⟨hs.frames, hs.draft, fun g hg => ?_, hs.structs, hs.distinct, hs.userInit⟩
  obtain hg | rfl := Array.mem_push.mp hg
  · exact hs.functions g hg
  · exact hf

end Compile

end Datapack
