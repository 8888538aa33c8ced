import Datapack.Proofs.Regime.Walk

/-!
Temporaries and steps. The value of an expression may be changed only in temporaries that were taken for its routine, and
a branch is decided by a temporary that was taken before its body, so that nothing in the body writes it.
-/

namespace Datapack

open List Value

variable {own : Nat → Prop} {s s1 : CompilerState} {returns : Bool} {kind : ScopeKind} {scope span : Span}
  {nodes : List Node} {P : Cell → Prop} {env : Environment} {value : Value} {body : Compile Unit}

theorem Draft.pop_of_buffers {d : Draft} {top : Array Node} {below : List (Array Node)}
    (h : d.buffers = top :: below) : d.pop = (top, { d with buffers := below }) := by
  rw [pop, h]

theorem Grows.finishRoutine (h : Grows own { s with draft := s.draft.push } s1) (name : String)
    (location : Option Span) :
    Grows (fun _ => False) s
      { s1 with draft := s1.draft.pop.2.finish name s1.draft.pop.1.toList location } := by
  obtain ⟨top, below, new, hbuffers, htop, hpatched, htidy⟩ := h.buffers #[] s.draft.buffers rfl
  obtain rfl : top.toList = new := by simpa using htop
  rw [Draft.pop_of_buffers hbuffers]
  refine ⟨h.next_le, fun _ hk => hk.elim, h.hidden, fun _ _ houter => ?_, ?_⟩
  · exact Draft.Patched.areTidy (houter ▸ hpatched)
  · obtain ⟨made, hmade, hown, hpairwise⟩ := h.routines
    let body := (Node.numberAll (s1.draft.nextIndex + 1) top.toList).2
    let routine : Routine := { name, body, location, index := some s1.draft.nextIndex }
    refine ⟨made ++ [(routine, own)], ?_, fun e he => ?_, ?_⟩
    · simp [Draft.finish, hmade, Draft.push, routine, body]
    · cases mem_append.mp he with
      | inl he => exact ⟨(hown e he).1, fun k hk => ⟨((hown e he).2 k hk).1, ((hown e he).2 k hk).2.1, id⟩⟩
      | inr he =>
        cases mem_singleton.mp he
        exact ⟨htidy.numberAll _, fun k hk => ⟨(h.taken k hk).1, (h.taken k hk).2, id⟩⟩
    · refine pairwise_append.mpr ⟨hpairwise, pairwise_singleton _ _, fun a ha b hb k hk hk' => ?_⟩
      cases mem_singleton.mp hb
      exact ((hown a ha).2 k hk).2.2 hk'

namespace Advances

theorem closeBuffer (h : Advances returns own { s with draft := s.draft.push } s1) :
    Advances returns own s { s1 with draft := s1.draft.pop.2 } ∧
      Node.AreTidy own s1.draft.pop.1.toList := by
  obtain ⟨top, below, new, hbuffers, htop, hpatched, htidy⟩ := h.grows.buffers #[] s.draft.buffers rfl
  obtain rfl : top.toList = new := by simpa using htop
  rw [Draft.pop_of_buffers hbuffers]
  refine ⟨⟨⟨h.grows.next_le, h.grows.taken, h.grows.hidden, fun _ _ houter => ?_, h.grows.routines⟩,
    fun hs => (h.settled (hs.congr rfl rfl)).congr rfl rfl, h.kept⟩, htidy⟩
  exact Draft.Patched.areTidy (houter ▸ hpatched)

theorem finishRoutine (h : Advances false own { s with draft := s.draft.push } s1) (name : String)
    (location : Option Span) :
    Advances returns (fun _ => False) s
      { s1 with draft := s1.draft.pop.2.finish name s1.draft.pop.1.toList location } := by
  refine ⟨h.grows.finishRoutine name location, fun hs => (h.settled (hs.congr rfl rfl)).congr rfl rfl,
    fun stack hstack => ?_⟩
  obtain ⟨stack', hstack', hkept⟩ := h.kept stack hstack
  exact ⟨stack', hstack', hkept.mono fun k hk => absurd hk.1 (by decide)⟩

theorem aside {buffer : Array Node}
    (h : Advances returns own { s with draft := { s.draft with hidden := buffer :: s.draft.hidden } } s1) :
    Advances returns own s { s1 with draft := { s1.draft with hidden := s.draft.hidden } } :=
  ⟨⟨h.grows.next_le, h.grows.taken, rfl, h.grows.buffers, h.grows.routines⟩,
    fun hs => (h.settled (hs.congr rfl rfl)).congr rfl rfl, h.kept⟩

theorem appendAt (h : ∀ node ∈ nodes, node.IsHarmless) (depth : Nat) :
    Advances returns (fun _ => False) s { s with draft := s.draft.appendAt depth nodes } := by
  have htidy : ∀ {own}, Node.AreTidy own nodes :=
    Node.areTidy_iff.mpr fun node hnode => (h node hnode).isTidy
  rw [Draft.appendAt]
  split
  · refine ⟨⟨.refl, fun _ hk => hk.elim, rfl, fun top below hbuffers => ?_, ?_⟩,
      fun hs => hs.congr rfl rfl, fun stack hstack => ⟨stack, hstack, .refl _ stack⟩⟩
    · simp only [hbuffers]
      cases s.draft.depth - depth with
      | zero =>
        refine ⟨_, _, nodes, rfl, ?_, .refl below, htidy⟩
        simp
      | succ position => exact ⟨top, _, [], rfl, by simp, .modify h position, trivial⟩
    · exact ⟨[], by simp, by simp, .nil⟩
  · exact (refl returns s).write nodes htidy rfl .refl (fun _ => id) (fun _ => .inl) rfl rfl

theorem stack_opened {stack : List (Nat × Frame)} (h : s.frames.Stack stack) :
    ∃ key f, (Compile.opened kind scope s).frames.Stack ((key, f) :: stack) ∧
      f.kind = kind ∧ f.scope = scope ∧ f.vars = [] ∧ f.returned = none ∧ f.returnSlot = none := by
  cases stack with
  | nil => simpa using h.current
  | cons e rest =>
    obtain ⟨key, hpush⟩ := h.push kind scope
    exact ⟨key, _, hpush.modifyTop (fun _ => rfl) (fun _ => rfl), rfl, rfl, rfl, rfl, rfl⟩

theorem settled_opened (h : s.Settled) : (Compile.opened kind scope s).Settled := by
  obtain ⟨stack, hstack, hframes⟩ := h.frames
  obtain ⟨key, f, hopened, -, -, hvars, -, hslot⟩ := stack_opened hstack
  refine ⟨⟨_, hopened, fun e he => ?_⟩, h.functions⟩
  cases mem_cons.mp he with
  | inl heq =>
    subst heq
    exact ⟨by simp [hvars], by simp [hslot]⟩
  | inr he => exact hframes e he

/-- Closing a frame that was opened for a step. What it returned, if anything, can be changed only in
temporaries of the step. -/
theorem closeFrame (h : Advances true own (Compile.opened kind scope s) s1)
    (hreturns : returns = true ∨ kind.passesResults = false) :
    Advances returns own s { s1 with frames := s1.frames.pop.2 } ∧
      (s.Settled → s1.frames.top.Settled ∧
        ∀ v, s1.frames.top.returned = some v → v.Within (OwnCell own)) := by
  -- the stack at the end, for each stack at the beginning
  have hclose : ∀ stack, s.frames.Stack stack → ∃ key f stack', s1.frames.Stack ((key, f) :: stack') ∧
      s1.frames.pop.2.Stack stack' ∧ (∀ v, f.returned = some v → v.Within (OwnCell own)) ∧
        Frames.Kept (fun k => returns = true ∧ own k) stack stack' := by
    intro stack hstack
    obtain ⟨key, f, hopened, hkind, -, -, hnone, -⟩ := stack_opened hstack
    obtain ⟨stack', hstack', hkept⟩ := h.kept _ hopened
    match stack', stack, hkept, hstack with
    | [], _, hkept, _ => exact hkept.elim
    | _ :: _, [], _, hstack => simpa using hstack.current
    | [_], _ :: _, hkept, _ => exact hkept.2.2.2.elim
    | (key', f') :: (next, g) :: rest, e :: stack, hkept, _ =>
      obtain ⟨-, -, hreturned, hrest⟩ := hkept
      refine ⟨key', f', (next, g) :: rest, hstack', hstack'.pop, fun v hv => ?_, hrest.mono ?_⟩
      · obtain hv | hv := hreturned v hv
        · rw [hnone] at hv
          cases hv
        · exact hv.mono (OwnCell.mono fun _ hk => hk.2)
      · rintro k ⟨⟨-, hk⟩, hpasses⟩
        rw [hkind] at hpasses
        exact ⟨hreturns.resolve_right (by simp [hpasses]), hk⟩
  refine ⟨⟨⟨h.grows.next_le, h.grows.taken, h.grows.hidden, h.grows.buffers, h.grows.routines⟩, ?_, ?_⟩, ?_⟩
  · intro hs
    obtain ⟨stack, hstack, -⟩ := hs.frames
    obtain ⟨key, f, stack', hstack', hpop, -, -⟩ := hclose stack hstack
    obtain ⟨other, hother, hsettled⟩ := (h.settled (settled_opened hs)).frames
    cases hother.unique hstack'
    exact ⟨⟨stack', hpop, fun e he => hsettled e (.tail _ he)⟩,
      (h.settled (settled_opened hs)).functions⟩
  · intro stack hstack
    obtain ⟨key, f, stack', -, hpop, -, hkept⟩ := hclose stack hstack
    exact ⟨stack', hpop, hkept⟩
  · intro hs
    obtain ⟨stack, hstack, -⟩ := hs.frames
    obtain ⟨key, f, stack', hstack', -, hreturned, -⟩ := hclose stack hstack
    obtain ⟨other, hother, hsettled⟩ := (h.settled (settled_opened hs)).frames
    cases hother.unique hstack'
    rw [hstack'.top_eq]
    exact ⟨hsettled _ (.head _), hreturned⟩

end Advances

structure Receiver.Settled (receiver : Receiver) : Prop where
  value : receiver.value.Within fun _ => False
  slot : ∀ slot, receiver.slot = some slot → slot.IsVariable ∧ receiver.value.Lies Cell.IsVariable

/-- Some work on a routine: the state that it goes out from, whether it may return from functions around it, the
temporaries that it has taken, and the state that it has come to. -/
structure Work where
  base : CompilerState
  returns : Bool
  own : Nat → Prop
  now : CompilerState

namespace Work

def Sound (w : Work) : Prop := w.base.Settled ∧ Advances w.returns w.own w.base w.now

structure Leads (w w' : Work) : Prop where
  base : w'.base = w.base
  returns : w'.returns = w.returns
  own : ∀ k, w.own k → w'.own k
  sound : w.Sound → w'.Sound

def start (returns : Bool) (s : CompilerState) : Work := ⟨s, returns, fun _ => False, s⟩

variable {w w' : Work}

theorem Sound.settled (h : w.Sound) : w.now.Settled := h.2.settled h.1

theorem sound_start (returns : Bool) (hs : s.Settled) : (start returns s).Sound := ⟨hs, .refl returns s⟩

theorem Leads.refl (w : Work) : w.Leads w := ⟨rfl, rfl, fun _ => id, id⟩

theorem Leads.trans {w'' : Work} (h : w.Leads w') (h' : w'.Leads w'') : w.Leads w'' :=
  ⟨h'.base.trans h.base, h'.returns.trans h.returns, fun k hk => h'.own k (h.own k hk), fun hw => h'.sound (h.sound hw)⟩

theorem leads_of_advances {inner : Nat → Prop} (h : Advances w.returns inner w.now s) :
    w.Leads { w with own := fun k => w.own k ∨ inner k, now := s } :=
  ⟨rfl, rfl, fun _ => .inl, fun hw => ⟨hw.1, hw.2.trans h⟩⟩

theorem leads_of_same (h : Advances w.returns (fun _ => False) w.now s) : w.Leads { w with now := s } :=
  ⟨rfl, rfl, fun _ => id, fun hw => ⟨hw.1, hw.2.trans_same h⟩⟩

theorem leads_absorb {e : Emission} (hP : ∀ c, P c → Offered w.own c)
    (hext : Emission.Extends P { nextTemporary := w.now.nextTemporary } e) :
    w.Leads { w with own := Advances.alsoTo w.own w.now.nextTemporary e.nextTemporary, now := Compile.absorb e w.now } :=
  ⟨rfl, rfl, fun _ => .inl, fun hw => ⟨hw.1, hw.2.absorb hext hP⟩⟩

end Work

def Regime.confinement (env : Environment) : Regime env Work where
  state := Work.now
  holds := Work.Sound
  goes := Work.Leads
  stops _ _ _ := True
  refl := .refl
  trans := .trans
  holds_of_goes h := h.sound
  stops_of_goes _ := id

namespace Compile

open Syntax

variable {α : Type} {w : Work} {step : Compile α} {s' : CompilerState} {slot : Slot} {name : String} {frame : Frame}
  {P : Work → α → Prop} {var : Variable} {path : List Selector} {dynamic : Bool}

abbrev Confined (env : Environment) (w : Work) (step : Compile α) (post : Work → α → Prop) : Prop :=
  (Regime.confinement env).Keeps w step post

theorem confined_of_yields
    (h : w.Sound → ∀ a s, step.Yields env w.now a s → ∃ w' : Work, w'.now = s ∧ w.Leads w' ∧ P w' a) :
    Confined env w step P := .of_success (fun _ _ => trivial) h

theorem Confined.advances {a : α} (h : Confined env (.start returns s) step P) (hstep : step.Yields env s a s')
    (hs : s.Settled) : ∃ w : Work, w.now = s' ∧ Advances returns w.own s w.now ∧ P w a := by
  have hstart := Work.sound_start returns hs
  obtain ⟨w, rfl, hleads, ha⟩ := h.of_yields hstart hstep
  have hsound := (hleads.sound hstart).2
  rw [hleads.base, hleads.returns] at hsound
  exact ⟨w, rfl, hsound, ha⟩

theorem confined_modifyGet {f : CompilerState → α × CompilerState}
    (h : Advances w.returns (fun _ => False) w.now (f w.now).2) : Confined env w (modifyGet f) fun _ _ => True :=
  .modifyGet { w with now := (f w.now).2 } rfl (Work.leads_of_same h) trivial

theorem confined_change {f : CompilerState → CompilerState} (h : Advances w.returns (fun _ => False) w.now (f w.now)) :
    Confined env w (modify f) fun _ _ => True := confined_modifyGet h

theorem confined_atLocation (h : Confined env { w with now := { w.now with location := span } } step fun _ _ => True) :
    Confined env w (atLocation span step) fun _ _ => True := by
  have hmoved : w.Leads { w with now := { w.now with location := span } } :=
    Work.leads_of_same (.of_same rfl rfl rfl rfl)
  refine .getBind (.bracket _ rfl hmoved.sound (fun w' _ _ hw' _ => ?_) (fun _ _ => id) h)
  exact ⟨{ w' with now := { w'.now with location := w.now.location } }, rfl,
    hmoved.trans (hw'.trans (Work.leads_of_same (.of_same rfl rfl rfl rfl))), trivial⟩

theorem confined_emitNode {node : Node} (h : ∀ location, Node.IsTidy w.own { node with location }) :
    Confined env w (emitNode node) fun _ _ => True :=
  .modifyGet { w with now := { w.now with draft := w.now.draft.append (located w.now node) } } rfl
    ⟨rfl, rfl, fun _ => id, fun hw => ⟨hw.1, hw.2.append (h _)⟩⟩ trivial

theorem confined_emit {i : Instr} (h : ∀ conditions, i ≠ .guarded conditions)
    (htarget : ∀ k, i.target? = some (.temporary k) → w.own k) : Confined env w (emit i) fun _ _ => True :=
  confined_emitNode fun location => Node.isTidy_leaf h htarget [] location _

theorem confined_tryEmitting {op : TryEmit α} {P : Cell → Prop} (hP : ∀ c, P c → Offered w.own c)
    (hext : ∀ e a e', op.Yields e a e' → e.Extends P e') :
    Confined env w (tryEmitting span op) fun w' a => ∃ e e', op.Yields e a e' ∧
      w'.own = Advances.alsoTo w.own e.nextTemporary e'.nextTemporary :=
  .tryEmitting (fun a e hop => ⟨_, rfl, Work.leads_absorb hP (hext _ a e hop), _, e, hop, rfl⟩) fun _ _ => trivial

theorem confined_of_adds {P : α → Prop}
    (h : Adds (.within env (OwnCell w.own) w.now.nextTemporary) span w.now step fun _ a => P a) :
    Confined env w step fun _ a => P a := by
  refine confined_of_yields fun _ a s hstep => ?_
  obtain ⟨e, hextends, rfl, ha⟩ := h.extends_of_yields hstep
  exact ⟨_, rfl, Work.leads_absorb (fun _ => .inl) hextends, ha⟩

theorem confined_value {step : Compile Value}
    (h : Adds (.within env (OwnCell w.own) w.now.nextTemporary) span w.now step
      (CallRules.within env (OwnCell w.own) w.now.nextTemporary).value) :
    Confined env w step fun w' v => v.Within (OwnCell w'.own) := by
  refine confined_of_yields fun _ v s hstep => ?_
  obtain ⟨e, hextends, rfl, hv⟩ := h.extends_of_yields hstep
  refine ⟨_, rfl, Work.leads_absorb (fun _ => .inl) hextends, ?_⟩
  exact Within.mono (fun _ => Advances.ownCell_of_available) hv

theorem confined_operate {op : TryEmit Value}
    (hop : ∀ e v e', op.Yields e v e' → e.Extends (OwnCell w.own) e' ∧ v.Within (e.Available (OwnCell w.own) e')) :
    Confined env w (tryEmitting span op) fun w' v => v.Within (OwnCell w'.own) := by
  refine .imp (confined_tryEmitting (fun _ => .inl) fun e v e' h => (hop e v e' h).1) ?_
  rintro w' v - ⟨e, e', hyields, hown⟩
  rw [hown]
  exact (hop e v e' hyields).2.mono fun _ => Advances.ownCell_of_available

theorem confined_callBuiltin {builtin : Builtin} {args : List Value} (hargs : ∀ v ∈ args, v.Within (OwnCell w.own)) :
    Confined env w (callBuiltin builtin args span) fun w' v => v.Within (OwnCell w'.own) := by
  by_cases hrun : builtin = .run
  · subst hrun
    refine .bind (confined_of_adds (adds_matchCall (P := fun _ => True) (by simp) (by simp))) fun _ _ _ _ => ?_
    exact .bind (confined_emit (by simp) (by simp [Instr.target?])) fun _ _ _ _ => .pure trivial
  · exact confined_value (adds_callBuiltin hrun.elim fun v hv => (hargs v hv).mono fun _ => .inl)

theorem confined_store (hslot : slot.IsVariable) :
    Confined env w (tryEmitting span (value.store slot)) fun _ stored => stored.Places slot.Holds := by
  refine .imp (confined_tryEmitting ?_ fun _ _ _ hstore => (store_extends hstore).1) ?_
  · rintro c rfl
    exact .inr hslot.1
  · rintro _ stored - ⟨e, e', hstore, -⟩
    exact (store_extends hstore).2.2

theorem confined_detach : Confined env w (tryEmitting span value.detach) fun _ _ => True :=
  .anything (confined_tryEmitting (P := fun _ => False) (fun _ => False.elim) fun _ _ _ h => (detach_extends h).1)

theorem confined_bindNew (hvar : var.Settled) : Confined env w (bindNew name var span) fun _ _ => True := by
  refine .framesBind ?_
  split
  next fs hbind =>
    rw [Frames.bind] at hbind
    split at hbind
    · cases hbind
    · cases hbind
      refine confined_change (.modify (fun _ => rfl) (fun _ => rfl) (fun _ => rfl) (fun _ _ hv => .inl hv) ?_)
      intro f _ hf
      refine ⟨fun x hx => ?_, hf.returnSlot⟩
      cases mem_append.mp hx with
      | inl hx => exact hf.vars x hx
      | inr hx => exact mem_singleton.mp hx ▸ hvar
  next => exact .fail trivial

theorem confined_replace {current : Value} {slot : Option Slot}
    (hslot : ∀ sl, slot = some sl → sl.IsVariable ∧ current.Lies Cell.IsVariable) :
    Confined env w (replace value span path current slot) fun _ new =>
      ∀ sl, slot = some sl → new.Lies Cell.IsVariable := by
  refine .replace (fun place old hplace _ _ => ?_) (fun hnone => ?_) fun _ _ => trivial
  · obtain ⟨hvar, hcurrent⟩ := hslot place hplace
    refine .imp (confined_store (hvar.along path)) fun _ part _ hpart _ _ => ?_
    exact leafwise_places.graft hcurrent (lies_of_holds (hvar.along path) hpart)
  · exact .imp confined_detach fun _ _ _ _ sl hsl => absurd (hnone.symm.trans hsl) nofun

theorem confined_rebind {key : Nat} (hfind : w.now.frames.find? name = some (key, var)) : Confined env w (do
      let updated ← replace value span path var.value var.slot
      match (← frames).rebind name updated.pinned with
      | .ok frames => modifyFrames fun _ => frames
      | .error _ => fail (.internal "variable disappeared during assignment") span) fun _ _ => True := by
  refine confined_of_yields fun hw u s' hstep => ?_
  simp only [yields_bind, yields_frames] at hstep
  obtain ⟨new, s1, hreplace, _, _, ⟨rfl, rfl⟩, hrebind⟩ := hstep
  obtain ⟨stack, hstack, hframes⟩ := hw.settled.frames
  obtain ⟨f, hf, hvar⟩ := hstack.find?_eq_some hfind
  have hslot := ((hframes _ hf).vars _ (Ordered.mem_of_get? hvar)).slot
  have hsame := frames_replace hreplace
  obtain ⟨w', rfl, hleads, hnew⟩ := (confined_replace hslot).of_yields hw hreplace
  rw [hsame, Frames.rebind, hfind] at hrebind
  cases yields_modifyFrames.mp hrebind
  refine ⟨{ w' with now := _ }, rfl, hleads.trans (Work.leads_of_same ?_), trivial⟩
  change Advances _ _ w'.now { w'.now with frames := _ }
  rw [← show w'.now.frames = w.now.frames from hsame]
  refine .modify (fun _ => rfl) (fun _ => rfl) (fun _ => rfl) (fun _ _ hv => .inl hv) ?_
  intro g hg hsettled
  rw [show w'.now.frames = w.now.frames from hsame, hstack.get key f hf] at hg
  cases hg
  refine ⟨fun x hx => ?_, hsettled.returnSlot⟩
  obtain hx | ⟨old, hold, rfl⟩ := Ordered.of_mem_modify hx
  · exact hsettled.vars x hx
  · rw [hvar] at hold
    cases hold
    exact ⟨new.within_pinned, fun sl hsl => ⟨(hslot sl hsl).1, (hnew sl hsl).pinned⟩⟩

/-- Whether a decision tests for a truth value or a number other than zero, and is in a cell of its own only if
that is one of given temporaries. -/
def DecidedIn (own : Nat → Prop) : Decision → Prop
  | .known _ => True
  | .tested condition ownCell =>
    (∃ cell, condition = .isTrue cell ∨ condition = ⟨true, .range cell (some 0) (some 0)⟩) ∧
      (ownCell = true → ∃ k, own k ∧ condition = .onTemporary false k)

theorem confined_stableCondition {condition : Condition} {ownCell : Bool}
    (h : DecidedIn w.own (.tested condition ownCell)) :
    Confined env w (stableCondition condition ownCell) fun w' c => ∃ k, w'.own k ∧ c = .onTemporary false k := by
  unfold stableCondition
  split
  next hown => exact .pure (h.2 hown)
  next =>
    refine .bind (P := fun w' c => ∃ k, w'.own k ∧ c = .temporary k) (.emitting fun c e hop => ?_) ?_
    · obtain ⟨rfl, rfl⟩ := Emit.yields_freshCell.mp hop
      refine ⟨_, rfl, Work.leads_absorb (P := fun _ => False) (fun _ => False.elim) .fresh, _, .inr ⟨?_, ?_⟩, rfl⟩
      · exact .refl
      · exact Nat.lt_succ_self _
    · rintro target w' - ⟨k, hk, rfl⟩
      refine .bind (confined_emit (by simp) fun j htarget => ?_) fun _ w'' hw'' _ => .pure ⟨k, hw''.own k hk, rfl⟩
      simp only [Instr.target?, Option.some.injEq] at htarget
      exact Cell.temporary_injective htarget ▸ hk

theorem isTidy_call (routine : String) (location : Option Span) (index : Option Nat) :
    Node.IsTidy own ⟨.call routine, [], location, index⟩ :=
  Node.isTidy_leaf (by simp) (by simp [Instr.target?]) [] location index

theorem confined_inBuffer
    (hbody : Confined env (.start w.returns { w.now with draft := w.now.draft.push }) body fun _ _ => True) :
    Confined env w (inBuffer body) fun w' nodes => Node.AreTidy w'.own nodes ∧
      ∀ k, w.own k → ∀ i ∈ Node.instrsAll nodes, i.target? ≠ some (.temporary k) := by
  refine confined_of_yields fun hw nodes s hstep => ?_
  obtain ⟨s1, hrun, rfl, rfl⟩ := yields_inBuffer.mp hstep
  obtain ⟨inner, rfl, hinner, -⟩ := hbody.advances hrun (hw.settled.congr rfl rfl)
  obtain ⟨hclosed, htidy⟩ := hinner.closeBuffer
  refine ⟨_, rfl, Work.leads_of_advances hclosed, htidy.mono fun _ => .inr, fun k hk i hi htarget => ?_⟩
  have hbefore : k < w.now.nextTemporary := (hw.2.grows.taken k hk).2
  have hafter : w.now.nextTemporary ≤ k := (hinner.grows.taken k (htidy.writes i hi k htarget)).1
  omega

theorem confined_inFrame (hreturns : w.returns = true ∨ kind.passesResults = false)
    (hbody : Confined env (.start true (opened kind scope w.now)) body fun _ _ => True) :
    Confined env w (inFrame kind scope body) fun _ _ => True := by
  refine confined_of_yields fun hw u s hstep => ?_
  obtain ⟨s1, hrun, rfl⟩ := yields_inFrame.mp hstep
  obtain ⟨inner, rfl, hinner, -⟩ := hbody.advances hrun (Advances.settled_opened hw.settled)
  exact ⟨_, rfl, Work.leads_of_advances (hinner.closeFrame hreturns).1, trivial⟩

theorem confined_inline {body : Compile (Value × Option Value)}
    (hbody : Confined env (.start true (opened .inlineFunction scope w.now)) body fun w' result =>
      result = (w'.now.frames.top.returned.getD .null, (Ordered.get? selfName w'.now.frames.top.vars).map (·.value))) :
    Confined env w (inFrame .inlineFunction scope body) fun w' result => result.1.Within (OwnCell w'.own) := by
  refine confined_of_yields fun hw result s hstep => ?_
  obtain ⟨s1, hrun, rfl⟩ := yields_inFrame.mp hstep
  obtain ⟨inner, rfl, hinner, rfl⟩ := hbody.advances hrun (Advances.settled_opened hw.settled)
  obtain ⟨hclosed, htop⟩ : Advances w.returns inner.own w.now _ ∧ _ := hinner.closeFrame (.inr rfl)
  refine ⟨_, rfl, Work.leads_of_advances hclosed, ?_⟩
  cases hreturned : inner.now.frames.top.returned with
  | none => trivial
  | some v => exact ((htop hw.settled).2 v hreturned).mono (OwnCell.mono fun _ => .inr)

theorem confined_inRoutine
    (hbody : Confined env (.start false { w.now with draft := w.now.draft.push }) body fun _ _ => True) :
    Confined env w (inRoutine name span body) fun _ _ => True := by
  refine confined_of_yields fun hw u s hstep => ?_
  obtain ⟨s1, hrun, rfl⟩ := yields_inRoutine.mp hstep
  obtain ⟨inner, rfl, hinner, -⟩ := hbody.advances hrun (hw.settled.congr rfl rfl)
  exact ⟨{ w with now := _ }, rfl, Work.leads_of_same (hinner.finishRoutine name (some span)), trivial⟩

theorem confined_loop {expand : Expansion} {cond : Expr}
    (hcall : ∀ w name, Confined env w (callIf expand cond name) fun _ _ => True)
    (hbody : ∀ w, Confined env w body fun _ _ => True) :
    Confined env w (loop expand cond body span) fun _ _ => True := by
  refine .getBind (.bind (confined_modifyGet (.of_same rfl rfl rfl rfl)) fun routine _ _ _ => ?_)
  refine .bind (confined_change (.of_same rfl rfl rfl rfl)) fun _ w _ _ => confined_of_yields fun hw u s hstep => ?_
  obtain ⟨s1, hrun, rfl⟩ := yields_inRoutine.mp hstep
  obtain ⟨again, _, hprevious, hrest⟩ := yields_bind.mp hrun
  obtain ⟨s2, hcheck, rfl⟩ := yields_inPrevious.mp hprevious
  -- the check before the loop, with the buffer of the loop set aside
  have haside : CompilerState.Settled { w.now with draft := w.now.draft.push.hide } := hw.settled.congr rfl rfl
  obtain ⟨first, rfl, hfirst, -⟩ :=
    (hcall (.start w.returns { w.now with draft := w.now.draft.push.hide }) routine).advances hcheck haside
  have hhidden : first.now.draft.hidden = #[] :: w.now.draft.hidden := hfirst.grows.hidden
  have hfirst := hfirst.aside
  -- the body and the check after it, in the buffer of the loop
  have hunhide : first.now.draft.unhide = Draft.push { first.now.draft with hidden := w.now.draft.hidden } := by
    rw [Draft.unhide, hhidden]
    rfl
  rw [hunhide] at hrest
  have hloop : ∀ w, Confined env w (do
      if again then
        body
        let _ ← callIf expand cond routine) fun _ _ => True := by
    intro w
    split
    · exact .bind (hbody w) fun _ w' _ _ => .bind (hcall w' routine) fun _ _ _ _ => .pure trivial
    · exact .pure trivial
  obtain ⟨inner, rfl, hinner, -⟩ := (hloop (.start false _)).advances hrest ((hfirst.settled hw.settled).congr rfl rfl)
  refine ⟨_, rfl, (Work.leads_of_advances hfirst).trans (Work.leads_of_same ?_), trivial⟩
  exact hinner.finishRoutine routine (some span)

theorem harmless_of_store (hslot : slot.IsVariable)
    (h : (inBuffer (discard (tryEmitting span (value.store slot)))).Yields env s nodes s') :
    ∀ node ∈ nodes, node.IsHarmless := by
  obtain ⟨s1, hrun, rfl, -⟩ := yields_inBuffer.mp h
  obtain ⟨stored, hemit⟩ := yields_discard.mp hrun
  obtain ⟨e, hstore, rfl⟩ := yields_tryEmitting.mp hemit
  obtain ⟨new, hnew, hwritten⟩ := (store_extends hstore).1.written
  obtain rfl : e.instrs.toList = new := by simpa using hnew
  obtain ⟨top, hbuffers, htop⟩ := Draft.appendAll_of_buffers (d := s.draft.push) rfl
    (e.instrs.toList.map fun i => { Node.leaf i with location := some s.location })
  intro node hnode
  have hpop : (absorb e { s with draft := s.draft.push }).draft.pop.1 = top :=
    congrArg Prod.fst (Draft.pop_of_buffers hbuffers)
  rw [hpop, htop, nil_append] at hnode
  obtain ⟨i, hi, rfl⟩ := mem_map.mp hnode
  refine ⟨(hwritten i hi).1, fun k htarget => ?_⟩
  obtain ⟨base, hpart, rfl | ⟨j, hlow, hhigh, rfl⟩⟩ := (hwritten i hi).2 _ htarget
  · exact absurd rfl ((Cell.IsVariable.of_partOf hpart hslot.1).ne_temporary k)
  · have hnext := (store_extends hstore).2.1
    omega

theorem confined_storeEarlier {depth : Nat} (hslot : slot.IsVariable) : Confined env w (do
      let nodes ← inBuffer (discard (tryEmitting span (value.store slot)))
      modify fun s => { s with draft := s.draft.appendAt depth nodes }) fun _ _ => True := by
  refine confined_of_yields fun hw u s hstep => ?_
  obtain ⟨nodes, s1, hnodes, hstep⟩ := yields_bind.mp hstep
  cases yields_modify.mp hstep
  obtain ⟨w', rfl, hleads, -⟩ := (confined_inBuffer (.discard (confined_store hslot).anything)).of_yields hw hnodes
  refine ⟨{ w' with now := _ }, rfl, hleads.trans (Work.leads_of_same ?_), trivial⟩
  exact .appendAt (harmless_of_store hslot hnodes) _

theorem confined_registerFunction {f : FunctionDef} (hf : f.Settled) :
    Confined env w (registerFunction f) fun _ _ => True := by
  refine confined_modifyGet (.of_frames (fun hs => ⟨hs.frames, fun id g hg => ?_⟩) ?_ rfl rfl)
  · simp only at hg
    rw [Array.getElem?_push] at hg
    split at hg
    · exact Option.some.inj hg ▸ hf
    · exact hs.functions id g hg
  · exact fun stack hstack => ⟨stack, hstack, .refl _ stack⟩

end Compile

open Compile

def PlaceRules.confinement (env : Environment) : PlaceRules env Work where
  toRegime := .confinement env
  terms := ⟨fun _ => True, False, True⟩
  clean _ := True
  value w v := v.Within (OwnCell w.own)
  stored _ _ := True
  current _ v := v.Within Cell.IsVariable
  fixed _ v := v.Within fun _ => False
  object _ r := r.Settled
  bindable _ _ var := var.Settled
  value_of_goes h := Within.mono (OwnCell.mono h.own)
  stored_of_goes _ := id
  current_of_goes _ _ := id
  fixed_of_goes _ := id
  object_of_goes _ := id
  stop _ _ := trivial
  clean_of _ := trivial
  known := places_of_static
  known_fixed := places_of_static
  array := itemPlaces_iff
  store _ := trivial
  select hpart := ⟨fun h => leafwise_places.select h hpart, fun h => leafwise_places.select h hpart⟩
  found hw hfind := by
    obtain ⟨stack, hstack, hsettled⟩ := hw.settled.frames
    obtain ⟨f, hf, hvar⟩ := hstack.find?_eq_some hfind
    have hvar := (hsettled _ hf).vars _ (Ordered.mem_of_get? hvar)
    exact ⟨hvar.value.mono fun _ => False.elim, hvar.value, trivial, hvar.value, hvar.slot⟩
  part hw hfind hpart := by
    obtain ⟨stack, hstack, hsettled⟩ := hw.settled.frames
    obtain ⟨f, hf, hvar⟩ := hstack.find?_eq_some hfind
    have hvar := (hsettled _ hf).vars _ (Ordered.mem_of_get? hvar)
    split
    next hslot =>
      obtain ⟨slot, hslot⟩ := Option.isSome_iff_exists.mp hslot
      exact Lies.inPlace (leafwise_places.selectPath (hvar.slot slot hslot).2 hpart)
    next => exact (leafwise_places.selectPath hvar.value hpart).mono fun _ _ h ht => (h ht).elim
  free _ hfixed := ⟨hfixed trivial, fun _ hslot => by cases hslot⟩
  hold _ _ := Variable.settled_of_held
  receive hr := ⟨hr.value, hr.slot⟩
  parameter _ _ hv := by
    refine ⟨within_of_holds (Slot.isVariable_ofVariable _ _) (Kind.places_atSlot? hv), fun other hother => ?_⟩
    cases hother
    exact ⟨Slot.isVariable_ofVariable _ _, lies_of_holds (Slot.isVariable_ofVariable _ _) (Kind.places_atSlot? hv)⟩
  bind _ hvar := confined_bindNew hvar
  storeNew _ _ _ := by
    refine .imp (confined_store (Frame.isVariable_slotFor _ _)) fun _ stored _ hstored _ _ _ => ?_
    exact Variable.settled_of_slot (Frame.isVariable_slotFor _ _) (lies_of_holds (Frame.isVariable_slotFor _ _) hstored)
  detachNew _ _ _ := .imp confined_detach fun _ _ _ _ _ _ _ => Variable.settled_of_held
  overwrite _ _ hfind _ _ := confined_rebind hfind
  returnTo := by
    refine confined_change (.modify (fun _ => rfl) (fun _ => rfl) (fun _ => rfl) (fun _ _ hv => .inl hv) fun f _ hf => ?_)
    exact ⟨hf.vars, fun slot hslot => Option.some.inj hslot ▸ Slot.isVariable_ofVariable _ _⟩
  returnKind := confined_change (.modify (fun _ => rfl) (fun _ => rfl) (fun _ => rfl) (fun _ _ hv => .inl hv)
    fun f _ hf => ⟨hf.vars, hf.returnSlot⟩)

/-- A value that is kept can be changed only if it is the returned value itself, in code that runs as often as
the function. -/
theorem Compile.confined_returnValue {w : Work} (hreturns : w.returns = true) (hvalue : value.Within (OwnCell w.own)) :
    Confined env w (returnValue value span) fun _ _ => True := by
  refine .of_holds fun hw => PlaceRules.keeps_returnValue (R := .confinement env) trivial fun key frame hkey hframe => ?_
  obtain ⟨stack, hstack, hsettled⟩ := hw.settled.frames
  obtain ⟨e, he, rfl⟩ := hstack.mem_of_enclosingFunction? hkey
  cases Option.some.inj ((hstack.get _ e.2 he).symm.trans hframe)
  have hslot : (e.2.returnSlot.getD (e.2.slotFor returnName)).IsVariable := by
    cases hsome : e.2.returnSlot with
    | none => exact e.2.isVariable_slotFor returnName
    | some slot => exact (hsettled e he).returnSlot slot hsome
  refine .imp (.keptResult (P := fun _ kept => kept.Within (fun _ => False) ∨
    (kept = value ∧ w.now.frames.isDynamicBelow e.1 = false)) ?_ (fun _ _ => confined_storeEarlier hslot)
      fun _ _ _ => .imp (confined_store hslot) fun _ _ _ h => .inl (within_of_holds hslot h)) ?_
  · rintro (hnull | ⟨-, hstatic⟩)
    · cases value with
      | null => exact .inl trivial
      | _ => cases hnull
    · exact .inr ⟨rfl, hstatic⟩
  · rintro w' kept hleads ⟨hkept, hframes⟩
    refine .modifyGet { w' with now := _ } rfl ⟨rfl, rfl, fun _ => id, fun hw' => ⟨hw'.1, ?_⟩⟩ trivial
    have hadvances := hw'.2
    rw [show w'.returns = true from hleads.returns.trans hreturns] at hadvances ⊢
    refine hadvances.keepResult (hkept.imp_right ?_)
    rintro ⟨rfl, hstatic⟩
    refine ⟨hvalue.mono (OwnCell.mono hleads.own), ?_⟩
    rw [show w'.now.frames = w.now.frames from hframes]
    exact fun stack hstack => hstack.passes_of_enclosingFunction? hkey hstatic

theorem Compile.confined_declarePlain {w : Work} {decl : Syntax.Function} {signature : Signature} {routine : String}
    (hstmts : Syntax.Stmt.allCallOnPlaces decl.body.stmts = true)
    (hbody : ∀ w : Work, w.returns = true → Confined env w body fun _ _ => True) :
    Confined env w (declarePlain decl signature routine body) fun _ _ => True := by
  refine .bind (confined_modifyGet ?_) fun frameId _ _ _ => ?_
  · refine .of_frames (fun hs => ?_) (fun stack hstack => ⟨stack, hstack.takeId, .refl _ stack⟩) rfl rfl
    obtain ⟨stack, hstack, hsettled⟩ := hs.frames
    exact ⟨⟨stack, hstack.takeId, hsettled⟩, hs.functions⟩
  refine .bind (confined_registerFunction ⟨hstmts, fun routine params result hform => ?_⟩) fun id w _ _ => ?_
  · obtain ⟨-, rfl, rfl⟩ := FunctionForm.plain.inj hform
    exact ⟨forall_mem_map.mpr fun p _ => Slot.isVariable_ofVariable _ _, Slot.isVariable_ofVariable _ _⟩
  refine .bind (PlaceRules.keeps_declare (R := .confinement env) trivial trivial trivial) fun _ _ _ _ => ?_
  refine confined_inRoutine (confined_inFrame (.inr rfl) ?_)
  exact PlaceRules.keeps_plainBody (R := .confinement env) (fun _ _ => ⟨trivial, trivial⟩) (fun _ _ => trivial)
    fun _ hw => hbody _ hw.returns

def StepRules.confinement (env : Environment) : StepRules env Work where
  toPlaceRules := .confinement env
  inside w := w.returns = true
  function _ f := f.Settled
  routine _ _ := True
  tested w c ownCell := DecidedIn w.own (.tested c ownCell)
  stable w c := ∃ negate k, w.own k ∧ c = .onTemporary negate k
  inside_of_goes h hw := h.returns.trans hw
  function_of_goes _ := id
  routine_of_goes _ _ := trivial
  stable_of_goes := by
    rintro w w' c h ⟨negate, k, hk, rfl⟩
    exact ⟨negate, k, h.own k hk, rfl⟩
  truth h := ⟨⟨_, .inl rfl⟩, fun ht => by
    obtain ⟨k, hk, rfl⟩ := h ht
    exact ⟨k, hk, rfl⟩⟩
  nonzero _ := ⟨⟨_, .inr rfl⟩, fun ht => absurd ht (by simp)⟩
  negate := by
    rintro w c ⟨negate, k, hk, rfl⟩
    exact ⟨!negate, k, hk, rfl⟩
  registered hw hf := hw.settled.functions _ _ hf
  default _ _ _ _ _ := trivial
  params _ _ _ := ⟨trivial, trivial⟩
  receiver _ _ := trivial
  body hf := ⟨fun _ _ => trivial, False.elim, fun _ => hf.body⟩
  objectName _ _ := trivial
  unary _ hv := confined_operate fun _ _ _ h => unary_extends hv h
  binary _ ha hb := confined_operate fun _ _ _ h => binary_extends ha hb h
  update _ hcurrent hv := .anything (confined_tryEmitting (fun _ => id) fun _ _ _ h =>
    (binary_extends (hcurrent.mono fun _ => .inr) (hv.mono fun _ => .inl) h).1)
  callBuiltin _ hargs := confined_callBuiltin hargs
  construct _ hargs := confined_value (adds_construct (fun v hv => (hargs v hv).mono fun _ => .inl)
    fun _ _ _ _ hfields => fieldPlaces_iff.mpr fun x hx => (hfields x hx).2)
  pass _ hf hform hslot _ := .anything (confined_store ((hf.slots _ _ _ hform).1 _ hslot))
  enter _ _ := confined_emit (by simp) (by simp [Instr.target?])
  fetch _ hf hform hv := confined_operate fun _ _ _ h => (detach_extends h).imp_right
    (· (within_of_holds (hf.slots _ _ _ hform).2 (Kind.places_atSlot? hv)))
  stabilize h := .imp (confined_stableCondition h) fun _ _ _ ⟨k, hk⟩ => ⟨false, k, hk⟩
  call _ := confined_emitNode fun _ => isTidy_call _ _ _
  callIf _ h := by
    refine confined_emitNode fun _ => ⟨.inl ?_, isTidy_call _ _ _, trivial⟩
    obtain ⟨cell, hcell⟩ := h.1
    exact ⟨cell, _, hcell.imp (congrArg (· :: [])) (congrArg (· :: [])), rfl⟩
  locate h w hw := confined_atLocation (h _ hw)
  frame hreturns h := confined_inFrame hreturns (h _ rfl fun _ => id)
  inline h := .imp (confined_inline (h _ rfl (fun _ => id) fun _ => id)) fun _ _ _ hv => ⟨hv, fun _ _ => trivial⟩
  guard := by
    rintro w c body hw ⟨negate, k, hk, rfl⟩ h
    refine .bind (confined_inBuffer (h _ hw)) fun nodes w' hw' hnodes => confined_emitNode fun _ => ?_
    exact ⟨.inr ⟨negate, k, rfl, hw'.own k hk, hnodes.2 k hk⟩, hnodes.1⟩
  loop hcall hbody := confined_loop (fun w name => hcall w name trivial) fun w => hbody w trivial
  giveBack hw _ hv := confined_returnValue hw hv
  register h _ := confined_registerFunction ⟨h.body.places trivial, fun _ _ _ hform => by cases hform⟩
  plain h _ hbody := by
    refine .bind (confined_modifyGet (.of_same rfl rfl rfl rfl)) fun routine _ _ _ => ?_
    split
    · refine .bind (confined_change (.of_same rfl rfl rfl rfl)) fun _ _ _ _ => ?_
      exact confined_declarePlain (h.body.places trivial) hbody
    · exact confined_declarePlain (h.body.places trivial) hbody
  addStruct _ := confined_modifyGet (.of_same rfl rfl rfl rfl)
  addMethod := confined_change (.of_same rfl rfl rfl rfl)

end Datapack
