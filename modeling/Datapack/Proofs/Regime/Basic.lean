import Datapack.Proofs.Parts

/-!
Ways to reason about the steps of a compilation. A regime tells the points that a compilation comes to, how a step may go
on from one of them to another, and how it may fail; the rules for steps that are made of others hold in every regime.
-/

namespace Datapack

open List

structure Regime (env : Environment) (ι : Type) where
  /-- The state at a point. -/
  state : ι → CompilerState
  /-- What steps may rely on at a point. -/
  holds : ι → Prop
  /-- Where a step that succeeds may lead. -/
  goes : ι → ι → Prop
  /-- What a step that fails may leave. -/
  stops : ι → CompilerState → CompileError → Prop
  refl (i : ι) : goes i i
  trans {i j k : ι} : goes i j → goes j k → goes i k
  holds_of_goes {i j : ι} : goes i j → holds i → holds j
  stops_of_goes {i j : ι} {s : CompilerState} {error : CompileError} : goes i j → stops j s error → stops i s error

namespace Regime

variable {α β ι : Type} {env : Environment}

/-- Whether a step keeps to a regime from a point on: it goes to a point where its result is as told, or fails as it
may. -/
def Keeps (R : Regime env ι) (i : ι) (step : Compile α) (post : ι → α → Prop) : Prop :=
  R.holds i → match (step env).run (R.state i) with
    | (.ok a, s) => ∃ j, R.state j = s ∧ R.goes i j ∧ post j a
    | (.error error, s) => R.stops i s error

namespace Keeps

variable {R : Regime env ι} {i : ι} {P : ι → α → Prop} {Q : ι → β → Prop} {step : Compile α} {span : Span}
  {f : α → Compile β} {a : α} {s : CompilerState} {fault : CompileFault} {P' : ι → α → Prop} {items : List α}

section

variable (h : R.Keeps i step P)

include h

theorem of_yields (hi : R.holds i)
    (hstep : step.Yields env (R.state i) a s) : ∃ j, R.state j = s ∧ R.goes i j ∧ P j a := by
  have hrun := h hi
  rw [Compile.Yields] at hstep
  rwa [hstep] at hrun

theorem of_error (hi : R.holds i) {error : CompileError}
    (hrun : (step env).run (R.state i) = (.error error, s)) : R.stops i s error := by
  have hstops := h hi
  rwa [hrun] at hstops

theorem cases (hi : R.holds i) :
    (∃ a j, (step env).run (R.state i) = (.ok a, R.state j) ∧ R.goes i j ∧ P j a) ∨
      ∃ error s, (step env).run (R.state i) = (.error error, s) ∧ R.stops i s error := by
  have hstep := h hi
  generalize (step env).run (R.state i) = ran at hstep
  obtain ⟨outcome, s⟩ := ran
  cases outcome with
  | error error => exact .inr ⟨error, s, rfl, hstep⟩
  | ok a =>
    obtain ⟨j, rfl, hgoes, ha⟩ := hstep
    exact .inl ⟨a, j, rfl, hgoes, ha⟩

end

theorem of_cases (h : R.holds i → (∃ a j, (step env).run (R.state i) = (.ok a, R.state j) ∧ R.goes i j ∧ P j a) ∨
    ∃ error s, (step env).run (R.state i) = (.error error, s) ∧ R.stops i s error) : R.Keeps i step P := by
  intro hi
  obtain ⟨a, j, hrun, hgoes, ha⟩ | ⟨error, s, hrun, hstops⟩ := h hi
  · rw [hrun]
    exact ⟨j, rfl, hgoes, ha⟩
  · rw [hrun]
    exact hstops

theorem of_success (hstops : ∀ s error, R.stops i s error)
    (h : R.holds i → ∀ a s, step.Yields env (R.state i) a s → ∃ j, R.state j = s ∧ R.goes i j ∧ P j a) :
    R.Keeps i step P := by
  intro hi
  have hstep := h hi
  simp only [Compile.Yields] at hstep
  split
  next a s hrun => exact hstep a s hrun
  next error s _ => exact hstops s error

theorem of_holds (h : R.holds i → R.Keeps i step P) : R.Keeps i step P := fun hi => h hi hi

theorem pure (h : P i a) : R.Keeps i (Pure.pure a) P := fun _ => ⟨i, rfl, R.refl i, h⟩

theorem fail (h : R.stops i (R.state i) ⟨fault, span⟩) : R.Keeps i (Compile.fail fault span) P := fun _ => h

theorem bind (h : R.Keeps i step P) (hf : ∀ a j, R.goes i j → P j a → R.Keeps j (f a) Q) :
    R.Keeps i (step >>= f) Q := by
  refine of_cases fun hi => ?_
  rw [Compile.run_bind]
  obtain ⟨a, j, hrun, hgoes, ha⟩ | ⟨error, s, hrun, hstops⟩ := h.cases hi
  · rw [hrun]
    obtain ⟨b, k, hrun', hgoes', hb⟩ | ⟨error, s, hrun', hstops⟩ := (hf a j hgoes ha).cases (R.holds_of_goes hgoes hi)
    · exact .inl ⟨b, k, hrun', R.trans hgoes hgoes', hb⟩
    · exact .inr ⟨error, s, hrun', R.stops_of_goes hgoes hstops⟩
  · rw [hrun]
    exact .inr ⟨error, s, rfl, hstops⟩

theorem failBind (h : R.stops i (R.state i) ⟨fault, span⟩) : R.Keeps i (Compile.fail fault span >>= f) Q :=
  bind (P := fun _ _ => False) (fail h) fun _ _ _ hfalse => hfalse.elim

theorem imp (h : R.Keeps i step P) (hP : ∀ j a, R.goes i j → P j a → P' j a) : R.Keeps i step P' :=
  of_cases fun hi => (h.cases hi).imp_left fun ⟨a, j, hrun, hgoes, ha⟩ => ⟨a, j, hrun, hgoes, hP j a hgoes ha⟩

theorem anything (h : R.Keeps i step P) : R.Keeps i step fun _ _ => True := h.imp fun _ _ _ _ => trivial

theorem getBind {f : CompilerState → Compile β} (h : R.Keeps i (f (R.state i)) Q) : R.Keeps i (get >>= f) Q := h

theorem readBind {f : Environment → Compile β} (h : R.Keeps i (f env) Q) : R.Keeps i (read >>= f) Q := h

theorem framesBind {f : Frames → Compile β} (h : R.Keeps i (f (R.state i).frames) Q) :
    R.Keeps i (Compile.frames >>= f) Q := h

theorem orFail {outcome : Except CompileFault α} (h : ∀ a, outcome = .ok a → P i a)
    (hstops : ∀ fault, outcome = .error fault → R.stops i (R.state i) ⟨fault, span⟩) :
    R.Keeps i (Compile.orFail span outcome) P := by
  cases outcome with
  | ok a => exact pure (h a rfl)
  | error fault => exact fail (hstops fault rfl)

theorem modifyGet {f : CompilerState → α × CompilerState} (j : ι) (hstate : R.state j = (f (R.state i)).2)
    (hgoes : R.goes i j) (hP : P j (f (R.state i)).1) : R.Keeps i (MonadState.modifyGet f) P :=
  fun _ => ⟨j, hstate, hgoes, hP⟩

theorem emitting {op : Emit α} (h : ∀ a e, op.Yields { nextTemporary := (R.state i).nextTemporary } a e →
    ∃ j, R.state j = Compile.absorb e (R.state i) ∧ R.goes i j ∧ P j a) : R.Keeps i (Compile.emitting op) P :=
  fun _ => h _ _ rfl

theorem tryEmitting {op : TryEmit α}
    (h : ∀ a e, op.Yields { nextTemporary := (R.state i).nextTemporary } a e →
      ∃ j, R.state j = Compile.absorb e (R.state i) ∧ R.goes i j ∧ P j a)
    (hstops : ∀ error e, R.stops i (Compile.absorb e (R.state i)) ⟨.value error, span⟩) :
    R.Keeps i (Compile.tryEmitting span op) P := by
  intro _
  rw [Compile.run_tryEmitting]
  cases hrun : op.run { nextTemporary := (R.state i).nextTemporary } with
  | mk outcome e =>
    cases outcome with
    | ok a => exact h a e hrun
    | error error => exact hstops error e

theorem replace {value current : Value} {path : List Selector} {slot : Option Slot} {P : ι → Value → Prop}
    (hstore : ∀ place old, slot = some place → current.selectPath path = .ok old → old.kind.accepts value.kind = true →
      R.Keeps i (Compile.tryEmitting span (value.store (place.along path))) fun j part => P j (current.graft path part))
    (hdetach : slot = none → R.Keeps i (Compile.tryEmitting span value.detach) fun j part => P j (current.graft path part))
    (hstops : ∀ fault : CompileFault, fault.IsNoPart → R.stops i (R.state i) ⟨fault, span⟩) :
    R.Keeps i (Compile.replace value span path current slot) P := by
  rw [Compile.replace_eq]
  refine bind (P := fun j old => j = i ∧ current.selectPath path = .ok old) (orFail (fun old hold => ⟨rfl, hold⟩) ?_) ?_
  · exact fun fault hfault => hstops fault (Value.isNoPart_of_selectPath hfault)
  rintro old _ - ⟨rfl, hold⟩
  refine bind (P := fun j part => P j (current.graft path part)) ?_ fun part _ _ hpart => pure hpart
  cases slot with
  | none => exact hdetach rfl
  | some place =>
    rw [Option.map_some, Compile.replace]
    split
    next haccepts => exact hstore place old rfl hold haccepts
    next => exact fail (hstops _ trivial)

theorem yielding (h : R.Keeps i step P) :
    R.Keeps i step fun j a => P j a ∧ step.Yields env (R.state i) a (R.state j) := by
  refine of_cases fun hi => (h.cases hi).imp_left ?_
  rintro ⟨a, j, hrun, hgoes, ha⟩
  exact ⟨a, j, hrun, hgoes, ha, hrun⟩

theorem discard {Q : ι → Prop} (h : R.Keeps i step fun j _ => Q j) :
    R.Keeps i (Functor.discard step) fun j _ => Q j := by
  rw [Functor.discard, Functor.mapConst]
  change R.Keeps i (Function.const α PUnit.unit <$> step) _
  rw [← bind_pure_comp]
  exact bind h fun _ _ _ hQ => pure hQ

theorem forM {f : α → Compile PUnit} (h : ∀ item ∈ items, ∀ j, R.goes i j → R.Keeps j (f item) fun _ _ => True) :
    R.Keeps i (items.forM f) fun _ _ => True := by
  induction items generalizing i with
  | nil => exact pure trivial
  | cons item rest ih =>
    refine bind (h item (.head _) i (R.refl i)) fun _ j hgoes _ => ih fun other hother k hgoes' => ?_
    exact h other (.tail _ hother) k (R.trans hgoes hgoes')

theorem mapM (hQ : ∀ j k b, R.goes j k → Q j b → Q k b) (h : ∀ item ∈ items, ∀ j, R.goes i j → R.Keeps j (f item) Q) :
    R.Keeps i (items.mapM f) fun j results => ∀ b ∈ results, Q j b := by
  induction items generalizing i with
  | nil => exact pure nofun
  | cons item rest ih =>
    rw [mapM_cons]
    refine bind (h item (.head _) i (R.refl i)) fun b j hgoes hb => ?_
    refine bind (ih fun other hother k hgoes' => ?_) fun results k hgoes' hresults => pure ?_
    · exact h other (.tail _ hother) k (R.trans hgoes hgoes')
    · exact forall_mem_cons.mpr ⟨hQ j k b hgoes' hb, hresults⟩

theorem bracket {opening closing : CompilerState → CompilerState} (inner : ι)
    (hstate : R.state inner = opening (R.state i)) (hinner : R.holds i → R.holds inner)
    (hcloses : ∀ j a, R.holds i → R.goes inner j → P' j a →
      ∃ k, R.state k = closing (R.state j) ∧ R.goes i k ∧ P k a)
    (hstops : ∀ s error, R.stops inner s error → R.stops i (closing s) error) (h : R.Keeps inner step P') :
    R.Keeps i (Compile.bracket opening closing step) P := by
  refine of_cases fun hi => ?_
  have hrun : ((Compile.bracket opening closing step) env).run (R.state i) =
      (((step env).run (opening (R.state i))).1, closing ((step env).run (opening (R.state i))).2) := rfl
  rw [hrun, ← hstate]
  obtain ⟨a, j, hrun, hgoes, ha⟩ | ⟨error, s, hrun, hfails⟩ := h.cases (hinner hi)
  · rw [hrun]
    obtain ⟨k, hk, hgoes', hP⟩ := hcloses j a hi hgoes ha
    exact .inl ⟨a, k, by rw [hk], hgoes', hP⟩
  · rw [hrun]
    exact .inr ⟨error, _, rfl, hstops s error hfails⟩

theorem inBuffer {body : Compile Unit} {use : List Node → CompilerState → CompilerState} {P Q : ι → Unit → Prop}
    (inner : ι) (hstate : R.state inner = { R.state i with draft := (R.state i).draft.push })
    (hinner : R.holds i → R.holds inner)
    (hcloses : ∀ j a, R.holds i → R.goes inner j → Q j a → ∃ k, R.state k =
      use (R.state j).draft.pop.1.toList { R.state j with draft := (R.state j).draft.pop.2 } ∧ R.goes i k ∧ P k ())
    (hstops : ∀ s error, R.stops inner s error → R.stops i { s with draft := s.draft.pop.2 } error)
    (h : R.Keeps inner body Q) : R.Keeps i (Compile.inBuffer body >>= fun nodes => modify (use nodes)) P := by
  refine of_cases fun hi => ?_
  rw [Compile.run_bind, Compile.run_inBuffer, ← hstate]
  obtain ⟨a, j, hrun, hgoes, ha⟩ | ⟨error, s, hrun, hfails⟩ := h.cases (hinner hi)
  · rw [hrun]
    obtain ⟨k, hk, hgoes', hP⟩ := hcloses j a hi hgoes ha
    exact .inl ⟨(), k, by rw [hk]; rfl, hgoes', hP⟩
  · rw [hrun]
    exact .inr ⟨error, _, rfl, hstops s error hfails⟩

/-- What a function returns is kept as it is, or stored at its slot, maybe after a value that was returned before. The
frames are not touched. -/
theorem keptResult {frame : Frame} {dynamic : Bool} {value : Value} {P : ι → Value → Prop}
    (hkept : value.isNull = true ∨ frame.kind ≠ .function ∧ dynamic = false → P i value)
    (hearlier : ∀ previous, frame.returned = some previous → R.Keeps i (do
      let nodes ← Compile.inBuffer (Functor.discard (Compile.tryEmitting span
        (previous.store (frame.returnSlot.getD (frame.slotFor Compile.returnName)))))
      modify fun s => { s with draft := s.draft.appendAt frame.bufferDepth nodes }) fun _ _ => True)
    (hstore : ∀ j, R.goes i j → (R.state j).frames = (R.state i).frames → R.Keeps j (Compile.tryEmitting span
      (value.store (frame.returnSlot.getD (frame.slotFor Compile.returnName)))) P) :
    R.Keeps i (Compile.keptResult frame dynamic value span) fun j kept =>
      P j kept ∧ (R.state j).frames = (R.state i).frames := by
  have hstore : ∀ j, R.goes i j → (R.state j).frames = (R.state i).frames → R.Keeps j (Compile.tryEmitting span
      (value.store (frame.returnSlot.getD (frame.slotFor Compile.returnName)))) fun k kept =>
        P k kept ∧ (R.state k).frames = (R.state i).frames := by
    refine fun j hj hframes => (hstore j hj hframes).yielding.imp fun k kept _ hkept => ⟨hkept.1, ?_⟩
    obtain ⟨e, -, habsorb⟩ := Compile.yields_tryEmitting.mp hkept.2
    rw [habsorb]
    exact hframes
  unfold Compile.keptResult
  dsimp only
  split
  · split
    next hnull => exact pure ⟨hkept (.inl hnull), rfl⟩
    next => exact hstore i (R.refl i) rfl
  next hfunction =>
    split
    · refine bind (P := fun j _ => (R.state j).frames = (R.state i).frames) ?_ fun _ j => hstore j
      unfold Compile.storeEarlier
      split
      next previous hprevious =>
        split
        · refine (hearlier previous hprevious).yielding.imp fun j _ _ hyields => ?_
          obtain ⟨nodes, s, hnodes, hmodify⟩ := Compile.yields_bind.mp hyields.2
          obtain ⟨s', hdiscard, -, rfl⟩ := Compile.yields_inBuffer.mp hnodes
          obtain ⟨stored, hemit⟩ := Compile.yields_discard.mp hdiscard
          obtain ⟨e, -, rfl⟩ := Compile.yields_tryEmitting.mp hemit
          rw [Compile.yields_modify.mp hmodify]
          rfl
        · exact pure rfl
      next => exact pure rfl
    next hdynamic =>
      split
      · exact hstore i (R.refl i) rfl
      · exact pure ⟨hkept (.inr ⟨hfunction, by simpa using hdynamic⟩), rfl⟩

end Keeps

end Regime

end Datapack
