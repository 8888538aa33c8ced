import Datapack.Proofs.Temporaries.Basic

/-!
Temporaries and places. Variables are bound to values that offer nothing for change, and those that have a slot
stay there, whatever is assigned to them or to their parts.
-/

namespace Datapack

open List

variable {own : Nat → Prop} {key : Nat} {change : Frame → Frame} {s : CompilerState}

namespace Frames

variable {fs : Frames} {stack : List (Nat × Frame)}

theorem Stack.find?_eq_some (h : fs.Stack stack) {name : String} {var : Variable}
    (hfind : fs.find? name = some (key, var)) : ∃ f, (key, f) ∈ stack ∧ Ordered.get? name f.vars = some var := by
  rw [find?, h.ancestors_eq] at hfind
  obtain ⟨⟨key', f⟩, hmem, hget⟩ := exists_of_findSome?_eq_some hfind
  simp only at hget
  split at hget
  next var' hvar =>
    obtain ⟨rfl, rfl⟩ := Prod.mk.inj (Option.some.inj hget)
    exact ⟨f, hmem, hvar⟩
  next => cases hget

theorem not_of_mem_takeWhile {α : Type} {p : Nat × α → Bool} {entries : List (Nat × α)} {found e : Nat × α}
    (h : entries.find? p = some found) (he : e ∈ entries.takeWhile (·.1 != found.1)) : ¬ p e = true := by
  induction entries with
  | nil => cases he
  | cons first rest ih =>
    by_cases hfirst : p first = true
    · rw [find?_cons_of_pos hfirst] at h
      cases h
      simp at he
    · rw [find?_cons_of_neg hfirst] at h
      rw [takeWhile_cons] at he
      split at he
      · cases mem_cons.mp he with
        | inl heq => exact heq ▸ hfirst
        | inr he => exact ih h he
      · cases he

theorem kept_changeAt (hkind : ∀ f, (change f).kind = f.kind)
    (hreturned : ∀ f v, (change f).returned = some v → f.returned = some v ∨ v.Within fun _ => False)
    (stack : List (Nat × Frame)) : Kept own stack (stack.map (changeAt key change)) := by
  induction stack generalizing own with
  | nil => trivial
  | cons e rest ih =>
    obtain ⟨k, f⟩ := e
    rw [map_cons, changeAt]
    by_cases heq : k = key
    · rw [if_pos heq]
      refine ⟨rfl, hkind f, fun v hv => ?_, ih⟩
      exact (hreturned f v hv).imp_right (Value.Within.mono fun _ => False.elim)
    · rw [if_neg heq]
      exact ⟨rfl, rfl, fun v hv => .inl hv, ih⟩

theorem Stack.mem_of_enclosingFunction? (h : fs.Stack stack) (hkey : fs.enclosingFunction? = some key) :
    ∃ e ∈ stack, e.1 = key := by
  rw [enclosingFunction?, h.ancestors_eq] at hkey
  obtain ⟨found, hfound, rfl⟩ := Option.map_eq_some_iff.mp hkey
  exact ⟨found, mem_of_find?_eq_some hfound, rfl⟩

theorem Stack.passes_of_enclosingFunction? (h : fs.Stack stack) (hkey : fs.enclosingFunction? = some key)
    (hstatic : fs.isDynamicBelow key = false) : ∀ e ∈ stack.takeWhile (·.1 != key), e.2.kind.passesResults = true := by
  rw [enclosingFunction?, h.ancestors_eq] at hkey
  obtain ⟨found, hfound, rfl⟩ := Option.map_eq_some_iff.mp hkey
  rw [isDynamicBelow, firstDynamic?, h.ancestors_eq] at hstatic
  intro e he
  have hkind : e.2.kind.isStatic = true := by
    simp only [Option.isSome_eq_false_iff, Option.isNone_iff_eq_none, find?_eq_none,
      mem_map, Bool.not_eq_true', Bool.not_eq_false] at hstatic
    exact hstatic e.2 ⟨e, he, rfl⟩
  have hfunction : ¬ (e.2.kind == .function || e.2.kind == .inlineFunction) = true :=
    not_of_mem_takeWhile hfound he
  simp only [Bool.or_eq_true, beq_iff_eq, not_or] at hfunction
  simp [ScopeKind.passesResults, hkind, hfunction.2]

theorem kept_changeAt_passing (hkind : ∀ f, (change f).kind = f.kind)
    (hreturned : ∀ f v, (change f).returned = some v → f.returned = some v ∨ v.Within (OwnCell own))
    (hdistinct : (stack.map (·.1)).Nodup)
    (hpasses : ∀ e ∈ stack.takeWhile (·.1 != key), e.2.kind.passesResults = true) :
    Kept own stack (stack.map (changeAt key change)) := by
  induction stack generalizing own with
  | nil => trivial
  | cons e rest ih =>
    obtain ⟨k, f⟩ := e
    obtain ⟨hnot, hdistinct'⟩ := nodup_cons.mp hdistinct
    by_cases heq : k = key
    · subst heq
      rw [map_cons, map_changeAt_of_notMem hnot, changeAt, if_pos rfl]
      exact ⟨rfl, hkind f, hreturned f, .refl _ rest⟩
    · rw [takeWhile_cons_of_pos (by simpa using heq)] at hpasses
      have hf : f.kind.passesResults = true := hpasses _ (.head _)
      rw [map_cons, changeAt, if_neg heq]
      refine ⟨rfl, rfl, fun v hv => .inl hv, ih (fun g v hv => ?_) hdistinct' fun e he =>
        hpasses e (.tail _ he)⟩
      exact (hreturned g v hv).imp_right (Value.Within.mono (OwnCell.mono fun j hj => ⟨hj, hf⟩))

end Frames

theorem CompilerState.Settled.modify (hs : s.Settled) (hparent : ∀ f, (change f).parent = f.parent)
    (hid : ∀ f, (change f).id = f.id) (hsettled : ∀ f, s.frames.get? key = some f → f.Settled → (change f).Settled) :
    CompilerState.Settled { s with frames := s.frames.modify key change } := by
  obtain ⟨stack, hstack, hframes⟩ := hs.frames
  refine ⟨⟨_, hstack.modify key hparent hid, fun e he => ?_⟩, hs.functions⟩
  obtain ⟨⟨k, f⟩, hmem, rfl⟩ := mem_map.mp he
  rw [Frames.changeAt]
  by_cases heq : k = key
  · rw [if_pos heq]
    exact hsettled f (heq ▸ hstack.get k f hmem) (hframes _ hmem)
  · rw [if_neg heq]
    exact hframes _ hmem

namespace Advances

variable {returns : Bool} {s0 : CompilerState}

theorem modify (hparent : ∀ f, (change f).parent = f.parent) (hid : ∀ f, (change f).id = f.id)
    (hkind : ∀ f, (change f).kind = f.kind)
    (hreturned : ∀ f v, (change f).returned = some v → f.returned = some v ∨ v.Within fun _ => False)
    (hsettled : ∀ f, s.frames.get? key = some f → f.Settled → (change f).Settled) :
    Advances returns (fun _ => False) s { s with frames := s.frames.modify key change } :=
  of_frames (fun hs => hs.modify hparent hid hsettled) (fun stack hstack =>
    ⟨_, hstack.modify key hparent hid, Frames.kept_changeAt hkind hreturned stack⟩) rfl rfl

theorem keepResult {kept : Value} (h : Advances true own s0 s)
    (hkept : kept.Within (fun _ => False) ∨ kept.Within (OwnCell own) ∧ ∀ stack, s.frames.Stack stack →
      ∀ e ∈ stack.takeWhile (·.1 != key), e.2.kind.passesResults = true) :
    Advances true own s0
      { s with frames := s.frames.modify key fun f => { f with returned := some kept } } := by
  have hsettled : ∀ f : Frame, f.Settled → Frame.Settled { f with returned := some kept } :=
    fun f hf => ⟨hf.vars, hf.returnSlot⟩
  obtain hkept | ⟨hkept, hpasses⟩ := hkept
  · refine h.trans_same (.modify (fun _ => rfl) (fun _ => rfl) (fun _ => rfl) ?_ fun f _ => hsettled f)
    exact fun f v hv => .inr (Option.some.inj hv ▸ hkept)
  · refine ⟨⟨h.grows.next_le, h.grows.taken, h.grows.hidden, h.grows.buffers, h.grows.routines⟩,
      fun hs => (h.settled hs).modify (fun _ => rfl) (fun _ => rfl) fun f _ => hsettled f, ?_⟩
    intro stack hstack
    obtain ⟨stack1, hstack1, hfirst⟩ := h.kept stack hstack
    have hlast : Frames.Kept own stack1
        (stack1.map (Frames.changeAt key fun f => { f with returned := some kept })) := by
      refine Frames.kept_changeAt_passing ?_ ?_ hstack1.distinct (hpasses _ hstack1)
      · exact fun _ => rfl
      · exact fun _ _ hv => .inr (Option.some.inj hv ▸ hkept)
    refine ⟨_, hstack1.modify key (fun _ => rfl) (fun _ => rfl), (hfirst.trans hlast).mono fun k hk => ?_⟩
    exact ⟨rfl, hk.elim And.right id⟩

end Advances

variable {slot : Slot} {value : Value} {stored : Value} {constant : Bool} {scope site : Span}

theorem Slot.IsVariable.member (h : slot.IsVariable) (field : String) : (slot.member field).IsVariable :=
  ⟨.of_partOf (slot.member_partOf field) h.1, rfl⟩

theorem Slot.IsVariable.element (h : slot.IsVariable) (index : Nat) : (slot.element index).IsVariable :=
  ⟨.of_partOf (slot.element_partOf index) h.1, rfl⟩

theorem Slot.IsVariable.along (h : slot.IsVariable) (path : List Selector) : (slot.along path).IsVariable := by
  induction path generalizing slot with
  | nil => exact h
  | cons selector rest ih =>
    cases selector with
    | field name => exact ih (h.member name)
    | element index => exact ih (h.element _)

theorem Slot.isVariable_ofVariable (frameId : Nat) (name : String) : (ofVariable frameId name).IsVariable :=
  ⟨Cell.isVariable_ofVariable frameId name, rfl⟩

theorem Frame.isVariable_slotFor (f : Frame) (name : String) : (f.slotFor name).IsVariable :=
  Slot.isVariable_ofVariable f.id name

theorem Value.lies_of_holds (hslot : slot.IsVariable) (h : stored.Places slot.Holds) : stored.Lies Cell.IsVariable :=
  h.mono fun _ _ hholds => .of_partOf hholds.1 hslot.1

theorem Value.within_of_holds (hslot : slot.IsVariable) (h : stored.Places slot.Holds)
    {P : Cell → Prop} : stored.Within P := by
  refine h.mono fun _ _ hholds ht => ?_
  have := (hholds.2 ht).2
  rw [hslot.2] at this
  cases this

theorem Value.places_of_static {P : Cell → Bool → Prop} {v : Value} (hflat : v.IsFlat) (hstatic : v.isStatic = true) :
    v.Places P := by
  cases v with
  | number operand | fixed operand | bool operand | string operand =>
    cases operand with
    | static _ => trivial
    | dynamic _ _ => cases hstatic
  | array items | struct _ _ fields => cases hflat
  | _ => trivial

theorem Kind.places_atSlot? {kind : Kind} (h : kind.atSlot? slot = some value) : value.Places slot.Holds := by
  have hslot : slot.Holds slot.cell slot.temporary := ⟨.refl _, fun ht => ⟨rfl, ht⟩⟩
  cases kind <;> simp only [atSlot?, Option.some.injEq, reduceCtorEq] at h <;> subst h
  case number | fixed | bool => exact hslot
  case string | null => trivial

theorem Variable.settled_of_slot (hslot : slot.IsVariable)
    (hvalue : value.Lies Cell.IsVariable) : Variable.Settled ⟨value.pinned, scope, site, some slot, constant⟩ := by
  refine ⟨value.within_pinned, fun other hother => ?_⟩
  cases hother
  exact ⟨hslot, hvalue.pinned⟩

theorem Variable.settled_of_held : Variable.Settled ⟨value.pinned, scope, site, none, constant⟩ :=
  ⟨value.within_pinned, fun _ hother => by cases hother⟩

theorem Compile.frames_replace {span : Span} {path : List Selector} {current new : Value} {slot : Option Slot}
    {env : Environment} {s' : CompilerState} (h : (replace value span path current slot).Yields env s new s') :
    s'.frames = s.frames := by
  obtain ⟨_, part, -, -, h⟩ := yields_replace.mp h
  cases slot with
  | none =>
    obtain ⟨e, -, rfl⟩ := yields_tryEmitting.mp h
    rfl
  | some place =>
    obtain ⟨e, -, rfl⟩ := yields_tryEmitting.mp h.2
    rfl

end Datapack
