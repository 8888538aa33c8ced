import Datapack.Proofs.Temporaries.Stmt

/-!
The course of a compilation: all that its steps can do to the state. Steps compute in temporaries, store values
at slots, write nodes, open and close buffers, routines and frames, and bind names. What holds of every one of
these moves holds of every compilation.
-/

namespace Datapack

open List Frames

def Cell.IsTemporary (c : Cell) : Prop := ∃ k, c = .temporary k

namespace Draft

@[simp] theorem routines_pop (d : Draft) : d.pop.2.routines = d.routines := by
  rw [pop]
  split <;> rfl

@[simp] theorem routines_hide (d : Draft) : d.hide.routines = d.routines := d.routines_pop

@[simp] theorem routines_unhide (d : Draft) : d.unhide.routines = d.routines := by
  rw [unhide]
  split <;> rfl

@[simp] theorem routines_appendAt (depth : Nat) (nodes : List Node) (d : Draft) :
    (d.appendAt depth nodes).routines = d.routines := by
  rw [appendAt]
  split
  · rfl
  · exact routines_appendAll nodes d

end Draft

namespace Value

mutual

def SitsAt (slot : Slot) : Value → Prop
  | .number d | .fixed d => d = .dynamic slot.cell false
  | .bool d => d = .dynamic slot.cell false
  | .string d => d = .dynamic slot.path false
  | .null => True
  | .struct _ _ fields => FieldsSitAt slot fields
  | .array items => ItemsSitAt slot 0 items
  | .structType _ _ | .builtin _ | .function _ => False

def FieldsSitAt (slot : Slot) : List (String × Value) → Prop
  | [] => True
  | (name, value) :: rest => SitsAt (slot.member name) value ∧ FieldsSitAt slot rest

def ItemsSitAt (slot : Slot) (position : Nat) : List Value → Prop
  | [] => True
  | value :: rest => SitsAt (slot.element position) value ∧ ItemsSitAt slot (position + 1) rest

end

variable {slot : Slot} {v : Value}

theorem fieldsSitAt_iff {fields : List (String × Value)} :
    FieldsSitAt slot fields ↔ ∀ field ∈ fields, SitsAt (slot.member field.1) field.2 := by
  induction fields with
  | nil => simp [FieldsSitAt]
  | cons field rest ih => simp [FieldsSitAt, ih]

theorem itemsSitAt_iff {position : Nat} {items : List Value} :
    ItemsSitAt slot position items ↔
      ∀ i v, items[i]? = some v → SitsAt (slot.element (position + i)) v := by
  induction items generalizing position with
  | nil => simp [ItemsSitAt]
  | cons item rest ih =>
    rw [ItemsSitAt, ih]
    constructor
    · rintro ⟨hitem, hrest⟩ i v hv
      cases i with
      | zero => exact Option.some.inj hv ▸ hitem
      | succ i => simpa [Nat.add_assoc, Nat.add_comm 1 i] using hrest i v hv
    · intro h
      refine ⟨h 0 item rfl, fun i v hv => ?_⟩
      simpa [Nat.add_assoc, Nat.add_comm 1 i] using h (i + 1) v hv

theorem SitsAt.leaf {leaf : Value} {place : Slot} (h : v.SitsAt slot) (hleaf : v.LeafAt slot leaf place) :
    leaf.SitsAt place := by
  induction hleaf with
  | flat => exact h
  | field hx _ ih => exact ih (fieldsSitAt_iff.mp h _ hx)
  | item hi _ ih => exact ih (by simpa using itemsSitAt_iff.mp h _ _ hi)

theorem sitsAt_placed (h : ∀ leaf place, v.LeafAt slot leaf place → leaf.isStorable = true) :
    (v.placed slot).pinned.SitsAt slot := by
  induction v using induction_on generalizing slot with
  | flat v hflat =>
    have hstorable := h v slot (.flat hflat)
    cases v with
    | struct _ _ _ | array _ => exact hflat.elim
    | structType _ _ | builtin _ | function _ => cases hstorable
    | null => trivial
    | _ => exact rfl
  | struct id name fields ih =>
    rw [placed, pinned, mark, markFields_eq_map, placedFields_eq_map, SitsAt, fieldsSitAt_iff, map_map,
      forall_mem_map]
    exact fun x hx => ih x hx fun leaf place hleaf => h leaf place (.field hx hleaf)
  | array items ih =>
    rw [placed, pinned, mark, markAll_eq_map, placedItems_eq_mapIdx, SitsAt, itemsSitAt_iff]
    intro i w hw
    obtain ⟨old, hold, rfl⟩ : ∃ old, items[i]? = some old ∧ mark false (old.placed (slot.element (0 + i))) = w := by
      simpa using hw
    exact ih old (mem_of_getElem? hold) fun leaf place hleaf => h leaf place (.item hold (by simpa using hleaf))

theorem sitsAt_of_store {v' : Value} {e e' : Emission} (h : (v.store slot).Yields e v' e') :
    v'.pinned.SitsAt slot ∧ v'.kind = v.kind := by
  obtain ⟨hstorable, rfl, -⟩ := yields_store.mp h
  exact ⟨sitsAt_placed hstorable, by cases v <;> rfl⟩

theorem SitsAt.lies (h : v.SitsAt slot) : v.Lies (·.PartOf slot.cell) := by
  refine leafwise_places.of_leaves slot fun leaf place hleaf => ?_
  have hsits := h.leaf hleaf
  cases leaf with
  | number d | fixed d | bool d =>
    obtain rfl : d = _ := hsits
    exact hleaf.partOf.1
  | struct _ _ _ | array _ => exact hleaf.isFlat.elim
  | _ => trivial

theorem SitsAt.pinned (h : v.SitsAt slot) : v.pinned.SitsAt slot := by
  induction v using induction_on generalizing slot with
  | flat v hflat =>
    cases v with
    | number d | fixed d | bool d | string d =>
      obtain rfl : d = _ := h
      exact rfl
    | struct _ _ _ | array _ => exact hflat.elim
    | _ => exact h
  | struct id name fields ih =>
    rw [Value.pinned, mark, markFields_eq_map, SitsAt, fieldsSitAt_iff, forall_mem_map]
    exact fun x hx => ih x hx (fieldsSitAt_iff.mp h x hx)
  | array items ih =>
    rw [Value.pinned, mark, markAll_eq_map, SitsAt, itemsSitAt_iff]
    intro i w hw
    obtain ⟨old, hold, rfl⟩ := Option.map_eq_some_iff.mp (getElem?_map .. ▸ hw)
    exact ih old (mem_of_getElem? hold) (itemsSitAt_iff.mp h i old hold)

theorem SitsAt.graft {part : Value} {path : List Selector} (h : v.SitsAt slot)
    (hpart : part.pinned.SitsAt (slot.along path)) : (v.graft path part).pinned.SitsAt slot := by
  fun_induction Value.graft v path part generalizing slot with
  | case1 => exact hpart
  | case2 id name fields field rest part ih =>
    rw [Value.pinned, mark, markFields_eq_map, SitsAt, fieldsSitAt_iff, forall_mem_map]
    intro x hx
    obtain hx | ⟨old, hold, rfl⟩ := Ordered.of_mem_modify hx
    · exact (fieldsSitAt_iff.mp h x hx).pinned
    · exact ih old (fieldsSitAt_iff.mp h _ (Ordered.mem_of_get? hold)) hpart
  | case3 items index rest part ih =>
    rw [Value.pinned, mark, markAll_eq_map, SitsAt, itemsSitAt_iff]
    intro i w hw
    obtain ⟨x, hx, rfl⟩ := Option.map_eq_some_iff.mp (getElem?_map .. ▸ hw)
    rw [getElem?_modify] at hx
    obtain ⟨old, hold, rfl⟩ := Option.map_eq_some_iff.mp hx
    have hsits := itemsSitAt_iff.mp h i old hold
    split
    next heq =>
      subst heq
      exact ih old hsits (by simpa [Slot.along] using hpart)
    next => exact hsits.pinned
  | case4 => exact h.pinned

end Value

/-- Whether a value that a variable holds offers only temporaries for change, and sits at the slot of the
variable if there is one. -/
structure Value.Seated (v : Value) (slot : Option Slot) : Prop where
  within : v.Within Cell.IsTemporary
  sits : ∀ place, slot = some place → place.IsVariable ∧ v.SitsAt place

/-- Whether what a frame has offers only temporaries for change, and variables sit at their slots. -/
structure Frame.Seated (f : Frame) : Prop where
  vars : ∀ x ∈ f.vars, x.2.value.Seated x.2.slot
  returned : ∀ v, f.returned = some v → v.Within Cell.IsTemporary
  returnSlot : ∀ slot, f.returnSlot = some slot → slot.IsVariable

/-- Whether the routine of a function, if it is plain, is a known one and its places are those of variables. -/
def FunctionDef.Seated (known : List String) (f : FunctionDef) : Prop :=
  ∀ routine params result, f.form = .plain routine params result →
    routine ∈ known ∧ (∀ slot ∈ params, slot.IsVariable) ∧ result.IsVariable

structure CompilerState.Seated (s : CompilerState) : Prop where
  frames : ∃ stack, s.frames.Stack stack ∧ ∀ e ∈ stack, e.2.Seated
  functions : ∀ (id : Nat) (f : FunctionDef), s.functions[id]? = some f → f.Seated s.routineNames

def CompilerState.HasSlot (s : CompilerState) (slot : Slot) : Prop :=
  ∃ key f name var, (key, f) ∈ s.frames.ancestors ∧ Ordered.get? name f.vars = some var ∧ var.slot = some slot

/-- Whether a slot is one at which a step may store a value: that of a variable of an open frame, of a new
variable, of a parameter, or of a result. -/
inductive CompilerState.Owns (s : CompilerState) : Slot → Prop
  | bound {slot : Slot} : s.HasSlot slot → Owns s slot
  | new (name : String) : Owns s (s.frames.top.slotFor name)
  | parameter {id : Nat} {f : FunctionDef} {routine : String} {params : List Slot} {result slot : Slot} :
      s.functions[id]? = some f → f.form = .plain routine params result → slot ∈ params → Owns s slot
  | result {key : Nat} {f : Frame} : s.frames.get? key = some f →
      Owns s (f.returnSlot.getD (f.slotFor Compile.returnName))

theorem CompilerState.Owns.congr {s s' : CompilerState} {slot : Slot} (h : s.Owns slot)
    (hframes : s'.frames = s.frames) (hfunctions : s'.functions = s.functions) : s'.Owns slot := by
  cases h with
  | bound h => exact .bound (by rwa [HasSlot, hframes])
  | new name => exact hframes ▸ .new name
  | parameter hf hform hslot => exact .parameter (hfunctions ▸ hf) hform hslot
  | result hf => exact .result (hframes ▸ hf)

structure Frame.Resembles (f f' : Frame) : Prop where
  id : f'.id = f.id
  kind : f'.kind = f.kind
  parent : f'.parent = f.parent
  vars : f'.vars = f.vars
  returned : f'.returned = f.returned
  returnSlot : ∀ slot, f'.returnSlot = some slot → f.returnSlot = some slot ∨ slot.IsVariable

/-- What the steps of a compilation do to its state. -/
inductive CompilerState.Moves : CompilerState → CompilerState → Prop
  | refl (s : CompilerState) : Moves s s
  | trans {s s' s'' : CompilerState} : Moves s s' → Moves s' s'' → Moves s s''
  | locate (s : CompilerState) (span : Span) : Moves s { s with location := span }
  | label (s : CompilerState) (n : Nat) : Moves s { s with nextLabel := n }
  | structs (s : CompilerState) (structs : Array StructDef) : Moves s { s with structs }
  | compute {s : CompilerState} {e : Emission} :
      Emission.Extends Cell.IsTemporary { nextTemporary := s.nextTemporary } e →
        Moves s (Compile.absorb e s)
  | store {s : CompilerState} {e : Emission} {slot : Slot} : s.Owns slot →
      Emission.Extends (fun c => c.IsTemporary ∨ c.PartOf slot.cell) { nextTemporary := s.nextTemporary } e →
        Moves s (Compile.absorb e s)
  | write {s : CompilerState} {node : Node} : (∀ callee ∈ node.calls, callee ∈ s.routineNames) →
      (∀ i ∈ node.instrs, ∀ c, i.target? = some c → c.IsTemporary) →
        Moves s { s with draft := s.draft.append node }
  | guarded {s s1 : CompilerState} (conditions : List Condition) (location : Option Span) :
      Moves { s with draft := s.draft.push } s1 →
        Moves s { s1 with
          draft := s1.draft.pop.2.append
            { Node.guarded conditions s1.draft.pop.1.toList with location } }
  | earlier {s s1 : CompilerState} (depth : Nat) : Moves { s with draft := s.draft.push } s1 →
      Moves s { s1 with draft := s1.draft.pop.2.appendAt depth s1.draft.pop.1.toList }
  | previous {s s1 : CompilerState} : Moves { s with draft := s.draft.hide } s1 →
      Moves s { s1 with draft := s1.draft.unhide }
  | routine {s s1 s2 : CompilerState} {name : String} (location : Option Span) :
      name ∉ s.routineNames → Moves { s with routineNames := name :: s.routineNames } s1 →
        Moves { s1 with draft := s1.draft.push } s2 →
          Moves s { s2 with draft := s2.draft.pop.2.finish name s2.draft.pop.1.toList location }
  | init {s : CompilerState} {routine : String} : routine ∈ s.routineNames →
      Moves s { s with userInit := some routine }
  | function {s : CompilerState} {f : FunctionDef} : f.Seated s.routineNames →
      Moves s { s with functions := s.functions.push f }
  | number (s : CompilerState) : Moves s { s with frames := s.frames.takeId.2 }
  | frame {s s1 : CompilerState} {kind : ScopeKind} {scope : Span} : Moves (Compile.opened kind scope s) s1 →
      Moves s { s1 with frames := s1.frames.pop.2 }
  | head {s : CompilerState} {change : Frame → Frame} : (∀ f : Frame, f.Resembles (change f)) →
      Moves s { s with frames := s.frames.modifyTop change }
  | result {s : CompilerState} {key : Nat} {v : Value} : v.Within Cell.IsTemporary →
      Moves s { s with frames := s.frames.modify key fun f => { f with returned := some v } }
  | bind {s : CompilerState} {name : String} {var : Variable} {frames : Frames} :
      s.frames.bind name var = .ok frames → var.value.Seated var.slot → Moves s { s with frames }
  | rebind {s : CompilerState} {name : String} {key : Nat} {var : Variable} {value : Value} {frames : Frames} :
      s.frames.find? name = some (key, var) → s.frames.rebind name value = .ok frames →
        (var.slot = none → s.frames.isDynamicBelow key = false) → value.Seated var.slot →
          (var.slot ≠ none → var.value.kind.accepts value.kind = true) → Moves s { s with frames }

theorem Kind.accepts_trans {a b c : Kind} (hb : b ≠ .any) (h : a.accepts b = true) (h' : b.accepts c = true) :
    a.accepts c = true := by
  cases a with
  | any => rfl
  | struct id name =>
    cases b with
    | any => exact absurd rfl hb
    | struct id' name' =>
      cases c with
      | struct id'' name'' =>
        simp only [accepts, beq_iff_eq] at h h' ⊢
        exact h.trans h'
      | _ => cases h'
    | _ => cases h
  | _ =>
    cases b with
    | any => exact absurd rfl hb
    | _ => first | exact h' | cases h

theorem Value.kind_ne_any (v : Value) : v.kind ≠ .any := by
  cases v <;> simp [kind]

theorem Value.accepts_kind (v : Value) : v.kind.accepts v.kind = true := by
  cases v <;> simp [kind, Kind.accepts]

/-- Whether a variable stays what it is. The value of one without a slot may change where the code runs as
often as that of its frame; one with a slot keeps its type. -/
structure Variable.Persists (dynamic : Bool) (var var' : Variable) : Prop where
  scope : var'.scope = var.scope
  site : var'.site = var.site
  slot : var'.slot = var.slot
  constant : var'.constant = var.constant
  known : var.slot = none → dynamic = true → var'.value = var.value
  kind : var.slot ≠ none → var.value.kind.accepts var'.value.kind = true

structure Frame.Persists (dynamic : Bool) (f f' : Frame) : Prop where
  id : f'.id = f.id
  kind : f'.kind = f.kind
  vars : ∀ name var, Ordered.get? name f.vars = some var →
    ∃ var', Ordered.get? name f'.vars = some var' ∧ var.Persists dynamic var'

/-- Whether frames stay open and their variables stay what they are, where it is told whether the code that
is compiled may run any number of times for one run of the innermost frame. -/
def Frames.Persist (dynamic : Bool) : List (Nat × Frame) → List (Nat × Frame) → Prop
  | [], [] => True
  | (key, f) :: rest, (key', f') :: rest' =>
    key' = key ∧ f.Persists dynamic f' ∧ Persist (dynamic || !f.kind.isStatic) rest rest'
  | _, _ => False

variable {dynamic other : Bool} {var : Variable} {f : Frame} {f' : Frame}

theorem Variable.Persists.refl (dynamic : Bool) (var : Variable) : var.Persists dynamic var :=
  ⟨rfl, rfl, rfl, rfl, fun _ _ => rfl, fun _ => var.value.accepts_kind⟩

theorem Variable.Persists.trans {a b c : Variable} (hab : a.Persists dynamic b) (hbc : b.Persists dynamic c) :
    a.Persists dynamic c where
  scope := hbc.scope.trans hab.scope
  site := hbc.site.trans hab.site
  slot := hbc.slot.trans hab.slot
  constant := hbc.constant.trans hab.constant
  known hslot hdynamic := (hbc.known (hab.slot.trans hslot) hdynamic).trans (hab.known hslot hdynamic)
  kind hslot := Kind.accepts_trans b.value.kind_ne_any (hab.kind hslot) (hbc.kind (hab.slot ▸ hslot))

theorem Variable.Persists.mono (h : other = true → dynamic = true) {var' : Variable}
    (hvar : var.Persists dynamic var') : var.Persists other var' :=
  { hvar with known := fun hslot hother => hvar.known hslot (h hother) }

theorem Frame.Persists.of_vars (hid : f'.id = f.id) (hkind : f'.kind = f.kind) (hvars : f'.vars = f.vars) :
    f.Persists dynamic f' :=
  ⟨hid, hkind, fun _ var hvar => ⟨var, hvars ▸ hvar, .refl dynamic var⟩⟩

theorem Frame.Persists.trans {a b c : Frame} (hab : a.Persists dynamic b) (hbc : b.Persists dynamic c) :
    a.Persists dynamic c := by
  refine ⟨hbc.id.trans hab.id, hbc.kind.trans hab.kind, fun name var hvar => ?_⟩
  obtain ⟨var', hvar', hfirst⟩ := hab.vars name var hvar
  obtain ⟨var'', hvar'', hsecond⟩ := hbc.vars name var' hvar'
  exact ⟨var'', hvar'', hfirst.trans hsecond⟩

theorem Frame.Persists.mono (h : other = true → dynamic = true) (hf : f.Persists dynamic f') : f.Persists other f' := by
  refine ⟨hf.id, hf.kind, fun name var hvar => ?_⟩
  obtain ⟨var', hvar', hpersists⟩ := hf.vars name var hvar
  exact ⟨var', hvar', hpersists.mono h⟩

namespace Frames

theorem Persist.refl (dynamic : Bool) (stack : List (Nat × Frame)) : Persist dynamic stack stack := by
  induction stack generalizing dynamic with
  | nil => trivial
  | cons e rest ih => exact ⟨rfl, .of_vars rfl rfl rfl, ih _⟩

theorem Persist.trans {a b c : List (Nat × Frame)} (hab : Persist dynamic a b) (hbc : Persist dynamic b c) :
    Persist dynamic a c := by
  fun_induction Persist dynamic a b generalizing c with
  | case1 => exact hbc
  | case2 dynamic key f rest key' f' rest' ih =>
    cases c with
    | nil => exact hbc.elim
    | cons e rest'' =>
      obtain ⟨hkey, hframe, hrest⟩ := hab
      obtain ⟨hkey', hframe', hrest'⟩ := hbc
      rw [hframe.kind] at hrest'
      exact ⟨hkey'.trans hkey, hframe.trans hframe', ih hrest hrest'⟩
  | case3 => exact hab.elim

variable {stack stack' : List (Nat × Frame)} {key : Nat} {change : Frame → Frame}

theorem Persist.mono (h : other = true → dynamic = true) (hstack : Persist dynamic stack stack') :
    Persist other stack stack' := by
  fun_induction Persist dynamic stack stack' generalizing other with
  | case1 => trivial
  | case2 dynamic key f rest key' f' rest' ih =>
    obtain ⟨hkey, hframe, hrest⟩ := hstack
    refine ⟨hkey, hframe.mono h, ih ?_ hrest⟩
    simp only [Bool.or_eq_true]
    exact Or.imp_left h
  | case3 => exact hstack.elim

theorem Persist.exists_of_mem (h : Persist dynamic stack stack') (hf : (key, f) ∈ stack) :
    ∃ f', (key, f') ∈ stack' ∧ f.Persists dynamic f' := by
  induction stack generalizing dynamic stack' with
  | nil => cases hf
  | cons e rest ih =>
    cases stack' with
    | nil => exact h.elim
    | cons e' rest' =>
      obtain ⟨key', f'⟩ := e'
      obtain ⟨rfl, hframe, hrest⟩ := h
      cases mem_cons.mp hf with
      | inl heq =>
        subst heq
        exact ⟨f', .head _, hframe⟩
      | inr hf =>
        obtain ⟨f', hf', hpersists⟩ := ih hrest hf
        exact ⟨f', .tail _ hf', hpersists.mono (by simp +contextual)⟩

theorem persist_changeAt (hdistinct : (stack.map (·.1)).Nodup) (h : ∀ f, (key, f) ∈ stack → f.Persists
      (dynamic || (stack.takeWhile (·.1 != key)).any fun e => !e.2.kind.isStatic) (change f)) :
    Persist dynamic stack (stack.map (changeAt key change)) := by
  induction stack generalizing dynamic with
  | nil => trivial
  | cons e rest ih =>
    obtain ⟨k, f⟩ := e
    obtain ⟨hnot, hdistinct'⟩ := nodup_cons.mp hdistinct
    rw [map_cons, changeAt]
    by_cases heq : k = key
    · subst heq
      rw [if_pos rfl, map_changeAt_of_notMem hnot]
      exact ⟨rfl, by simpa using h f (.head _), .refl _ rest⟩
    · rw [if_neg heq]
      refine ⟨rfl, .of_vars rfl rfl rfl, ih hdistinct' fun g hg => ?_⟩
      simpa [takeWhile_cons, heq, Bool.or_assoc] using h g (.tail _ hg)

theorem persist_changeAt_of_forall (h : ∀ f : Frame, f.Persists true (change f))
    (hdistinct : (stack.map (·.1)).Nodup) : Persist dynamic stack (stack.map (changeAt key change)) :=
  persist_changeAt hdistinct fun f _ => (h f).mono fun _ => rfl

theorem Persist.tail {fs : Frames} (h : Persist dynamic ((key, f) :: stack) stack') (hne : stack ≠ [])
    (hstack : fs.Stack stack') :
    ∃ key' f' rest, stack' = (key', f') :: rest ∧ fs.pop.2.Stack rest ∧
      Persist (dynamic || !f.kind.isStatic) stack rest := by
  match stack, stack', h with
  | [], _, _ => exact absurd rfl hne
  | _ :: _, (key', f') :: (next, g) :: rest, h => exact ⟨key', f', _, rfl, hstack.pop, h.2.2⟩

end Frames

theorem Frame.Resembles.persists {f f' : Frame} (h : f.Resembles f') : f.Persists dynamic f' :=
  .of_vars h.id h.kind h.vars

theorem Frame.Resembles.seated {f f' : Frame} (h : f.Resembles f') (hf : f.Seated) : f'.Seated where
  vars := h.vars ▸ hf.vars
  returned v hv := hf.returned v (h.returned ▸ hv)
  returnSlot slot hslot := (h.returnSlot slot hslot).elim (hf.returnSlot slot) fun hslot => hslot

namespace Frames

variable {fs frames : Frames} {stack : List (Nat × Frame)} {name : String} {key : Nat}

theorem bind_eq_ok (h : fs.bind name var = .ok frames) :
    frames = fs.modifyTop fun f => { f with vars := f.vars ++ [(name, var)] } := by
  rw [bind] at h
  split at h
  · cases h
  · exact (Except.ok.inj h).symm

theorem rebind_eq_ok {value : Value} (hfind : fs.find? name = some (key, var)) (h : fs.rebind name value = .ok frames) :
    frames = fs.modify key fun f =>
      { f with vars := Ordered.modify name (fun v => { v with value }) f.vars } := by
  rw [rebind, hfind] at h
  exact (Except.ok.inj h).symm

theorem seated_changeAt {change : Frame → Frame} (hstack : ∀ e ∈ stack, e.2.Seated)
    (h : ∀ f, (key, f) ∈ stack → f.Seated → (change f).Seated) : ∀ e ∈ stack.map (changeAt key change), e.2.Seated := by
  intro e he
  obtain ⟨⟨k, f⟩, hmem, rfl⟩ := mem_map.mp he
  rw [changeAt]
  by_cases heq : k = key
  · subst heq
    rw [if_pos rfl]
    exact h f hmem (hstack _ hmem)
  · rw [if_neg heq]
    exact hstack _ hmem

end Frames

theorem Frame.persists_bound (f : Frame) (name : String) (var : Variable) :
    f.Persists dynamic { f with vars := f.vars ++ [(name, var)] } :=
  ⟨rfl, rfl, fun _ old hold => ⟨old, Ordered.get?_append_of_some hold _, .refl dynamic old⟩⟩

theorem Frame.Seated.bound (hf : f.Seated) (name : String) (hvar : var.value.Seated var.slot) :
    Frame.Seated { f with vars := f.vars ++ [(name, var)] } := by
  refine ⟨fun x hx => ?_, hf.returned, hf.returnSlot⟩
  cases mem_append.mp hx with
  | inl hx => exact hf.vars x hx
  | inr hx => exact mem_singleton.mp hx ▸ hvar

variable {name : String} {value : Value}

theorem Frame.persists_rebound (hvar : Ordered.get? name f.vars = some var)
    (hknown : var.slot = none → dynamic = false) (hkind : var.slot ≠ none → var.value.kind.accepts value.kind = true) :
    f.Persists dynamic { f with vars := Ordered.modify name (fun v => { v with value }) f.vars } := by
  refine ⟨rfl, rfl, fun other old hold => ⟨_, Ordered.get?_modify hold, ?_⟩⟩
  by_cases heq : other = name
  · subst heq
    cases Option.some.inj (hvar.symm.trans hold)
    rw [if_pos rfl]
    refine ⟨rfl, rfl, rfl, rfl, fun hslot hdynamic => ?_, hkind⟩
    rw [hknown hslot] at hdynamic
    cases hdynamic
  · rw [if_neg heq]
    exact .refl dynamic old

theorem Frame.Seated.rebound (hf : f.Seated)
    (hvar : Ordered.get? name f.vars = some var) (hvalue : value.Seated var.slot) :
    Frame.Seated { f with vars := Ordered.modify name (fun v => { v with value }) f.vars } := by
  refine ⟨fun x hx => ?_, hf.returned, hf.returnSlot⟩
  obtain hx | ⟨old, hold, rfl⟩ := Ordered.of_mem_modify hx
  · exact hf.vars x hx
  · cases Option.some.inj (hvar.symm.trans hold)
    exact hvalue

theorem FunctionDef.Seated.mono {known more : List String} (h : known ⊆ more) {f : FunctionDef}
    (hf : f.Seated known) : f.Seated more :=
  fun routine params result hform => (hf routine params result hform).imp_left (h ·)

namespace CompilerState

variable {s s' : CompilerState}

section

variable (h : s.Moves s')

include h

theorem Moves.stack : ∀ stack, s.frames.Stack stack → (∀ e ∈ stack, e.2.Seated) →
    ∃ stack', s'.frames.Stack stack' ∧ (∀ e ∈ stack', e.2.Seated) ∧ Persist false stack stack' := by
  induction h with
  | refl | locate | label | structs | compute | store | write | init | function =>
    exact fun stack hstack hseated => ⟨stack, hstack, hseated, .refl false stack⟩
  | guarded _ _ _ ih | earlier _ _ ih | previous _ ih => exact ih
  | trans _ _ ih ih' | routine _ _ _ _ ih ih' =>
    intro stack hstack hseated
    obtain ⟨stack1, hstack1, hseated1, hfirst⟩ := ih stack hstack hseated
    obtain ⟨stack2, hstack2, hseated2, hsecond⟩ := ih' stack1 hstack1 hseated1
    exact ⟨stack2, hstack2, hseated2, hfirst.trans hsecond⟩
  | number => exact fun stack hstack hseated => ⟨stack, hstack.takeId, hseated, .refl false stack⟩
  | frame _ ih =>
    intro stack hstack hseated
    obtain ⟨key, f, hopened, -, -, hvars, hreturned, hslot⟩ := Advances.stack_opened hstack
    have hf : f.Seated := ⟨by simp [hvars], by simp [hreturned], by simp [hslot]⟩
    obtain ⟨stack1, hstack1, hseated1, hpersist⟩ := ih _ hopened (forall_mem_cons.mpr ⟨hf, hseated⟩)
    have hne : stack ≠ [] := by
      rintro rfl
      simpa using hstack.current
    obtain ⟨key', f', rest, rfl, hrest, hpersist⟩ := hpersist.tail hne hstack1
    exact ⟨rest, hrest, fun e he => hseated1 e (.tail _ he), hpersist.mono (by simp)⟩
  | head hchange =>
    intro stack hstack hseated
    refine ⟨_, hstack.modify _ (fun f => (hchange f).parent) (fun f => (hchange f).id), ?_, ?_⟩
    · exact seated_changeAt hseated fun f _ hf => (hchange f).seated hf
    · exact persist_changeAt_of_forall (fun f => (hchange f).persists) hstack.distinct
  | result hv =>
    intro stack hstack hseated
    refine ⟨_, hstack.modify _ (fun _ => rfl) (fun _ => rfl), ?_, ?_⟩
    · refine seated_changeAt hseated fun f _ hf => ⟨hf.vars, fun w hw => ?_, hf.returnSlot⟩
      exact Option.some.inj hw ▸ hv
    · refine persist_changeAt_of_forall (fun f => ?_) hstack.distinct
      exact .of_vars rfl rfl rfl
  | bind hbind hvar =>
    intro stack hstack hseated
    rw [bind_eq_ok hbind]
    refine ⟨_, hstack.modify _ (fun _ => rfl) (fun _ => rfl), ?_, ?_⟩
    · exact seated_changeAt hseated fun f _ hf => hf.bound _ hvar
    · exact persist_changeAt_of_forall (fun f => f.persists_bound _ _) hstack.distinct
  | rebind hfind hrebind hstatic hvalue hkind =>
    intro stack hstack hseated
    obtain ⟨f, hf, hvar⟩ := hstack.find?_eq_some hfind
    have hsame : ∀ g, (_, g) ∈ stack → g = f := fun g hg =>
      Option.some.inj ((hstack.get _ g hg).symm.trans (hstack.get _ f hf))
    rw [rebind_eq_ok hfind hrebind]
    refine ⟨_, hstack.modify _ (fun _ => rfl) (fun _ => rfl), ?_, ?_⟩
    · refine seated_changeAt hseated fun g hg hseated => ?_
      exact hseated.rebound (hsame g hg ▸ hvar) hvalue
    · refine persist_changeAt hstack.distinct fun g hg => ?_
      refine Frame.persists_rebound (hsame g hg ▸ hvar) (fun hslot => ?_) hkind
      have hnone := hstatic hslot
      rw [Frames.isDynamicBelow, Frames.firstDynamic?, hstack.ancestors_eq] at hnone
      simpa [find?_eq_none] using hnone

theorem Moves.grows : s.routineNames ⊆ s'.routineNames ∧
    ∀ (id : Nat) (f : FunctionDef), s.functions[id]? = some f → s'.functions[id]? = some f := by
  induction h with
  | refl | locate | label | structs | compute | store | write | init | number | head | result
    | bind | rebind => exact ⟨fun _ => id, fun _ _ => id⟩
  | trans _ _ ih ih' => exact ⟨List.Subset.trans ih.1 ih'.1, fun id f hf => ih'.2 id f (ih.2 id f hf)⟩
  | guarded _ _ _ ih | earlier _ _ ih | previous _ ih | frame _ ih => exact ih
  | routine _ _ _ _ ih ih' =>
    exact ⟨List.Subset.trans (subset_of_cons_subset ih.1) ih'.1, fun id f hf => ih'.2 id f (ih.2 id f hf)⟩
  | function =>
    refine ⟨fun _ => id, fun id f hf => ?_⟩
    obtain ⟨hlt, heq⟩ := Array.getElem?_eq_some_iff.mp hf
    exact (Array.getElem?_push_lt hlt).trans (congrArg some heq)

theorem Moves.routineNames_subset : s.routineNames ⊆ s'.routineNames := h.grows.1

theorem Moves.functions (hs : ∀ (id : Nat) (f : FunctionDef), s.functions[id]? = some f → f.Seated s.routineNames) :
    ∀ (id : Nat) (f : FunctionDef), s'.functions[id]? = some f → f.Seated s'.routineNames := by
  induction h with
  | refl | locate | label | structs | compute | store | write | init | number | head | result
    | bind | rebind => exact hs
  | trans _ _ ih ih' => exact ih' (ih hs)
  | guarded _ _ _ ih | earlier _ _ ih | previous _ ih | frame _ ih => exact ih hs
  | routine _ _ _ _ ih ih' =>
    exact ih' (ih fun id f hf => (hs id f hf).mono (subset_cons_self _ _))
  | function hf =>
    intro id g hg
    rw [Array.getElem?_push] at hg
    split at hg
    · exact Option.some.inj hg ▸ hf
    · exact hs id g hg

theorem Moves.seated (hs : s.Seated) : s'.Seated := by
  obtain ⟨stack, hstack, hseated⟩ := hs.frames
  obtain ⟨stack', hstack', hseated', -⟩ := h.stack stack hstack hseated
  exact ⟨⟨stack', hstack', hseated'⟩, h.functions hs.functions⟩

theorem Moves.hasSlot (hs : s.Seated) {slot : Slot} (hslot : s.HasSlot slot) : s'.HasSlot slot := by
  obtain ⟨stack, hstack, hseated⟩ := hs.frames
  obtain ⟨stack', hstack', -, hpersist⟩ := h.stack stack hstack hseated
  obtain ⟨key, f, name, var, hf, hvar, hslot⟩ := hslot
  rw [hstack.ancestors_eq] at hf
  obtain ⟨f', hf', hframe⟩ := hpersist.exists_of_mem hf
  obtain ⟨var', hvar', hvarPersists⟩ := hframe.vars name var hvar
  exact ⟨key, f', name, var', hstack'.ancestors_eq ▸ hf', hvar', hvarPersists.slot.trans hslot⟩

end

end CompilerState

end Datapack
