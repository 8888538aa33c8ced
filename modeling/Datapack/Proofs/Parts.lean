import Datapack.Proofs.CompileStep
import Datapack.Proofs.Ordered

/-!
Values and their parts. Storing a value moves the values without parts in it one by one to the slots derived for them,
and assigning to a part of a value puts another one in its place.
-/

namespace Datapack

open List

variable {position : Nat} {path : List Selector} {fault : CompileFault} {N N' : String → Prop} {F G : Value → Prop}
  {α β : Type} {index : Int32} {length : Nat}

theorem lt_of_position? (h : position? index length = some position) : position < length := by
  rw [position?] at h
  split at h
  next hbounds => exact Option.some.inj h ▸ hbounds.2
  next => cases h

theorem getElem?_of_position? {items : List Value}
    (h : position? index items.length = some position) : items[position]? = some (items.getD position .null) := by
  rw [getD_eq_getElem?_getD, getElem?_eq_getElem (lt_of_position? h)]
  rfl

theorem position?_eq_some (h : position? index length = some position) : position = index.toInt.toNat := by
  rw [position?] at h
  split at h
  · exact (Option.some.inj h).symm
  · cases h

def CompileFault.IsNoPart : CompileFault → Prop
  | .unknownMember _ _ | .indexOutOfBounds _ _ | .typeMismatch _ _ => True
  | _ => False

def Slot.along (slot : Slot) : List Selector → Slot
  | [] => slot
  | .field name :: rest => (slot.member name).along rest
  | .element index :: rest => (slot.element index.toInt.toNat).along rest

theorem Slot.partOf_along (slot : Slot) (path : List Selector) : (slot.along path).PartOf slot := by
  induction path generalizing slot with
  | nil => exact .refl _
  | cons selector rest ih =>
    cases selector with
    | field name => exact (ih _).trans (slot.partOf_member name)
    | element index => exact (ih _).trans (slot.partOf_element _)

namespace Value

def IsFlat : Value → Prop
  | .struct _ _ _ | .array _ => False
  | _ => True

theorem part_induction (one : Value → Prop) (named : List (String × Value) → Prop) (many : List Value → Prop)
    (flat : ∀ v, v.IsFlat → one v) (struct : ∀ id name fields, named fields → one (.struct id name fields))
    (array : ∀ items, many items → one (.array items)) (namedNil : named [])
    (namedCons : ∀ name v rest, one v → named rest → named ((name, v) :: rest)) (manyNil : many [])
    (manyCons : ∀ v rest, one v → many rest → many (v :: rest)) (v : Value) : one v := by
  refine @Value.rec one named many (fun field => one field.2) ?_ ?_ ?_ ?_ ?_ ?_ struct array ?_ ?_
    namedNil (fun field rest => namedCons field.1 field.2 rest) manyNil manyCons (fun _ _ h => h) v
  all_goals
    intros
    exact flat _ trivial

/-- Induction over values, where a value with parts is taken with all of them. -/
theorem induction_on {motive : Value → Prop} (v : Value) (flat : ∀ v, v.IsFlat → motive v)
    (struct : ∀ id name fields, (∀ x ∈ fields, motive x.2) → motive (.struct id name fields))
    (array : ∀ items, (∀ v ∈ items, motive v) → motive (.array items)) : motive v :=
  part_induction motive (fun fields => ∀ x ∈ fields, motive x.2) (fun items => ∀ v ∈ items, motive v) flat struct array
    (by simp) (fun _ _ _ hv hrest => forall_mem_cons.mpr ⟨hv, hrest⟩) (by simp)
    (fun _ _ hv hrest => forall_mem_cons.mpr ⟨hv, hrest⟩) v

theorem markFields_eq_map (temporary : Bool) (fields : List (String × Value)) :
    markFields temporary fields = fields.map fun field => (field.1, field.2.mark temporary) := by
  induction fields with
  | nil => rfl
  | cons field rest ih => rw [markFields, ih, map_cons]

theorem markAll_eq_map (temporary : Bool) (items : List Value) :
    markAll temporary items = items.map (mark temporary) := by
  induction items with
  | nil => rfl
  | cons item rest ih => rw [markAll, ih, map_cons]

theorem kind_mark (temporary : Bool) (v : Value) : (v.mark temporary).kind = v.kind := by
  cases v <;> rfl

inductive Selects : Value → Selector → Value → Prop
  | field {id name fields field part} : Ordered.get? field fields = some part →
      Selects (.struct id name fields) (.field field) part
  | element {items index part} : 0 ≤ index.toInt → items[index.toInt.toNat]? = some part →
      Selects (.array items) (.element index) part

variable {v part : Value} {selector : Selector}

theorem selects_of_select (h : v.select selector = .ok part) : v.Selects selector part := by
  unfold select at h
  split at h
  · split at h
    next hget => exact .field (Except.ok.inj h ▸ hget)
    next => cases h
  · split at h
    next position hposition =>
      cases position?_eq_some hposition
      refine .element ?_ ?_
      · rw [position?] at hposition
        split at hposition
        next hbounds => exact hbounds.1
        next => cases hposition
      · exact Except.ok.inj h ▸ getElem?_of_position? hposition
    next => cases h
  · cases h
  · cases h

theorem isNoPart_of_select (h : v.select selector = .error fault) : fault.IsNoPart := by
  unfold select at h
  split at h
  · split at h <;> cases h
    trivial
  · split at h <;> cases h
    trivial
  · exact Except.error.inj h ▸ trivial
  · exact Except.error.inj h ▸ trivial

theorem isNoPart_of_selectPath (h : v.selectPath path = .error fault) : fault.IsNoPart := by
  induction path generalizing v with
  | nil => cases h
  | cons selector rest ih =>
    rw [selectPath] at h
    split at h
    · exact ih h
    next hselect => exact Except.error.inj h ▸ isNoPart_of_select hselect

theorem exists_of_selectPath_cons {rest : List Selector} (h : v.selectPath (selector :: rest) = .ok part) :
    ∃ next, v.select selector = .ok next ∧ next.selectPath rest = .ok part := by
  rw [selectPath] at h
  split at h
  next hnext => exact ⟨_, hnext, h⟩
  next => cases h

/-- Whether a property of values is one of the names of fields and of the values without parts in them. -/
structure Leafwise (N : String → Prop) (F : Value → Prop) : Prop where
  fields {id name fields} : F (.struct id name fields) ↔ ∀ x ∈ fields, N x.1 ∧ F x.2
  items {items} : F (.array items) ↔ ∀ v ∈ items, F v

namespace Leafwise

protected theorem true : Leafwise (fun _ => True) fun _ => True := ⟨by simp, by simp⟩

theorem select (hF : Leafwise N F) (hv : F v) (h : v.select selector = .ok part) : F part := by
  cases selects_of_select h with
  | field hget => exact (hF.fields.mp hv _ (Ordered.mem_of_get? hget)).2
  | element _ hget => exact hF.items.mp hv _ (mem_of_getElem? hget)

theorem selectPath (hF : Leafwise N F) (hv : F v) (h : v.selectPath path = .ok part) : F part := by
  induction path generalizing v with
  | nil => exact Except.ok.inj h ▸ hv
  | cons selector rest ih =>
    obtain ⟨next, hnext, hrest⟩ := exists_of_selectPath_cons h
    exact ih (hF.select hv hnext) hrest

section

variable (hF : Leafwise N F) (hG : Leafwise N' G) (hN : ∀ name, N name → N' name)

include hF hG hN

theorem change {f : Value → Value}
    (hstruct : ∀ id name fields, f (.struct id name fields) = .struct id name (fields.map fun x => (x.1, f x.2)))
    (harray : ∀ items, f (.array items) = .array (items.map f)) (hflat : ∀ v, v.IsFlat → F v → G (f v))
    (hv : F v) : G (f v) := by
  revert hv
  refine induction_on v hflat (fun id name fields ih hv => ?_) fun items ih hv => ?_
  · rw [hstruct, hG.fields, forall_mem_map]
    exact fun x hx => (hF.fields.mp hv x hx).imp (hN _) (ih x hx)
  · rw [harray, hG.items, forall_mem_map]
    exact fun v hmem => ih v hmem (hF.items.mp hv v hmem)

theorem mono (hflat : ∀ v, v.IsFlat → F v → G v) (hv : F v) : G v :=
  hF.change hG hN (f := id) (by simp) (by simp) hflat hv

theorem mark {temporary : Bool}
    (hflat : ∀ v, v.IsFlat → F v → G (v.mark temporary)) (hv : F v) : G (v.mark temporary) := by
  refine hF.change hG hN (fun _ _ _ => ?_) (fun _ => ?_) hflat hv
  · rw [Value.mark, markFields_eq_map]
  · rw [Value.mark, markAll_eq_map]

end

end Leafwise

mutual

def placed (slot : Slot) : Value → Value
  | .number _ => .number (.dynamic slot.cell slot.temporary)
  | .fixed _ => .fixed (.dynamic slot.cell slot.temporary)
  | .bool _ => .bool (.dynamic slot.cell slot.temporary)
  | .string _ => .string (.dynamic slot.path slot.temporary)
  | .struct id name fields => .struct id name (placedFields slot fields)
  | .array items => .array (placedItems slot 0 items)
  | other => other

def placedFields (slot : Slot) : List (String × Value) → List (String × Value)
  | [] => []
  | (name, value) :: rest => (name, placed (slot.member name) value) :: placedFields slot rest

def placedItems (slot : Slot) (position : Nat) : List Value → List Value
  | [] => []
  | value :: rest => placed (slot.element position) value :: placedItems slot (position + 1) rest

end

mutual

def leavesAt (slot : Slot) : Value → List (Value × Slot)
  | .struct _ _ fields => fieldLeavesAt slot fields
  | .array items => itemLeavesAt slot 0 items
  | value => [(value, slot)]

def fieldLeavesAt (slot : Slot) : List (String × Value) → List (Value × Slot)
  | [] => []
  | (name, value) :: rest => leavesAt (slot.member name) value ++ fieldLeavesAt slot rest

def itemLeavesAt (slot : Slot) (position : Nat) : List Value → List (Value × Slot)
  | [] => []
  | value :: rest => leavesAt (slot.element position) value ++ itemLeavesAt slot (position + 1) rest

end

/-- Whether a value without parts is one of a value, and a slot is the one that is derived for it. -/
inductive LeafAt : Value → Slot → Value → Slot → Prop
  | flat {v slot} : v.IsFlat → LeafAt v slot v slot
  | field {id name fields slot field part leaf place} : (field, part) ∈ fields →
      LeafAt part (slot.member field) leaf place → LeafAt (.struct id name fields) slot leaf place
  | item {items slot} {i : Nat} {part leaf place} : items[i]? = some part →
      LeafAt part (slot.element i) leaf place → LeafAt (.array items) slot leaf place

theorem placedFields_eq_map (slot : Slot) (fields : List (String × Value)) :
    placedFields slot fields = fields.map fun x => (x.1, x.2.placed (slot.member x.1)) := by
  induction fields with
  | nil => rfl
  | cons field rest ih => rw [placedFields, ih, map_cons]

theorem placedItems_eq_mapIdx (slot : Slot) (position : Nat) (items : List Value) :
    placedItems slot position items = items.mapIdx fun i v => v.placed (slot.element (position + i)) := by
  induction items generalizing position with
  | nil => rfl
  | cons item rest ih =>
    rw [placedItems, ih, mapIdx_cons]
    simp only [Nat.add_zero, Nat.add_assoc, Nat.add_comm 1]

theorem leavesAt_of_isFlat (h : v.IsFlat) (slot : Slot) : v.leavesAt slot = [(v, slot)] := by
  cases v with
  | struct _ _ _ | array _ => exact h.elim
  | _ => rfl

theorem fieldLeavesAt_eq_flatMap (slot : Slot) (fields : List (String × Value)) :
    fieldLeavesAt slot fields = fields.flatMap fun x => x.2.leavesAt (slot.member x.1) := by
  induction fields with
  | nil => rfl
  | cons field rest ih => rw [fieldLeavesAt, ih, flatMap_cons]

theorem itemLeavesAt_eq_flatMap (slot : Slot) (position : Nat) (items : List Value) :
    itemLeavesAt slot position items = (items.zipIdx position).flatMap fun x => x.1.leavesAt (slot.element x.2) := by
  induction items generalizing position with
  | nil => rfl
  | cons item rest ih => rw [itemLeavesAt, ih, zipIdx_cons, flatMap_cons]

theorem mem_leavesAt {slot place : Slot} {leaf : Value} :
    (leaf, place) ∈ v.leavesAt slot ↔ v.LeafAt slot leaf place := by
  induction v using induction_on generalizing slot with
  | flat v hflat =>
    rw [leavesAt_of_isFlat hflat, mem_singleton]
    constructor
    · intro h
      cases h
      exact .flat hflat
    · intro h
      cases h with
      | flat => rfl
      | field | item => exact hflat.elim
  | struct id name fields ih =>
    rw [leavesAt, fieldLeavesAt_eq_flatMap, mem_flatMap]
    refine ⟨fun ⟨x, hx, h⟩ => .field hx ((ih x hx).mp h), fun h => ?_⟩
    cases h with
    | flat h => exact h.elim
    | field hx h => exact ⟨_, hx, (ih _ hx).mpr h⟩
  | array items ih =>
    rw [leavesAt, itemLeavesAt_eq_flatMap, mem_flatMap]
    constructor
    · rintro ⟨⟨part, i⟩, hx, h⟩
      have hpart := mem_zipIdx_iff_getElem?.mp hx
      exact .item hpart ((ih part (mem_of_getElem? hpart)).mp h)
    · intro h
      cases h with
      | flat h => exact h.elim
      | item hpart h =>
        exact ⟨(_, _), mem_zipIdx_iff_getElem?.mpr hpart, (ih _ (mem_of_getElem? hpart)).mpr h⟩

namespace LeafAt

variable {slot place : Slot} {leaf : Value}

theorem isFlat (h : v.LeafAt slot leaf place) : leaf.IsFlat := by
  induction h with
  | flat h => exact h
  | field _ _ ih => exact ih
  | item _ _ ih => exact ih

theorem partOf (h : v.LeafAt slot leaf place) : place.PartOf slot := by
  induction h with
  | flat => exact .refl _
  | field _ _ ih => exact ih.trans (Slot.partOf_member _ _)
  | item _ _ ih => exact ih.trans (Slot.partOf_element _ _)

theorem eq_of_temporary (h : v.LeafAt slot leaf place) (htemporary : place.temporary = true) : place = slot := by
  induction h with
  | flat => rfl
  | field _ _ ih =>
    rw [ih htemporary] at htemporary
    cases htemporary
  | item _ _ ih =>
    rw [ih htemporary] at htemporary
    cases htemporary

theorem of_leafwise (hF : Leafwise N F) (h : v.LeafAt slot leaf place) (hv : F v) : F leaf := by
  induction h with
  | flat => exact hv
  | field hmem _ ih => exact ih (hF.fields.mp hv _ hmem).2
  | item hmem _ ih => exact ih (hF.items.mp hv _ (mem_of_getElem? hmem))

end LeafAt

theorem kind_placed (v : Value) (slot : Slot) : (v.placed slot).kind = v.kind := by
  cases v <;> rfl

theorem isFlat_placed (h : v.IsFlat) (slot : Slot) : (v.placed slot).IsFlat := by
  cases v with
  | struct _ _ _ | array _ => exact h
  | _ => trivial

theorem placed_placed (v : Value) (slot : Slot) : (v.placed slot).placed slot = v.placed slot := by
  induction v using induction_on generalizing slot with
  | flat v h =>
    cases v with
    | struct _ _ _ | array _ => exact h.elim
    | _ => rfl
  | struct id name fields ih =>
    simp only [placed, placedFields_eq_map, map_map, struct.injEq, true_and]
    exact map_congr_left fun x hx => congrArg (Prod.mk x.1) (ih x hx _)
  | array items ih =>
    simp only [placed, placedItems_eq_mapIdx, mapIdx_mapIdx, array.injEq]
    refine ext_getElem? fun i => ?_
    simp only [getElem?_mapIdx]
    cases hi : items[i]? with
    | none => rfl
    | some part => exact congrArg some (ih part (mem_of_getElem? hi) _)

theorem LeafAt.of_placed {slot place : Slot} {leaf : Value} (h : (v.placed slot).LeafAt slot leaf place) :
    ∃ old, v.LeafAt slot old place ∧ old.placed place = leaf := by
  induction v using induction_on generalizing slot with
  | flat v hflat =>
    rw [← mem_leavesAt, leavesAt_of_isFlat (isFlat_placed hflat slot), mem_singleton] at h
    cases h
    exact ⟨v, .flat hflat, rfl⟩
  | struct id name fields ih =>
    rw [placed, placedFields_eq_map] at h
    cases h with
    | flat h => exact h.elim
    | field hmem h =>
      obtain ⟨x, hx, heq⟩ := mem_map.mp hmem
      cases heq
      obtain ⟨old, hold, rfl⟩ := ih x hx h
      exact ⟨old, .field hx hold, rfl⟩
  | array items ih =>
    rw [placed, placedItems_eq_mapIdx] at h
    cases h with
    | flat h => exact h.elim
    | item hi h =>
      rw [getElem?_mapIdx, Option.map_eq_some_iff] at hi
      obtain ⟨part, hi, rfl⟩ := hi
      rw [Nat.zero_add] at h
      obtain ⟨old, hold, rfl⟩ := ih part (mem_of_getElem? hi) h
      exact ⟨old, .item hi hold, rfl⟩

theorem select_placed (v : Value) (slot : Slot) (selector : Selector) :
    (v.placed slot).select selector = (v.select selector).map (placed (slot.along [selector])) := by
  cases selector with
  | field field =>
    cases v with
    | struct id name fields =>
      have hget : Ordered.get? field (placedFields slot fields) =
          (Ordered.get? field fields).map (placed (slot.member field)) := by
        rw [placedFields_eq_map]
        exact Ordered.get?_map fun name => placed (slot.member name)
      simp only [placed, select, hget]
      cases Ordered.get? field fields <;> rfl
    | _ => rfl
  | element index =>
    cases v with
    | array items =>
      simp only [placed, placedItems_eq_mapIdx, select, length_mapIdx]
      cases hposition : position? index items.length with
      | none => rfl
      | some position =>
        cases position?_eq_some hposition
        simp only [Except.map, Slot.along, getD_eq_getElem?_getD, getElem?_mapIdx,
          getElem?_eq_getElem (lt_of_position? hposition), Nat.zero_add, Option.map_some, Option.getD_some]
    | _ => rfl

theorem selectPath_placed (v : Value) (slot : Slot) (path : List Selector) :
    (v.placed slot).selectPath path = (v.selectPath path).map (placed (slot.along path)) := by
  induction path generalizing v slot with
  | nil => rfl
  | cons selector rest ih =>
    rw [selectPath, selectPath, select_placed]
    cases v.select selector with
    | error fault => rfl
    | ok part =>
      refine (ih part (slot.along [selector])).trans ?_
      cases selector <;> rfl

theorem Leafwise.of_leaves (hF : Leafwise (fun _ => True) F) (slot : Slot)
    (h : ∀ leaf place, v.LeafAt slot leaf place → F leaf) : F v := by
  induction v using induction_on generalizing slot with
  | flat v hflat => exact h v slot (.flat hflat)
  | struct id name fields ih =>
    exact hF.fields.mpr fun x hx => ⟨trivial, ih x hx _ fun leaf place hleaf => h leaf place (.field hx hleaf)⟩
  | array items ih =>
    refine hF.items.mpr fun w hw => ?_
    obtain ⟨i, hi⟩ := mem_iff_getElem?.mp hw
    exact ih w hw _ fun leaf place hleaf => h leaf place (.item hi hleaf)

theorem Leafwise.placed {slot : Slot} (hF : Leafwise N F) (hG : Leafwise N' G) (hN : ∀ name, N name → N' name)
    (hflat : ∀ leaf place, v.LeafAt slot leaf place → F leaf → G (leaf.placed place))
    (hv : F v) : G (v.placed slot) := by
  induction v using induction_on generalizing slot with
  | flat v h => exact hflat v slot (.flat h) hv
  | struct id name fields ih =>
    rw [Value.placed, placedFields_eq_map, hG.fields, forall_mem_map]
    intro x hx
    obtain ⟨hname, hvalue⟩ := hF.fields.mp hv x hx
    exact ⟨hN _ hname, ih x hx (fun leaf place h => hflat leaf place (.field hx h)) hvalue⟩
  | array items ih =>
    rw [Value.placed, placedItems_eq_mapIdx, hG.items]
    intro w hw
    obtain ⟨i, hi, rfl⟩ := mem_mapIdx.mp hw
    refine ih _ (getElem_mem hi) (fun leaf place h => hflat leaf place (.item (getElem?_eq_getElem hi) ?_)) ?_
    · rwa [Nat.zero_add] at h
    · exact hF.items.mp hv _ (getElem_mem hi)

def movesTo (slot : Slot) : Value → List Instr
  | .number (.static n) | .fixed (.static n) => [.setScore slot.cell n]
  | .bool (.static b) => [.setScore slot.cell (Word.ofBool b)]
  | .number (.dynamic source _) | .fixed (.dynamic source _) | .bool (.dynamic source _) =>
    if source = slot.cell then [] else [.copyScore slot.cell source]
  | .string (.static text) => [.storeData slot.path (textLiteral text)]
  | .string (.dynamic source _) => if source = slot.path then [] else [.copyData slot.path source]
  | _ => []

def isStorable : Value → Bool
  | .structType _ _ | .builtin _ | .function _ => false
  | _ => true

def moving (leaves : List (Value × Slot)) : List Instr := leaves.flatMap fun leaf => leaf.1.movesTo leaf.2

def storing (slot : Slot) (v : Value) : List Instr := moving (v.leavesAt slot)

end Value

def Emission.adding (e : Emission) (new : List Instr) : Emission := { e with instrs := e.instrs ++ new.toArray }

@[simp] theorem Emission.adding_nil (e : Emission) : e.adding [] = e := by
  simp [adding]

theorem Emission.adding_append (e : Emission) (new more : List Instr) :
    e.adding (new ++ more) = (e.adding new).adding more := by
  simp [adding]

structure TryEmit.Adds {α : Type} (op : TryEmit α) (fine : Prop) (a : α) (new : List Instr) : Prop where
  yields {e a' e'} : op.Yields e a' e' ↔ fine ∧ a' = a ∧ e' = e.adding new

namespace TryEmit.Adds

variable {a : α} {fine fine' : Prop} {new more : List Instr} {op : TryEmit α}

theorem pure : Adds (pure a) True a [] := by
  constructor
  intro e a' e'
  rw [yields_pure, @eq_comm _ a, @eq_comm _ e]
  simp

theorem bind {f : α → TryEmit β} {b : β} (hop : op.Adds fine a new) (hf : (f a).Adds fine' b more) :
    (op >>= f).Adds (fine ∧ fine') b (new ++ more) := by
  constructor
  intro e b' e'
  rw [yields_bind, Emission.adding_append]
  constructor
  · rintro ⟨a', e1, h, h'⟩
    obtain ⟨hfine, rfl, rfl⟩ := hop.yields.mp h
    obtain ⟨hfine', hb, he⟩ := hf.yields.mp h'
    exact ⟨⟨hfine, hfine'⟩, hb, he⟩
  · rintro ⟨⟨hfine, hfine'⟩, hb, he⟩
    exact ⟨a, _, hop.yields.mpr ⟨hfine, rfl, rfl⟩, hf.yields.mpr ⟨hfine', hb, he⟩⟩

theorem map {f : α → β} (hop : op.Adds fine a new) : Adds (do return f (← op)) fine (f a) new := by
  have h := hop.bind (f := fun a => Pure.pure (f a)) .pure
  rwa [and_true, append_nil] at h

theorem instrs {op : Emit Unit} (hop : ∀ {e u e'}, op.Yields e u e' ↔ e' = e.adding new) :
    Adds (do op; return a) True a new := by
  have h : Adds (liftM op : TryEmit Unit) True () new := by
    constructor
    intro e u e'
    rw [yields_lift, hop]
    simp
  exact h.map

end TryEmit.Adds

namespace Value

variable {v : Value} {slot : Slot} {e e' : Emission} {u : Unit} {v' : Value}

theorem yields_storeWord {d : Datum Int32 Cell} :
    (storeWord slot.cell d).Yields e u e' ↔ e' = e.adding ((Value.number d).movesTo slot) := by
  cases d with
  | static n => simp [storeWord, movesTo, Emission.adding]
  | dynamic source temporary =>
    rw [storeWord, movesTo]
    split
    · simpa using eq_comm
    · simp [Emission.adding]

theorem yields_storeBool {d : Datum Bool Cell} :
    (storeBool slot.cell d).Yields e u e' ↔ e' = e.adding ((Value.bool d).movesTo slot) := by
  cases d with
  | static b => exact yields_storeWord (d := .static (Word.ofBool b))
  | dynamic source temporary => exact yields_storeWord (d := .dynamic source temporary)

theorem yields_storeText {d : Datum String Path} :
    (storeText slot.path d).Yields e u e' ↔ e' = e.adding ((Value.string d).movesTo slot) := by
  cases d with
  | static n => simp [storeText, movesTo, Emission.adding]
  | dynamic source temporary =>
    rw [storeText, movesTo]
    split
    · simpa using eq_comm
    · simp [Emission.adding]

theorem adds_store_of_isFlat (hflat : v.IsFlat) :
    (v.store slot).Adds (v.isStorable = true) (v.placed slot) (v.movesTo slot) := by
  have hstored {op : TryEmit Value} (h : op.Adds True (v.placed slot) (v.movesTo slot)) (hv : v.isStorable = true) :
      op.Adds (v.isStorable = true) (v.placed slot) (v.movesTo slot) := by
    rwa [hv, eq_self_iff_true]
  cases v with
  | number d => exact hstored (.instrs yields_storeWord) rfl
  | fixed d =>
    refine hstored (.instrs ?_) rfl
    cases d <;> exact yields_storeWord
  | bool d => exact hstored (.instrs yields_storeBool) rfl
  | string d => exact hstored (.instrs yields_storeText) rfl
  | null => exact hstored .pure rfl
  | struct _ _ _ | array _ => exact hflat.elim
  | structType _ _ | builtin _ | function _ => exact ⟨by simp [store, isStorable]⟩

theorem adds_store (v : Value) (slot : Slot) :
    (v.store slot).Adds (∀ leaf ∈ v.leavesAt slot, leaf.1.isStorable = true) (v.placed slot) (v.storing slot) := by
  revert slot
  refine part_induction
    (fun v => ∀ slot, (v.store slot).Adds (∀ leaf ∈ v.leavesAt slot, leaf.1.isStorable = true) (v.placed slot)
      (moving (v.leavesAt slot)))
    (fun fields => ∀ slot, (storeFields slot fields).Adds
      (∀ leaf ∈ fieldLeavesAt slot fields, leaf.1.isStorable = true) (placedFields slot fields)
      (moving (fieldLeavesAt slot fields)))
    (fun items => ∀ slot position, (storeItems slot position items).Adds
      (∀ leaf ∈ itemLeavesAt slot position items, leaf.1.isStorable = true) (placedItems slot position items)
      (moving (itemLeavesAt slot position items)))
    ?_ ?_ ?_ ?_ ?_ ?_ ?_ v
  · intro v hflat slot
    rw [leavesAt_of_isFlat hflat, forall_mem_singleton, moving, flatMap_singleton]
    exact adds_store_of_isFlat hflat
  · intro id name fields ih slot
    exact (ih slot).map
  · intro items ih slot
    exact (ih slot 0).map
  · intro slot
    simpa [storeFields, placedFields, fieldLeavesAt, moving] using TryEmit.Adds.pure
  · intro name v rest ihValue ihRest slot
    rw [fieldLeavesAt, forall_mem_append, moving, flatMap_append]
    exact (ihValue _).bind (ihRest slot).map
  · intro slot position
    simpa [storeItems, placedItems, itemLeavesAt, moving] using TryEmit.Adds.pure
  · intro v rest ihValue ihRest slot position
    rw [itemLeavesAt, forall_mem_append, moving, flatMap_append]
    exact (ihValue _).bind (ihRest slot _).map

theorem yields_store : (v.store slot).Yields e v' e' ↔
    (∀ leaf place, v.LeafAt slot leaf place → leaf.isStorable = true) ∧ v' = v.placed slot ∧
      e' = e.adding (v.storing slot) := by
  rw [(adds_store v slot).yields, Prod.forall]
  simp only [mem_leavesAt]

theorem mem_storing {i : Instr} :
    i ∈ v.storing slot ↔ ∃ leaf place, v.LeafAt slot leaf place ∧ i ∈ leaf.movesTo place := by
  simp only [storing, moving, mem_flatMap, Prod.exists, mem_leavesAt]

theorem yields_detach : v.detach.Yields e v' e' ↔ v.borrows = false ∧ v' = v ∧ e' = e ∨ v.borrows = true ∧
      (v.store ⟨.temporary e.nextTemporary, .temporary (e.nextTemporary + 1), true⟩).Yields
        { e with nextTemporary := e.nextTemporary + 2 } v' e' := by
  rw [detach]
  split
  next hborrows =>
    simp only [Emit.freshSlot, TryEmit.yields_bind, TryEmit.yields_lift, Emit.yields_bind, Emit.yields_freshCell,
      Emit.yields_freshPath, Emit.yields_pure, hborrows, Bool.true_eq_false, false_and, true_and, false_or]
    constructor
    · rintro ⟨_, _, ⟨_, _, ⟨rfl, rfl⟩, _, _, ⟨rfl, rfl⟩, rfl, rfl⟩, hstore⟩
      exact hstore
    · exact fun hstore => ⟨_, _, ⟨_, _, ⟨rfl, rfl⟩, _, _, ⟨rfl, rfl⟩, rfl, rfl⟩, hstore⟩
  next hborrows =>
    rw [TryEmit.yields_pure, @eq_comm _ v, @eq_comm _ e]
    simp [hborrows]

def graft : Value → List Selector → Value → Value
  | _, [], part => part
  | .struct id name fields, .field field :: rest, part =>
    .struct id name (Ordered.modify field (fun old => graft old rest part) fields)
  | .array items, .element index :: rest, part => .array (items.modify index.toInt.toNat fun old => graft old rest part)
  | v, _ :: _, _ => v

variable {part old : Value}

theorem Leafwise.graft (hF : Leafwise N F) (hv : F v) (hpart : F part) : F (v.graft path part) := by
  fun_induction Value.graft v path part with
  | case1 => exact hpart
  | case2 id name fields field rest part ih =>
    refine hF.fields.mpr fun x hx => ?_
    obtain hx | ⟨old, hold, rfl⟩ := Ordered.of_mem_modify hx
    · exact hF.fields.mp hv x hx
    · exact (hF.fields.mp hv _ (Ordered.mem_of_get? hold)).imp_right (ih old · hpart)
  | case3 items index rest part ih =>
    refine hF.items.mpr fun x hx => ?_
    obtain ⟨i, hi⟩ := mem_iff_getElem?.mp hx
    rw [getElem?_modify] at hi
    obtain ⟨old, hold, rfl⟩ := Option.map_eq_some_iff.mp hi
    have hmem := hF.items.mp hv old (mem_of_getElem? hold)
    split
    · exact ih old hmem hpart
    · exact hmem
  | case4 => exact hv

theorem kind_graft (hkind : old.kind.accepts part.kind = true) (h : v.selectPath path = .ok old) :
    v.kind.accepts (v.graft path part).kind = true := by
  have hself : v.kind.accepts v.kind = true := by cases v <;> simp [kind, Kind.accepts]
  cases path with
  | nil => exact Except.ok.inj h ▸ hkind
  | cons selector rest => cases v <;> cases selector <;> exact hself

end Value

namespace Compile

variable {value current : Value} {span : Span} {slot : Option Slot}

theorem absorb_adding (new : List Instr) (s : CompilerState) :
    absorb (Emission.adding { nextTemporary := s.nextTemporary } new) s = { s with
      draft := s.draft.appendAll (new.map fun i => { Node.leaf i with location := some s.location }) } := by
  simp [absorb, Emission.adding]

theorem fail_bind (f : α → Compile β) : (fail fault span >>= f) = fail fault span := rfl

theorem replace_eq : replace value span path current slot = do
    let old ← orFail span (current.selectPath path)
    let part ← replace value span [] old (slot.map (·.along path))
    return current.graft path part := by
  fun_induction replace value span path current slot with
  | case1 current place haccepts =>
    simp [Value.selectPath, orFail, Slot.along, Value.graft, replace, haccepts]
  | case2 current place hkind =>
    simp [Value.selectPath, orFail, Slot.along, Value.graft, replace, hkind]
  | case3 current => simp [Value.selectPath, orFail, Value.graft, replace]
  | case4 field rest id name fields place hnone =>
    simp [Value.selectPath, Value.select, hnone, orFail, fail_bind]
  | case5 field rest id name fields place old hold ih =>
    rw [ih]
    simp only [Value.selectPath, Value.select, hold, bind_assoc, pure_bind, Option.map_map]
    refine bind_congr fun part => bind_congr fun new => ?_
    rw [Value.graft, ← Ordered.put_eq_modify hold]
  | case6 index rest items place hnone => simp [Value.selectPath, Value.select, hnone, orFail, fail_bind]
  | case7 index rest items place position hposition old =>
    rename_i ih
    cases position?_eq_some hposition
    rw [ih]
    simp only [Value.selectPath, Value.select, hposition, bind_assoc, pure_bind, Option.map_map]
    refine bind_congr fun part => bind_congr fun new => ?_
    rw [Value.graft, modify_eq_set_getElem?, getElem?_of_position? hposition]
    rfl
  | case8 place selector rest current hfield helement =>
    have hselect : ∃ fault, current.select selector = .error fault := by
      cases selector with
      | field => cases current with
        | struct => exact absurd rfl (hfield _ _ _ _ rfl)
        | _ => exact ⟨_, rfl⟩
      | element => cases current with
        | array => exact absurd rfl (helement _ _ rfl)
        | _ => exact ⟨_, rfl⟩
    obtain ⟨fault, hfault⟩ := hselect
    simp [Value.selectPath, hfault, orFail, fail_bind]

theorem yields_replace {env : Environment} {s s' : CompilerState} {new : Value} :
    (replace value span path current slot).Yields env s new s' ↔
      ∃ old part, current.selectPath path = .ok old ∧ current.graft path part = new ∧
        match slot with
        | some place => old.kind.accepts value.kind = true ∧
            (tryEmitting span (value.store (place.along path))).Yields env s part s'
        | none => (tryEmitting span value.detach).Yields env s part s' := by
  rw [replace_eq]
  simp only [yields_bind, yields_orFail, yields_pure]
  constructor
  · rintro ⟨old, _, ⟨hold, rfl⟩, part, _, hpart, rfl, rfl⟩
    refine ⟨old, part, hold, rfl, ?_⟩
    cases slot with
    | none => exact hpart
    | some place =>
      rw [Option.map_some, replace] at hpart
      split at hpart
      next haccepts => exact ⟨haccepts, hpart⟩
      next => exact absurd hpart not_yields_fail
  · rintro ⟨old, part, hold, rfl, hpart⟩
    refine ⟨old, s, ⟨hold, rfl⟩, part, s', ?_, rfl, rfl⟩
    cases slot with
    | none => exact hpart
    | some place =>
      rw [Option.map_some, replace, if_pos hpart.1]
      exact hpart.2

end Compile
end Datapack
