import Datapack.Proofs.Discipline
import Datapack.Proofs.Flattening
import Datapack.Proofs.Parts

/-!
Which cells operations on values write: cells that are fresh, or that one of the operands offers for change by marking
them as temporary. The result offers no others.
-/

namespace Datapack

open List Value

variable {P Q : Cell → Bool → Prop} {v a v' : Value} {e e' : Emission}

/-- Whether an instruction neither guards others nor leaves the work to a routine or a raw command. -/
def Instr.IsPlain : Instr → Prop
  | .guarded _ | .call _ | .raw _ => False
  | _ => True

theorem Node.instrsAll_leaves {instrs : List Instr} (h : ∀ i ∈ instrs, i.IsPlain) (location : Option Span) :
    instrsAll (instrs.map fun i => { leaf i with location }) = instrs := by
  induction instrs with
  | nil => rfl
  | cons i rest ih =>
    have hguarded : ∀ conditions, i ≠ .guarded conditions := by
      rintro conditions rfl
      exact h _ (.head _)
    rw [map_cons, instrsAll_cons, ih fun j hj => h j (.tail _ hj)]
    exact congrArg (· ++ rest) (instrs_leaf hguarded [] location none)

namespace Value

mutual

def Places (P : Cell → Bool → Prop) : Value → Prop
  | .number d | .fixed d => d.Places P
  | .bool d => d.Places P
  | .struct _ _ fields => FieldPlaces P fields
  | .array items => ItemPlaces P items
  | .string _ | .null | .structType _ _ | .builtin _ | .function _ => True

def FieldPlaces (P : Cell → Bool → Prop) : List (String × Value) → Prop
  | [] => True
  | (_, value) :: rest => Places P value ∧ FieldPlaces P rest

def ItemPlaces (P : Cell → Bool → Prop) : List Value → Prop
  | [] => True
  | value :: rest => Places P value ∧ ItemPlaces P rest

end

theorem fieldPlaces_iff {fields : List (String × Value)} :
    FieldPlaces P fields ↔ ∀ field ∈ fields, Places P field.2 := by
  induction fields with
  | nil => simp [FieldPlaces]
  | cons field rest ih => simp [FieldPlaces, ih]

theorem itemPlaces_iff {items : List Value} : ItemPlaces P items ↔ ∀ item ∈ items, Places P item := by
  induction items with
  | nil => simp [ItemPlaces]
  | cons item rest ih => simp [ItemPlaces, ih]

end Value

def Datum.Within {α : Type} (P : Cell → Prop) : Datum α Cell → Prop :=
  Datum.Places fun cell temporary => temporary = true → P cell

def Value.Within (P : Cell → Prop) : Value → Prop :=
  Places fun cell temporary => temporary = true → P cell

def Value.Lies (P : Cell → Prop) : Value → Prop := Places fun cell _ => P cell

variable {P : Cell → Prop}

theorem Value.leafwise_places {P : Cell → Bool → Prop} : Leafwise (fun _ => True) (Places P) where
  fields := by simp [Places, fieldPlaces_iff]
  items := itemPlaces_iff

theorem Value.Places.mono {P : Cell → Bool → Prop} (h : ∀ c t, P c t → Q c t) (hv : v.Places P) : v.Places Q := by
  refine leafwise_places.mono leafwise_places (fun _ => id) (fun v hflat hv => ?_) hv
  cases v with
  | number d | fixed d | bool d => exact Datum.Places.mono h hv
  | struct _ _ _ | array _ => exact hflat.elim
  | _ => trivial

theorem Value.Within.mono {Q : Cell → Prop} (h : ∀ c, P c → Q c) (hv : v.Within P) : v.Within Q := by
  refine Places.mono (fun c t hc => ?_) hv
  exact fun ht => h c (hc ht)

theorem Value.places_mark {P : Cell → Bool → Prop} {temporary : Bool} (h : ∀ c t, P c t → Q c temporary)
    (hv : v.Places P) : (v.mark temporary).Places Q := by
  refine leafwise_places.mark leafwise_places (fun _ => id) (fun v hflat hv => ?_) hv
  cases v with
  | number d | fixed d | bool d =>
    cases d with
    | static _ => trivial
    | dynamic c t => exact h c t hv
  | struct _ _ _ | array _ => exact hflat.elim
  | _ => trivial

theorem Value.places_true (v : Value) : v.Places fun _ _ => True := by
  refine Leafwise.true.mono leafwise_places (fun _ => id) (fun v hflat _ => ?_) trivial
  cases v with
  | number d | fixed d | bool d => cases d <;> trivial
  | struct _ _ _ | array _ => exact hflat.elim
  | _ => trivial

theorem Value.within_pinned (v : Value) : v.pinned.Within P :=
  places_mark (fun _ _ _ ht => absurd ht (by decide)) v.places_true

theorem Value.Lies.pinned (h : v.Lies P) : v.pinned.Lies P :=
  places_mark (fun _ _ hc => hc) h

theorem Value.Lies.inPlace (h : v.Lies P) : v.inPlace.Within P :=
  places_mark (fun _ _ hc _ => hc) h

def Emission.Fresh (e e' : Emission) (c : Cell) : Prop :=
  ∃ k, e.nextTemporary ≤ k ∧ k < e'.nextTemporary ∧ c = .temporary k

def Emission.Available (P : Cell → Prop) (e e' : Emission) (c : Cell) : Prop := P c ∨ e.Fresh e' c

/-- Whether the instructions written between two states of an emission are plain, and write only given cells,
cells taken since, and parts of them. -/
structure Emission.Extends (P : Cell → Prop) (e e' : Emission) : Prop where
  next_le : e.nextTemporary ≤ e'.nextTemporary
  written : ∃ new, e'.instrs.toList = e.instrs.toList ++ new ∧ ∀ i ∈ new, i.IsPlain ∧
    ∀ c, i.target? = some c → ∃ base, c.PartOf base ∧ e.Available P e' base

namespace Emission

variable {P Q : Cell → Prop} {e'' : Emission} {c : Cell}

theorem Available.of_available (hle : e.nextTemporary ≤ e'.nextTemporary) (hle' : e'.nextTemporary ≤ e''.nextTemporary)
    (h : e'.Available (e.Available P e') e'' c) : e.Available P e'' c := by
  obtain (h | ⟨k, hlow, hhigh, rfl⟩) | ⟨k, hlow, hhigh, rfl⟩ := h
  · exact .inl h
  · exact .inr ⟨k, hlow, by omega, rfl⟩
  · exact .inr ⟨k, by omega, hhigh, rfl⟩

theorem Available.mono (h : ∀ c, P c → Q c) (hc : e.Available P e' c) : e.Available Q e' c :=
  hc.imp_left (h c)

theorem Extends.refl (P : Cell → Prop) (e : Emission) : e.Extends P e :=
  ⟨.refl, [], by simp, by simp⟩

theorem Extends.trans (h : e.Extends P e') (h' : e'.Extends (e.Available P e') e'') : e.Extends P e'' := by
  obtain ⟨new, hnew, hwritten⟩ := h.written
  obtain ⟨more, hmore, hwritten'⟩ := h'.written
  refine ⟨Nat.le_trans h.next_le h'.next_le, new ++ more, by rw [hmore, hnew, append_assoc], ?_⟩
  intro i hi
  cases mem_append.mp hi with
  | inl hi =>
    refine ⟨(hwritten i hi).1, fun c hc => ?_⟩
    obtain ⟨base, hpart, hbase⟩ := (hwritten i hi).2 c hc
    exact ⟨base, hpart, .of_available h.next_le h'.next_le (.inl hbase)⟩
  | inr hi =>
    refine ⟨(hwritten' i hi).1, fun c hc => ?_⟩
    obtain ⟨base, hpart, hbase⟩ := (hwritten' i hi).2 c hc
    exact ⟨base, hpart, .of_available h.next_le h'.next_le hbase⟩

theorem Extends.mono (hPQ : ∀ c, P c → Q c) (h : e.Extends P e') : e.Extends Q e' := by
  obtain ⟨new, hnew, hwritten⟩ := h.written
  refine ⟨h.next_le, new, hnew, fun i hi => ⟨(hwritten i hi).1, fun c hc => ?_⟩⟩
  obtain ⟨base, hpart, hbase⟩ := (hwritten i hi).2 c hc
  exact ⟨base, hpart, hbase.mono hPQ⟩

theorem Extends.trans_left (h : e.Extends P e') (h' : e'.Extends P e'') : e.Extends P e'' :=
  h.trans (h'.mono fun _ => .inl)

theorem Extends.fresh : e.Extends P { e with nextTemporary := e.nextTemporary + 1 } :=
  ⟨Nat.le_succ _, [], by simp, by simp⟩

end Emission

section Operators

open Emission Syntax

variable {P : Cell → Prop}

def Discipline.within (P : Cell → Prop) (low : Nat) : Discipline where
  base := low
  place n c t := t = true → P c ∨ ∃ k, low ≤ k ∧ k < n ∧ c = .temporary k
  read _ _ := True
  test _ _ := True
  write n _ i := i.IsPlain ∧ ∀ c, i.target? = some c → P c ∨ ∃ k, low ≤ k ∧ k < n ∧ c = .temporary k
  place_mono hle h ht := (h ht).imp_right fun ⟨k, hlow, hk, hc⟩ => ⟨k, hlow, Nat.lt_of_lt_of_le hk hle, hc⟩
  read_mono _ := id
  test_mono _ := id
  write_mono hle _ h :=
    ⟨h.1, fun c hc => (h.2 c hc).imp_right fun ⟨k, hlow, hk, hc⟩ => ⟨k, hlow, Nat.lt_of_lt_of_le hk hle, hc⟩⟩
  fresh h _ := .inr ⟨_, h, Nat.lt_succ_self _, rfl⟩
  reads _ := trivial
  range _ := trivial
  compare _ _ := trivial
  set h := ⟨trivial, fun _ hc => Option.some.inj hc ▸ h rfl⟩
  add h := ⟨trivial, fun _ hc => Option.some.inj hc ▸ h rfl⟩
  copy h _ := ⟨trivial, fun _ hc => Option.some.inj hc ▸ h rfl⟩
  operate h _ := ⟨trivial, fun _ hc => Option.some.inj hc ▸ h rfl⟩
  constant h _ := ⟨trivial, fun _ hc => Option.some.inj hc ▸ h rfl⟩
  store h _ := ⟨trivial, fun _ hc => Option.some.inj hc ▸ h rfl⟩

theorem Emission.Follows.extends (h : e.Follows (.within P e.nextTemporary) e') : e.Extends P e' := by
  obtain ⟨new, hnew, hwritten⟩ := h.written
  exact ⟨h.next_le, new, hnew, fun i hi => ⟨(hwritten i hi).1, fun c hc => ⟨c, .refl c, (hwritten i hi).2 c hc⟩⟩⟩

theorem Datum.Within.places {α : Type} {d : Datum α Cell} (h : d.Within P) (low n : Nat) :
    d.Places ((Discipline.within P low).place n) :=
  Datum.Places.mono (fun _ _ hc ht => .inl (hc ht)) h

theorem Value.Within.headPlaces (h : v.Within P) (low n : Nat) : v.HeadPlaces ((Discipline.within P low).place n) := by
  cases v with
  | number | fixed | bool => exact Datum.Within.places h low n
  | _ => trivial

theorem Value.Results.places {C : Cell → Bool → Prop} (h : v.Results C) : v.Places C := by
  cases v with
  | number | fixed | bool => exact h
  | string => trivial
  | _ => exact h.elim

theorem Value.binary_extends {b : Value} {op : BinaryOp} (ha : a.Within P) (hb : b.Within P)
    (h : (a.binary op b).Yields e v e') : e.Extends P e' ∧ v.Within (e.Available P e') :=
  ((obeys_binary (ha.headPlaces _ _) (hb.headPlaces _ _)).of_yields .refl h).imp
    Follows.extends Results.places

theorem Value.unary_extends {op : UnaryOp} (ha : a.Within P) (h : (a.unary op).Yields e v e') :
    e.Extends P e' ∧ v.Within (e.Available P e') :=
  ((obeys_unary (ha.headPlaces _ _)).of_yields .refl h).imp Follows.extends Results.places

end Operators

section Storage

open Emission

variable {P : Cell → Prop} {slot : Slot}

/-- Whether a cell and its mark are those of a slot or of a part of it, where only the slot itself can be
temporary. -/
def Slot.Holds (slot : Slot) (cell : Cell) (temporary : Bool) : Prop :=
  cell.PartOf slot.cell ∧ (temporary = true → cell = slot.cell ∧ slot.temporary = true)

theorem Value.isPlain_of_mem_movesTo {i : Instr} (h : i ∈ v.movesTo slot) :
    i.IsPlain ∧ ∀ c, i.target? = some c → c = slot.cell := by
  unfold movesTo at h
  split at h <;> try split at h
  all_goals
    first
    | exact absurd h not_mem_nil
    | obtain rfl := mem_singleton.mp h
      simp [Instr.IsPlain, Instr.target?, eq_comm]

theorem Value.places_placed {P : Cell → Bool → Prop}
    (h : ∀ leaf place, v.LeafAt slot leaf place → P place.cell place.temporary) : (v.placed slot).Places P := by
  refine Leafwise.true.placed leafwise_places (fun _ => id) (fun leaf place hleaf _ => ?_) trivial
  cases leaf with
  | number _ | fixed _ | bool _ => exact h _ place hleaf
  | struct _ _ _ | array _ => exact hleaf.isFlat.elim
  | _ => trivial

theorem Value.store_extends (h : (v.store slot).Yields e v' e') :
    e.Extends (· = slot.cell) e' ∧ e'.nextTemporary = e.nextTemporary ∧ v'.Places slot.Holds := by
  obtain ⟨-, rfl, rfl⟩ := yields_store.mp h
  refine ⟨⟨.refl, v.storing slot, by simp [adding], fun i hi => ?_⟩, rfl, places_placed fun leaf place h => ?_⟩
  · obtain ⟨leaf, place, hleaf, hi⟩ := mem_storing.mp hi
    obtain ⟨hplain, htarget⟩ := isPlain_of_mem_movesTo hi
    exact ⟨hplain, fun c hc => ⟨slot.cell, htarget c hc ▸ hleaf.partOf.1, .inl rfl⟩⟩
  · refine ⟨h.partOf.1, fun ht => ?_⟩
    cases h.eq_of_temporary ht
    exact ⟨rfl, ht⟩

theorem Value.detach_extends (h : v.detach.Yields e v' e') :
    e.Extends P e' ∧ (v.Within P → v'.Within (e.Available P e')) := by
  obtain ⟨-, rfl, rfl⟩ | ⟨-, hstore⟩ := yields_detach.mp h
  · exact ⟨.refl P _, fun hv => hv.mono fun _ => .inl⟩
  · obtain ⟨hext, hnext, hplaces⟩ := store_extends hstore
    have htwo : e.Extends P { e with nextTemporary := e.nextTemporary + 1 + 1 } :=
      Extends.fresh.trans_left Extends.fresh
    have hfresh : e.Fresh { e with nextTemporary := e.nextTemporary + 1 + 1 }
        (.temporary e.nextTemporary) := ⟨_, .refl, by simp only; omega, rfl⟩
    refine ⟨htwo.trans (hext.mono ?_), fun _ => hplaces.mono ?_⟩
    · rintro c rfl
      exact .inr hfresh
    · rintro c t ⟨-, htemporary⟩ ht
      obtain ⟨rfl, -⟩ := htemporary ht
      refine .inr ⟨e.nextTemporary, .refl, ?_, rfl⟩
      rw [hnext]
      simp only
      omega

end Storage

end Datapack
