import Datapack.Proofs.Simulation.Value

/-!
What operators touch. An operator writes only cells that it takes and operands that are marked as temporary, and asks for
every constant that it looks at. If all operands are known it writes nothing, and what it gives is known too.
-/

namespace Datapack

open Syntax Emit Datum

def Value.HeadAt (v : Value) (c : Cell) (temporary : Bool) : Prop :=
  v = .number (.dynamic c temporary) ∨ v = .fixed (.dynamic c temporary) ∨ v = .bool (.dynamic c temporary)

theorem Value.headPlaces_headAt {C : Cell → Bool → Prop} {v : Value} (h : ∀ c t, v.HeadAt c t → C c t) :
    v.HeadPlaces C := by
  cases v with
  | number d =>
    cases d with
    | static => trivial
    | dynamic c t => exact h c t (.inl rfl)
  | fixed d =>
    cases d with
    | static => trivial
    | dynamic c t => exact h c t (.inr (.inl rfl))
  | bool d =>
    cases d with
    | static => trivial
    | dynamic c t => exact h c t (.inr (.inr rfl))
  | _ => trivial

/-- Whether all that an operation writes, from a number of temporaries on and also if it fails, are scores in cells that
are offered for change or that it has taken, and all constants that it looks at are asked for. -/
def TryEmit.Confined (R : Cell → Bool → Prop) (next : Nat) (op : TryEmit Value) : Prop :=
  ∀ i ∈ (op.run { nextTemporary := next }).2.instrs.toList, i.IsQuiet ∧
    (∀ c, i.target? = some c →
      R c true ∨ Emission.Fresh { nextTemporary := next } (op.run { nextTemporary := next }).2 c) ∧
    ∀ c ∈ i.operands, c.Asked R (op.run { nextTemporary := next }).2.constants.toList

theorem Emit.TryObeys.confined {R : Cell → Bool → Prop} {next : Nat} {op : TryEmit Value} {post : Nat → Value → Prop}
    (h : TryObeys (.offering R next) next op post) : op.Confined R next := by
  obtain ⟨new, hnew, hwritten⟩ := (h { nextTemporary := next } .refl .refl).1.written
  intro i hi
  apply hwritten i
  rw [List.nil_append] at hnew
  exact hnew ▸ hi

def TryEmit.Silent (op : TryEmit Value) : Prop :=
  ∀ e, (op.run e).2 = e ∧ ∀ v, (op.run e).1 = .ok v → v.isFullyStatic = true

theorem TryEmit.silent_pure {v : Value} (h : v.isFullyStatic = true) : Silent (pure v) := fun _ =>
  ⟨rfl, fun _ hv => Except.ok.inj hv ▸ h⟩

theorem TryEmit.silent_throw (error : ValueError) : Silent (throw error) := fun _ => ⟨rfl, nofun⟩

section Known

open TryEmit

theorem Datum.eq_static {α π : Type} {d : Datum α π} (h : d.isStatic = true) : ∃ x, d = .static x := by
  cases d with
  | static x => exact ⟨x, rfl⟩
  | dynamic => cases h

variable {a b : Value} {op : BinaryOp}

theorem silent_compare {relation : Relation} (ha : a.isFullyStatic = true)
    (hb : b.isFullyStatic = true) : Silent (compare a op relation b) := by
  unfold compare
  split
  iterate 4
    · obtain ⟨x, rfl⟩ := eq_static ha
      obtain ⟨y, rfl⟩ := eq_static hb
      exact silent_pure rfl
  · obtain ⟨x, rfl⟩ := eq_static ha
    obtain ⟨y, rfl⟩ := eq_static hb
    split
    · exact silent_pure rfl
    · exact silent_throw _
  iterate 2
    · split
      · exact silent_pure rfl
      · exact silent_throw _
  · exact silent_throw _

theorem silent_arithmetic {scoreOp : ScoreOp} (ha : a.isFullyStatic = true)
    (hb : b.isFullyStatic = true) : Silent (arithmetic a op scoreOp b) := by
  have hnumber : ∀ x y, Silent (do return .number (← numberOp (.static x) scoreOp (.static y))) := by
    intro x y
    rw [numberOp]
    split
    · exact silent_throw _
    · exact silent_pure rfl
  have hfixed : ∀ x y, Silent (do return .fixed (← fixedOp (.static x) scoreOp (.static y))) := by
    intro x y
    rw [fixedOp]
    split
    · exact silent_throw _
    · exact silent_pure rfl
  unfold arithmetic
  split
  · obtain ⟨x, rfl⟩ := eq_static ha
    obtain ⟨y, rfl⟩ := eq_static hb
    exact hnumber x y
  iterate 3
    · obtain ⟨x, rfl⟩ := eq_static ha
      obtain ⟨y, rfl⟩ := eq_static hb
      exact hfixed _ _
  iterate 2
    · split
      · split
        · exact silent_pure rfl
        · exact silent_throw _
      · exact silent_throw _
  · exact silent_throw _

theorem Value.silent_binary (op : BinaryOp) (ha : a.isFullyStatic = true) (hb : b.isFullyStatic = true) :
    Silent (a.binary op b) := by
  unfold binary
  split
  · exact silent_compare ha hb
  · split
    · exact silent_arithmetic ha hb
    · split
      · obtain ⟨x, rfl⟩ := eq_static ha
        obtain ⟨y, rfl⟩ := eq_static hb
        exact silent_pure rfl
      · exact silent_throw _

theorem Value.silent_unary (op : UnaryOp) (ha : a.isFullyStatic = true) : Silent (a.unary op) := by
  unfold unary
  split
  iterate 2
    · obtain ⟨x, rfl⟩ := eq_static ha
      exact silent_pure rfl
  · exact silent_pure rfl
  · cases ha
  · exact silent_throw _

end Known

/-- Operators leave variables and the storage alone, also where they fail, and ask for the constants that they look at;
on known operands they write nothing, take nothing and give known results. -/
theorem Value.operators_are_confined (a b : Value) (next : Nat) :
    (∀ op, (a.binary op b).Confined (fun c t => a.HeadAt c t ∨ b.HeadAt c t) next) ∧
      (∀ op, (a.unary op).Confined a.HeadAt next) ∧
      (a.isFullyStatic = true → (∀ op, (a.unary op).Silent) ∧
        (b.isFullyStatic = true → ∀ op, (a.binary op b).Silent)) := by
  refine ⟨fun op => ?_, fun op => ?_, fun ha => ⟨fun op => silent_unary op ha, fun hb op => silent_binary op ha hb⟩⟩
  · refine Emit.TryObeys.confined (obeys_binary ?_ ?_)
    · exact headPlaces_headAt fun c t h => Or.inl (Or.inl h)
    · exact headPlaces_headAt fun c t h => Or.inl (Or.inr h)
  · exact Emit.TryObeys.confined (obeys_unary (headPlaces_headAt fun c t h => Or.inl h))

/-- A known number that is divided by a known zero. -/
theorem Value.operators_are_confined_zero :
    (Value.number (.static 7)).isFullyStatic = true ∧ (Value.number (.static 0)).isFullyStatic = true ∧
      ((Value.number (.static 7)).binary .div (.number (.static 0))).Silent :=
  ⟨rfl, rfl, ((operators_are_confined (.number (.static 7)) (.number (.static 0)) 0).2.2 rfl).2 rfl .div⟩

end Datapack
