import Datapack.Proofs.Folding

/-!
Trees of operators on truth values. The operators are applied from the leaves to the root, and the code of all of them
runs in that order: it leaves the value of the tree, and changes no leaf.
-/

namespace Datapack

open Syntax Emit

variable {World : Type} {engine : Engine World}

inductive Connective
  | and
  | or
  | equal
  | notEqual
deriving Repr, DecidableEq

def Connective.op : Connective → BinaryOp
  | and => .and
  | or => .or
  | equal => .equal
  | notEqual => .notEqual

def Connective.apply : Connective → Bool → Bool → Bool
  | and, x, y => x && y
  | or, x, y => x || y
  | equal, x, y => x == y
  | notEqual, x, y => x != y

inductive Formula
  | leaf (d : Datum Bool Cell)
  | not (f : Formula)
  | join (c : Connective) (f g : Formula)

def Formula.truth (cells : Cell → Int32) : Formula → Bool
  | leaf (.static b) => b
  | leaf (.dynamic c _) => cells c != 0
  | not f => !f.truth cells
  | join c f g => c.apply (f.truth cells) (g.truth cells)

def Formula.Leaves (P : Cell → Prop) : Formula → Prop
  | leaf d => d.Places fun c _ => P c
  | not f => f.Leaves P
  | join _ f g => f.Leaves P ∧ g.Leaves P

/-- Applies the operators of a tree one after another; beside the result are the results on the way to it. -/
def Formula.emit : Formula → TryEmit (Value × List Value)
  | leaf d => return (.bool d, [])
  | not f => do
    let first ← f.emit
    let value ← first.1.unary .not
    return (value, first.1 :: first.2)
  | join c f g => do
    let first ← f.emit
    let second ← g.emit
    let value ← first.1.binary c.op second.1
    return (value, first.1 :: second.1 :: (first.2 ++ second.2))

def Value.IsTruth (next : Nat) (cells : Cell → Int32) (v : Value) : Prop :=
  ∃ d b, v = .bool d ∧ d.Places (fun c _ => c.Before next) ∧ d.Is Word.ofBool cells b

section Steps

variable {next n : Nat} {m m' : Machine World} {a b d : Datum Bool Cell} {x y : Bool}

theorem Emit.Tells.isTruth (h : Tells next m x n d m') : (Value.bool d).IsTruth n m'.cells :=
  ⟨d, x, rfl, h.before, h.is⟩

theorem Value.IsTruth.later {v : Value} (hv : v.IsTruth next m.cells) (h : Tells next m x n d m') :
    v.IsTruth n m'.cells := by
  rcases hv with ⟨a, b, rfl, hbefore, his⟩
  exact ⟨a, b, rfl, hbefore.mono fun _ _ hc => hc.mono h.next_le, his.of_same hbefore h.same⟩

theorem runs_unary_not (ha : a.Places fun c _ => c.Before next) (hx : a.Is Word.ofBool m.cells x) :
    TryRuns engine next m ((Value.bool a).unary .not) fun n v m' => ∃ d, v = .bool d ∧ Tells next m (!x) n d m' := by
  cases a with
  | static s => exact .pure ⟨_, rfl, tells_unchanged trivial (congrArg (!·) hx)⟩
  | dynamic c temporary => exact .wrap (.lift (runs_not hx))

theorem Connective.runs_binary (c : Connective) (ha : a.Places fun c _ => c.Before next)
    (hb : b.Places fun c _ => c.Before next) (hx : a.Is Word.ofBool m.cells x) (hy : b.Is Word.ofBool m.cells y) :
    TryRuns engine next m ((Value.bool a).binary c.op (.bool b)) fun n v m' =>
      ∃ d, v = .bool d ∧ Tells next m (c.apply x y) n d m' := by
  cases c with
  | and => exact .wrap (.lift (runs_logic ha hb hx hy))
  | or => exact .wrap (.lift (runs_logic ha hb hx hy))
  | equal =>
    have hequal : equal.apply x y = ((x == y) == (Relation.equal == .equal)) := by
      cases x <;> cases y <;> rfl
    rw [hequal]
    exact .wrap (.lift (runs_compareBools rfl ha hb hx hy))
  | notEqual =>
    have hequal : notEqual.apply x y = ((x == y) == (Relation.notEqual == .equal)) := by
      cases x <;> cases y <;> rfl
    rw [hequal]
    exact .wrap (.lift (runs_compareBools rfl ha hb hx hy))

end Steps

namespace Formula

def IsHeld (next : Nat) (cells : Cell → Int32) (f : Formula) : Prop :=
  f.Leaves fun c => c.Before next ∧ (cells c = 0 ∨ cells c = 1)

variable {start : Nat} {origin : Machine World}

/-- The operators of a tree are applied at a time when cells that were taken before its first leaf are as they were at
the start, which is what the code of every subtree leaves to the next one. -/
theorem runs_emit (f : Formula) (hf : f.IsHeld start origin.cells) {next : Nat} {m : Machine World}
    (hle : start ≤ next) (hsame : ∀ c, c.Before start → m.cells c = origin.cells c) :
    TryRuns engine next m f.emit fun n result m' => ∃ d, result.1 = .bool d ∧
      Tells next m (f.truth origin.cells) n d m' ∧ ∀ v ∈ result.2, v.IsTruth n m'.cells := by
  induction f generalizing next m with
  | leaf d =>
    refine .pure ⟨d, rfl, ?_, by simp⟩
    cases d with
    | static s => exact tells_unchanged trivial rfl
    | dynamic c temporary =>
      refine tells_unchanged (hf.1.mono hle) ((hsame c hf.1).trans ?_)
      rcases hf.2 with h | h <;> rw [truth, h] <;> rfl
  | not f ih =>
    refine .bind ((ih hf hle hsame).mono ?_)
    rintro n ⟨_, parts⟩ m1 ⟨a, rfl, ha, hparts⟩
    refine .bind ((runs_unary_not ha.before ha.is).mono ?_)
    rintro n' _ m2 ⟨d, rfl, hd⟩
    refine .pure ⟨d, rfl, hd.after ha.next_le ha.same, ?_⟩
    exact List.forall_mem_cons.mpr ⟨ha.isTruth.later hd, fun v hv => (hparts v hv).later hd⟩
  | join c f g ihf ihg =>
    refine .bind ((ihf hf.1 hle hsame).mono ?_)
    rintro n1 ⟨_, parts⟩ m1 ⟨a, rfl, ha, hparts⟩
    have hsame1 : ∀ c, c.Before start → m1.cells c = origin.cells c := fun c hc =>
      (ha.same c (hc.mono hle)).trans (hsame c hc)
    refine .bind ((ihg hf.2 (hle.trans ha.next_le) hsame1).mono ?_)
    rintro n2 ⟨_, others⟩ m2 ⟨b, rfl, hb, hothers⟩
    have hbefore := ha.before.mono fun _ _ hc => hc.mono hb.next_le
    refine .bind ((c.runs_binary hbefore hb.before (ha.is.of_same ha.before hb.same) hb.is).mono ?_)
    rintro n3 _ m3 ⟨d, rfl, hd⟩
    refine .pure ⟨d, rfl, (hd.after hb.next_le hb.same).after ha.next_le ha.same, fun v hv => ?_⟩
    simp only [List.mem_cons, List.mem_append] at hv
    rcases hv with rfl | rfl | hv | hv
    · exact (ha.isTruth.later hb).later hd
    · exact hb.isTruth.later hd
    · exact ((hparts v hv).later hb).later hd
    · exact (hothers v hv).later hd

/-- The code of a tree of operators leaves its value, and nothing but truth values on the way to it; cells that were
taken before, those of the leaves among them, stay as they are. -/
theorem emit_yields_truth {next : Nat} {m : Machine World} (f : Formula) (hf : f.IsHeld next m.cells) :
    ∃ d parts e', f.emit.Yields { nextTemporary := next } (.bool d, parts) e' ∧
      d.Is Word.ofBool (engine.steps m e'.instrs.toList).cells (f.truth m.cells) ∧
      (∀ v ∈ Value.bool d :: parts, v.IsTruth e'.nextTemporary (engine.steps m e'.instrs.toList).cells) ∧
      ∀ c, c.Before next → (engine.steps m e'.instrs.toList).cells c = m.cells c := by
  have hruns : TryRuns engine next m f.emit _ := f.runs_emit hf (Nat.le_refl _) fun _ _ => rfl
  obtain ⟨⟨_, parts⟩, e', hyields, d, rfl, hd, hparts⟩ := hruns.yields
  exact ⟨d, parts, e', hyields, hd.is, List.forall_mem_cons.mpr ⟨hd.isTruth, hparts⟩, hd.same⟩

/-- A truth value in a cell that may be changed is not equal to its opposite. -/
theorem emit_yields_truth_opposite :
    (join .notEqual (leaf (.dynamic (.temporary 0) true)) (not (leaf (.dynamic (.temporary 0) true)))).IsHeld 1
        (Machine.loaded 1).cells ∧
      ∃ d parts e', (join .notEqual (leaf (.dynamic (.temporary 0) true))
          (not (leaf (.dynamic (.temporary 0) true)))).emit.Yields { nextTemporary := 1 } (.bool d, parts) e' ∧
        d.Is Word.ofBool (Engine.still.steps (Machine.loaded 1) e'.instrs.toList).cells true := by
  have hone : (Machine.loaded 1).cells (.temporary 0) = 1 := Machine.put_cells_self _ _ _
  have hheld : (join .notEqual (leaf (.dynamic (.temporary 0) true))
      (not (leaf (.dynamic (.temporary 0) true)))).IsHeld 1 (Machine.loaded 1).cells :=
    ⟨⟨Cell.before_temporary 0, Or.inr hone⟩, ⟨Cell.before_temporary 0, Or.inr hone⟩⟩
  obtain ⟨d, parts, e', hyields, hd, -, -⟩ := @emit_yields_truth _ Engine.still _ _ _ hheld
  refine ⟨hheld, d, parts, e', hyields, ?_⟩
  rwa [truth, truth, truth, truth, hone] at hd

end Formula

end Datapack
