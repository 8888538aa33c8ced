import Datapack.Proofs.Ledger
import Datapack.Proofs.Report.Parse

/-!
The scopes of a script as the analysis of names notes them. As every scope has a text of its own, no two of them are
taken for one, and the notes are the tree of the blocks of the script.
-/

namespace Datapack

open Syntax NameLedger

/-- How two scopes may be placed: exactly one is inside the other, or neither is and no text belongs to both. The zero
span stands for the whole script. -/
def Nest.Placed (a b : Nest) : Prop :=
  (b.key ∈ a.inner ∧ a.key ∉ b.inner ∧ (a.key ≠ .zero → a.key.start < b.key.start ∧ b.key.stop ≤ a.key.stop)) ∨
  (a.key ∈ b.inner ∧ b.key ∉ a.inner ∧ (b.key ≠ .zero → b.key.start < a.key.start ∧ a.key.stop ≤ b.key.stop)) ∨
  (b.key ∉ a.inner ∧ a.key ∉ b.inner ∧ (a.key.stop ≤ b.key.start ∨ b.key.stop ≤ a.key.start))

variable {a b : Nest}

theorem Nest.Placed.symm (h : a.Placed b) : b.Placed a := by
  obtain h | h | ⟨ha, hb, h⟩ := h
  · exact .inr (.inl h)
  · exact .inl h
  · exact .inr (.inr ⟨hb, ha, h.symm⟩)

instance : Std.Symm Nest.Placed := ⟨fun _ _ => Nest.Placed.symm⟩

theorem Nest.placed_of_apart (ha : a.Encloses) (hb : b.Encloses)
    (h : b.key ∈ a.inner ∨ a.key.stop ≤ b.key.start) : a.Placed b := by
  by_cases hmem : b.key ∈ a.inner
  · obtain ⟨hstart, -, hstop⟩ := ha.inner _ hmem
    exact .inl ⟨hmem, fun hback => Nat.lt_asymm hstart (hb.inner _ hback).1, fun _ => ⟨hstart, hstop⟩⟩
  · have hle := h.resolve_left hmem
    refine .inr (.inr ⟨hmem, fun hback => ?_, .inl hle⟩)
    have := (hb.inner _ hback).1
    have := ha.nonempty
    omega

theorem Syntax.Script.outline_scopes {source : Source} {script : Script} (h : Script.parse source = .ok script) :
    (Analysis.of script).scopes.outline =
        ⟨.zero, .global, (Stmt.allNests script.stmts).map Nest.key⟩ :: Stmt.allNests script.stmts ∧
      ((Analysis.of script).scopes.map Prod.fst).Nodup := by
  obtain ⟨stop, hlaid⟩ := Script.laid h
  obtain ⟨hfresh, hnests⟩ := Trail.fresh_start hlaid
  obtain ⟨hfollows, -⟩ := follows_start.run Trail.sound_start hfresh
  rw [Analysis.run_events, hfollows.outline, hnests, hfollows.keys]
  exact ⟨rfl, (Trail.sound_start.run hfresh).distinct⟩

/-- The scopes of a script that was read: the one around it and those that its statements open, noted once each in the
order in which they open. Their keys are different, each is noted with the keys of all scopes inside it in that order,
and of two scopes one is inside the other or their texts have nothing in common. -/
theorem Syntax.Script.scopes_are_nested {source : Source} {script : Script} (h : Script.parse source = .ok script) :
    (Analysis.of script).scopes.outline =
        ⟨.zero, .global, (Stmt.allNests script.stmts).map Nest.key⟩ :: Stmt.allNests script.stmts ∧
      ((Analysis.of script).scopes.map Prod.fst).Nodup ∧
      (∀ nest ∈ Stmt.allNests script.stmts, nest.key ≠ .zero) ∧
      (∀ nest ∈ (Analysis.of script).scopes.outline, nest.inner.Sublist ((Analysis.of script).scopes.map Prod.fst)) ∧
      ∀ nest ∈ (Analysis.of script).scopes.outline, ∀ other ∈ (Analysis.of script).scopes.outline,
        nest.key ≠ other.key → nest.Placed other := by
  obtain ⟨stop, hlaid⟩ := Script.laid h
  obtain ⟨hscopes, hdistinct⟩ := outline_scopes h
  have hkeys : (Analysis.of script).scopes.map Prod.fst = .zero :: (Stmt.allNests script.stmts).map Nest.key := by
    rw [← ScopeMap.keys_outline, hscopes]
    rfl
  have hzero : ∀ nest ∈ Stmt.allNests script.stmts, nest.key ≠ .zero :=
    fun nest hnest heq => hlaid.zero_not_mem (heq ▸ List.mem_map_of_mem hnest)
  refine ⟨hscopes, hdistinct, hzero, ?_, ?_⟩
  · rw [hscopes, hkeys]
    exact List.forall_mem_cons.mpr ⟨List.sublist_cons_self _ _, fun nest hnest => (hlaid.listed nest hnest).cons _⟩
  · -- the scope around the script has all others inside it, and these are apart in the order in which they open
    have hpairs : (Analysis.of script).scopes.outline.Pairwise Nest.Placed := by
      rw [hscopes]
      refine List.pairwise_cons.mpr
        ⟨fun nest hnest => .inl ⟨List.mem_map_of_mem hnest, ?_, fun hne => absurd rfl hne⟩, ?_⟩
      · intro hback
        exact Nat.not_lt_zero _ ((hlaid.encloses nest hnest).inner _ hback).1
      · exact hlaid.apart.imp_of_mem fun {a b} ha hb hapart =>
          Nest.placed_of_apart (hlaid.encloses a ha) (hlaid.encloses b hb) hapart
    intro nest hnest other hother hne
    exact hpairs.forall hnest hother fun heq => hne (congrArg Nest.key heq)

theorem Syntax.Script.scopes_are_nested_forked : (Analysis.of forked).scopes.outline.map Nest.inner =
    [[⟨7, 9⟩, ⟨15, 24⟩, ⟨22, 24⟩], [], [⟨22, 24⟩], []] ∧ ((Analysis.of forked).scopes.map Prod.fst).Nodup := by
  obtain ⟨houtline, hdistinct, -⟩ := scopes_are_nested parse_forked
  refine ⟨?_, hdistinct⟩
  rw [houtline]
  rfl

end Datapack
