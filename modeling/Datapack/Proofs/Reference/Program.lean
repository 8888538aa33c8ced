import Datapack.Proofs.Reference.Basic

/-!
What stays true of the bodies of routines while a program is made smaller. It has to survive simplification and the
unfolding of a routine that is no root.
-/

namespace Datapack

open List

variable {P : Instr → Prop} {settings : Settings}

namespace Node

variable {nodes : List Node}

section

variable (hmerge : ∀ a b, P (.guarded a) → P (.guarded b) → P (.guarded (a ++ b)))

include hmerge

theorem All.merge {node : Node} (h : node.All P) : node.merge.All P := by
  unfold Node.merge
  split
  · exact ⟨hmerge _ _ h.1 h.2.1.1, h.2.1.2⟩
  · exact h

theorem AllIn.simplifyAll (h : AllIn P nodes) : AllIn P (Node.simplifyAll nodes) := by
  induction nodes using forest_induction with
  | nil => exact h
  | cons instr children location index rest ih ihRest =>
    rw [Node.simplifyAll, prepend]
    split
    · exact ihRest h.2
    · exact ⟨All.merge hmerge ⟨h.1.1, ih h.1.2⟩, ihRest h.2⟩

end

end Node

namespace Program

/-- Whether what is told of the body of a routine, known by its name, stays true while a program is made smaller. -/
structure Stable (settings : Settings) (R : String → List Node → Prop) : Prop where
  simplifyAll : ∀ name nodes, R name nodes → R name (Node.simplifyAll nodes)
  unfolded : settings.optimize = true → ∀ name callee body nodes unfolded, settings.isRoot callee = false →
    R callee body → R name nodes → Node.Unfolded (some callee) body nodes unfolded → R name unfolded

theorem stable_allIn (hmerge : ∀ a b, P (.guarded a) → P (.guarded b) → P (.guarded (a ++ b))) :
    Stable settings fun _ nodes => Node.AllIn P nodes :=
  ⟨fun _ _ h => h.simplifyAll hmerge, fun _ _ _ _ _ _ _ hbody h hunfolded => h.unfolded hunfolded hbody⟩

variable {R : String → List Node → Prop} {p q : Program} {span : Span}

section

variable (hR : Stable settings R)

include hR

theorem Stable.simplify (h : ∀ r ∈ p.routines, R r.name r.body) : ∀ r ∈ p.simplify.routines, R r.name r.body := by
  intro r hr
  obtain ⟨old, hold, rfl⟩ := mem_map.mp hr
  exact old.body_simplify ▸ hR.simplifyAll _ _ (h old hold)

theorem Stable.reduced (hoptimize : settings.optimize = true) (hnames : (p.routines.map (·.name)).Nodup)
    (h : ∀ r ∈ p.routines, R r.name r.body) :
    ∀ name r, (p.reduced settings).routine? name = some r → r.dropped = false → R name r.body := by
  refine runSteps_induction
    (P := fun q => ∀ name r, q.routine? name = some r → r.dropped = false → R name r.body) ?_ _
    (distinct_dropUnreachable settings hnames) ?_
  · intro p callee step hp _ hcallee hkept _ hroot _ hunfolds name r' hr' hkept'
    obtain ⟨⟨r, hr, hlive⟩, hne⟩ := hunfolds.isLive_iff.mp ⟨r', hr', hkept'⟩
    obtain ⟨r'', hr'', -, hunfolded⟩ := hunfolds.kept name r hne hr hlive
    obtain rfl : r'' = r' := Option.some.inj (hr''.symm.trans hr')
    exact hR.unfolded hoptimize name _ _ _ _ hroot (hp _ _ hcallee hkept) (hp name r hr hlive) hunfolded
  · intro name r hr hkept
    have hname := name_of_routine? hr
    have hmem : r ∈ p.routines.map fun r =>
        if (p.reachable settings).contains r.name then r else { r with dropped := true } :=
      mem_of_find?_eq_some hr
    obtain ⟨old, hold, rfl⟩ := mem_map.mp hmem
    split at hkept
    next hreached =>
      rw [if_pos hreached] at hname ⊢
      exact hname ▸ h old hold
    next => cases hkept

theorem Stable.optimize (hp : p.Ready) (hq : p.optimize settings span = .ok q)
    (h : ∀ r ∈ p.routines, R r.name r.body) : ∀ r ∈ q.routines, R r.name r.body := by
  rw [Program.optimize] at hq
  split at hq
  next hoptimize =>
    rw [condense_eq_reduced settings hp.simplify.entry] at hq
    cases hverify : (p.simplify.reduced settings).verify with
    | error error =>
      rw [hverify] at hq
      cases hq
    | ok _ =>
      rw [hverify] at hq
      cases hq
      refine simplify hR fun r hr => ?_
      have hnames := (names_reduced settings hp.simplify.distinct).symm ▸ hp.simplify.distinct
      obtain ⟨hfound, hkept⟩ := (mem_live hnames).mp hr
      exact hR.reduced hoptimize hp.simplify.distinct (hR.simplify h) _ r hfound hkept
  next => exact Except.ok.inj hq ▸ hR.simplify h

end

theorem Ready.names_optimize (hp : p.Ready) (hq : p.optimize settings span = .ok q) :
    (q.routines.map (·.name)).Nodup ∧
      ∀ r ∈ p.routines, settings.optimize = false ∨ settings.isRoot r.name = true → ∃ r' ∈ q.routines, r'.name = r.name := by
  have hnames : ∀ p : Program, p.simplify.routines.map (·.name) = p.routines.map (·.name) := fun p => by
    rw [Program.simplify, map_map]
    rfl
  rw [Program.optimize] at hq
  split at hq
  next hoptimize =>
    rw [condense_eq_reduced settings hp.simplify.entry] at hq
    have hdistinct : ((p.simplify.reduced settings).routines.map (·.name)).Nodup :=
      (names_reduced settings hp.simplify.distinct).symm ▸ hp.simplify.distinct
    cases hverify : (p.simplify.reduced settings).verify with
    | error error =>
      rw [hverify] at hq
      cases hq
    | ok _ =>
      rw [hverify] at hq
      cases hq
      rw [hnames]
      refine ⟨hdistinct.sublist (filter_sublist.map _), fun r hr hroot => ?_⟩
      have hroot : settings.isRoot r.simplify.name = true := hroot.resolve_left (by simp [hoptimize])
      have hlive := isLive_reduced_of_isRoot settings hp.simplify.distinct hp.simplify.kept
        (mem_map.mpr ⟨r, hr, rfl⟩) hroot
      obtain ⟨r', hr', hkept⟩ := hlive
      have hname := name_of_routine? hr'
      refine ⟨r'.simplify, mem_map.mpr ⟨r', ?_, rfl⟩, hname⟩
      exact (mem_live hdistinct).mpr ⟨hname.symm ▸ hr', hkept⟩
  next =>
    cases hq
    exact ⟨hp.simplify.distinct, fun r hr _ => ⟨r.simplify, mem_map.mpr ⟨r, hr, rfl⟩, rfl⟩⟩

end Program

namespace Environment

def optimized (env : Environment) (script : Syntax.Script) : Except CompileError Program :=
  match env.compile script with
  | .ok p => p.optimize env.settings script.span
  | .error error => .error error

theorem exists_of_optimized {env : Environment} {script : Syntax.Script} {α : Type} {view : Program → α} {seen : α}
    (h : (env.optimized script).map view = .ok seen) : ∃ p q,
      env.compile script = .ok p ∧ p.optimize env.settings script.span = .ok q ∧ view q = seen := by
  unfold optimized at h
  split at h
  next p hp =>
    cases hq : p.optimize env.settings script.span with
    | ok q =>
      rw [hq] at h
      exact ⟨p, q, hp, hq, Except.ok.inj h⟩
    | error error =>
      rw [hq] at h
      cases h
  next => cases h

end Environment

end Datapack
