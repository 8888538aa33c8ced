import Datapack.Proofs.Unfolding
import Mathlib.Data.List.Flatten

/-!
Simplification across routines keeps what the roots of a program do: dropping what no root reaches changes
no run of a root, every step after that unfolds a routine, and simplification keeps every run. A program in
which every call leads somewhere stays so, and is never refused.
-/

namespace Datapack

open List

namespace Program

variable {p : Program} {r callee : Routine} {name : String} {q : Program} {body : Node} {caller : Routine} {step : Step}
  {settings : Settings}

section

variable (hp : (p.routines.map (·.name)).Nodup)

include hp

theorem routine?_eq_some (h : r ∈ p.routines) : p.routine? r.name = some r := by
  obtain ⟨routines, nextIndex⟩ := p
  simp only [routine?] at h hp ⊢
  induction routines with
  | nil => simp at h
  | cons first rest ih =>
    simp only [map_cons, nodup_cons] at hp
    rcases mem_cons.mp h with rfl | h
    · simp
    · have hne : first.name ≠ r.name := by
        intro heq
        exact hp.1 (heq ▸ mem_map_of_mem h)
      rw [find?_cons_of_neg (by simpa using hne)]
      exact ih hp.2 h

theorem mem_live : r ∈ p.live ↔ p.routine? r.name = some r ∧ r.dropped = false := by
  simp only [live, mem_filter, Bool.not_eq_eq_eq_not, Bool.not_true]
  refine and_congr_left fun _ => ⟨routine?_eq_some hp, fun h => ?_⟩
  exact mem_of_find?_eq_some h

theorem isLive_iff_mem : p.IsLive name ↔ ∃ r ∈ p.live, r.name = name := by
  constructor
  · rintro ⟨r, hr, hlive⟩
    have hname := name_of_routine? hr
    exact ⟨r, (mem_live hp).mpr ⟨hname.symm ▸ hr, hlive⟩, hname⟩
  · rintro ⟨r, hr, rfl⟩
    exact ⟨r, (mem_live hp).mp hr⟩

end

section

variable (f : Routine → Routine)

include f

section

variable (hf : ∀ r, (f r).name = r.name)

include hf

theorem find?_map_name (name : String) (routines : List Routine) :
    (routines.map f).find? (·.name == name) = (routines.find? (·.name == name)).map f := by
  rw [find?_map]
  congr 2
  funext r
  simp [hf]

theorem find?_modifyFirst (name other : String) (routines : List Routine) :
    (modifyFirst name f routines).find? (·.name == other) =
      if other = name then (routines.find? (·.name == other)).map f
      else routines.find? (·.name == other) := by
  induction routines with
  | nil => simp [modifyFirst]
  | cons r rest ih =>
    rw [modifyFirst]
    by_cases hname : r.name = name
    · by_cases hother : other = name
      · simp [hname, hf, hother]
      · have hne : r.name ≠ other := fun h => hother (h.symm.trans hname)
        simp [hname, hf, hother, Ne.symm hother]
    · by_cases hr : r.name = other
      · have hne : other ≠ name := fun heq => hname (hr.trans heq)
        simp [hr, hne]
      · rw [if_neg hname, find?_cons_of_neg (by simpa using hr), ih,
          find?_cons_of_neg (by simpa using hr)]

theorem map_name_modifyFirst (name : String)
    (routines : List Routine) : (modifyFirst name f routines).map (·.name) = routines.map (·.name) := by
  induction routines with
  | nil => rfl
  | cons r rest ih =>
    rw [modifyFirst]
    split
    · simp [hf]
    · simp [ih]

end

end

theorem routine?_drop (p : Program) (name other : String) :
    (p.drop name).routine? other =
      if other = name then (p.routine? other).map fun r => { r with dropped := true }
      else p.routine? other :=
  find?_modifyFirst (fun r => { r with dropped := true }) (fun _ => rfl) name other p.routines

theorem names_drop (p : Program) (name : String) : (p.drop name).routines.map (·.name) = p.routines.map (·.name) :=
  map_name_modifyFirst (fun r => { r with dropped := true }) (fun _ => rfl) name p.routines

theorem not_isLive_drop (p : Program) (name : String) : ¬ (p.drop name).IsLive name := by
  rintro ⟨r, hr, hlive⟩
  rw [routine?_drop, if_pos rfl] at hr
  obtain ⟨old, -, rfl⟩ := Option.map_eq_some_iff.mp hr
  simp at hlive

theorem unfolds_drop (hnames : q.routines.map (·.name) = p.routines.map (·.name))
    (hreplaced : ∀ name r, name ≠ callee.name → p.routine? name = some r →
      ∃ r', q.routine? name = some r' ∧ r'.dropped = r.dropped ∧
        (r.dropped = false → Node.Unfolded (some callee.name) callee.body r.body r'.body)) :
    p.Unfolds (q.drop callee.name) callee where
  names := (names_drop q callee.name).trans hnames
  gone := not_isLive_drop q callee.name
  live := by
    rintro name ⟨r', hr', hlive⟩
    by_cases hne : name = callee.name
    · subst hne
      exact absurd ⟨r', hr', hlive⟩ (not_isLive_drop q callee.name)
    · rw [routine?_drop, if_neg hne] at hr'
      have hmem : name ∈ p.routines.map (·.name) := by
        rw [← hnames, ← name_of_routine? hr']
        exact mem_map_of_mem (mem_of_find?_eq_some hr')
      obtain ⟨r0, hr0, hname⟩ := mem_map.mp hmem
      obtain ⟨r, hr⟩ : ∃ r, p.routine? name = some r := by
        cases hfind : p.routine? name with
        | some r => exact ⟨r, rfl⟩
        | none => exact absurd hname (by simpa using find?_eq_none.mp hfind r0 hr0)
      obtain ⟨r'', hr'', hdropped, -⟩ := hreplaced name r hne hr
      obtain rfl : r'' = r' := Option.some.inj (hr''.symm.trans hr')
      exact ⟨r, hr, hdropped ▸ hlive⟩
  kept := by
    intro name r hne hr hlive
    obtain ⟨r', hr', hdropped, hunfolded⟩ := hreplaced name r hne hr
    refine ⟨r', ?_, hdropped.trans hlive, hunfolded hlive⟩
    rw [routine?_drop, if_neg hne, hr']

theorem unfolds_removeEmpty (p : Program) (hbody : callee.body = []) :
    p.Unfolds (p.apply (.removeEmpty callee.name)) callee := by
  let replaced (r : Routine) : Routine :=
    if r.dropped then r else { r with body := Node.withoutCallsAll callee.name r.body }
  have hname : ∀ r, (replaced r).name = r.name := by
    intro r
    simp only [replaced]
    split <;> rfl
  refine unfolds_drop (q := { p with routines := p.routines.map replaced }) ?_ ?_
  · simp [hname]
  · intro name r _ hr
    refine ⟨replaced r, ?_, ?_, ?_⟩
    · exact (find?_map_name replaced hname name p.routines).trans (congrArg (Option.map replaced) hr)
    · simp only [replaced]
      split <;> rfl
    · intro hlive
      have hr' : replaced r = { r with body := Node.withoutCallsAll callee.name r.body } := by
        simp [replaced, hlive]
      rw [hr', hbody]
      exact .removed callee.name r.body

/-- A routine with numbered copies of a body put into it, if it is live and not the one that the body comes from. -/
def inlineOne (name : String) (body : Node) (next : Nat) (r : Routine) : Nat × Routine :=
  if !r.dropped && r.name != name then
    ((Node.inlineCallsAll name body next r.body).1, { r with body := (Node.inlineCallsAll name body next r.body).2 })
  else (next, r)

theorem inlineInto_cons (name : String) (body : Node) (next : Nat) (r : Routine) (rest : List Routine) :
    inlineInto name body next (r :: rest) =
      ((inlineInto name body (inlineOne name body next r).1 rest).1,
        (inlineOne name body next r).2 :: (inlineInto name body (inlineOne name body next r).1 rest).2) := rfl

theorem name_inlineOne (name : String) (body : Node) (next : Nat) (r : Routine) :
    (inlineOne name body next r).2.name = r.name := by
  unfold inlineOne
  split <;> rfl

theorem find?_inlineInto (name : String) (body : Node) (other : String) (routines : List Routine) (next : Nat)
    (hr : routines.find? (·.name == other) = some r) :
    ∃ start, (inlineInto name body next routines).2.find? (·.name == other) =
      some (inlineOne name body start r).2 := by
  induction routines generalizing next with
  | nil => simp at hr
  | cons first rest ih =>
    rw [inlineInto_cons]
    by_cases hfirst : first.name = other
    · obtain rfl : first = r := by simpa [hfirst] using hr
      exact ⟨next, find?_cons_of_pos (by simpa [name_inlineOne] using hfirst)⟩
    · rw [find?_cons_of_neg (by simpa using hfirst)] at hr
      rw [find?_cons_of_neg (by simpa [name_inlineOne] using hfirst)]
      exact ih _ hr

theorem map_name_inlineInto (name : String) (body : Node) (routines : List Routine) (next : Nat) :
    (inlineInto name body next routines).2.map (·.name) = routines.map (·.name) := by
  induction routines generalizing next with
  | nil => rfl
  | cons first rest ih => rw [inlineInto_cons, map_cons, map_cons, ih, name_inlineOne]

theorem apply_inlineSingle (hcallee : p.routine? callee.name = some callee) (hbody : callee.body = [body]) :
    p.apply (.inlineSingle callee.name) =
      drop callee.name { p with
        routines := (inlineInto callee.name body p.nextIndex p.routines).2
        nextIndex := (inlineInto callee.name body p.nextIndex p.routines).1 } := by
  obtain ⟨name, nodes, dropped, location, index⟩ := callee
  subst hbody
  simp only [apply, hcallee]

theorem unfolds_inlineSingle (hcallee : p.routine? callee.name = some callee)
    (hbody : callee.body = [body]) : p.Unfolds (p.apply (.inlineSingle callee.name)) callee := by
  rw [apply_inlineSingle hcallee hbody]
  refine unfolds_drop (map_name_inlineInto callee.name body p.routines p.nextIndex) ?_
  intro name r hne hr
  obtain ⟨start, hfind⟩ := find?_inlineInto callee.name body name p.routines p.nextIndex hr
  refine ⟨_, hfind, ?_, fun hlive => ?_⟩
  · unfold inlineOne
    split <;> rfl
  · have hname : r.name ≠ callee.name := name_of_routine? hr ▸ hne
    simp only [inlineOne, hlive, Bool.not_false, bne_iff_ne.mpr hname, Bool.and_self, if_true, hbody]
    exact .inlined callee.name body r.body start

theorem count_calls_of_callCount (hcount : p.callCount name = 1) (hcaller : caller ∈ p.live)
    (hcalls : name ∈ caller.calls) : caller.calls.count name = 1 ∧ ∀ r ∈ p.live, r ≠ caller → name ∉ r.calls := by
  obtain ⟨before, after, hlive⟩ := append_of_mem hcaller
  have hpos : 0 < caller.calls.count name := count_pos_iff.mpr hcalls
  simp only [callCount, hlive, flatMap_append, flatMap_cons, count_append] at hcount
  refine ⟨by omega, fun r hr hne hmem => ?_⟩
  rw [hlive] at hr
  have hother : r ∈ before ∨ r ∈ after := by
    rcases mem_append.mp hr with h | h
    · exact .inl h
    · exact .inr ((mem_cons.mp h).resolve_left hne)
  have hcounted : ∀ routines : List Routine, r ∈ routines →
      0 < (routines.flatMap (·.calls)).count name := by
    intro routines h
    exact count_pos_iff.mpr (mem_flatMap.mpr ⟨r, h, hmem⟩)
  rcases hother with h | h
  · have := hcounted before h
    omega
  · have := hcounted after h
    omega

theorem apply_splice (hcallee : p.routine? callee.name = some callee) (caller : String) :
    p.apply (.splice callee.name caller) = drop callee.name { p with
      routines := modifyFirst caller
        (fun r => { r with body := Node.spliceCall callee.name callee.body r.body }) p.routines } := by
  obtain ⟨name, nodes, dropped, location, index⟩ := callee
  simp only [apply, hcallee]

theorem unfolds_splice (hp : (p.routines.map (·.name)).Nodup)
    (hcallee : p.routine? callee.name = some callee) (hcount : p.callCount callee.name = 1)
    (hcaller : caller ∈ p.live) (hdirect : caller.body.any (·.isCallOf callee.name) = true) :
    p.Unfolds (p.apply (.splice callee.name caller.name)) callee := by
  let spliced (r : Routine) : Routine := { r with body := Node.spliceCall callee.name callee.body r.body }
  rw [apply_splice hcallee]
  refine unfolds_drop (map_name_modifyFirst spliced (fun _ => rfl) caller.name p.routines) ?_
  intro name r _ hr
  have hfind := find?_modifyFirst spliced (fun _ => rfl) caller.name name p.routines
  obtain ⟨honce, hothers⟩ := count_calls_of_callCount hcount hcaller (Node.mem_callsAll_of_any hdirect)
  by_cases hname : name = caller.name
  · subst hname
    obtain rfl : r = caller := Option.some.inj (hr.symm.trans ((mem_live hp).mp hcaller).1)
    rw [if_pos rfl] at hfind
    exact ⟨spliced r, hfind.trans (congrArg (Option.map spliced) hr), rfl, fun _ => .spliced honce hdirect⟩
  · rw [if_neg hname] at hfind
    refine ⟨r, hfind.trans hr, rfl, fun hlive => .untouched ?_⟩
    have hrname := name_of_routine? hr
    rintro _ ⟨⟩
    refine hothers r ((mem_live hp).mpr ⟨hrname.symm ▸ hr, hlive⟩) ?_
    rintro rfl
    exact hname hrname.symm

inductive StepOf (p : Program) (callee : Routine) : Step → Prop
  | removeEmpty : callee.body = [] → StepOf p callee (.removeEmpty callee.name)
  | inlineSingle {body : Node} : callee.body = [body] → StepOf p callee (.inlineSingle callee.name)
  | splice {caller : Routine} : caller ∈ p.live → caller.body.any (·.isCallOf callee.name) = true →
      p.callCount callee.name = 1 → StepOf p callee (.splice callee.name caller.name)

theorem stepOf_of_stepFor? (h : p.stepFor? callee = some step) : callee.name ∉ callee.calls ∧ p.StepOf callee step := by
  unfold stepFor? at h
  split at h
  next hempty =>
    cases h
    have hbody : callee.body = [] := by simpa using hempty
    exact ⟨by simp [Routine.calls, hbody, Node.callsAll], .removeEmpty hbody⟩
  next =>
    split at h
    next => cases h
    next hself =>
      refine ⟨by simpa using hself, ?_⟩
      split at h
      next hone =>
        cases h
        obtain ⟨body, hbody⟩ := length_eq_one_iff.mp hone
        exact .inlineSingle hbody
      next =>
        split at h
        next hcount =>
          split at h
          next caller hcaller =>
            cases h
            exact .splice (mem_of_find?_eq_some hcaller) (by simpa using find?_some hcaller) hcount
          next => cases h
        next => cases h

theorem stepOf_of_nextStep? (hp : (p.routines.map (·.name)).Nodup) (h : p.nextStep? settings = some step) :
    ∃ callee, p.routine? callee.name = some callee ∧ callee.dropped = false ∧ callee.name ∉ callee.calls ∧
      settings.isRoot callee.name = false ∧ p.StepOf callee step := by
  obtain ⟨callee, hmem, hstep⟩ := exists_of_findSome?_eq_some h
  obtain ⟨hlive, hroot⟩ := mem_filter.mp hmem
  obtain ⟨hcallee, hkept⟩ := (mem_live hp).mp hlive
  obtain ⟨hself, hstep⟩ := stepOf_of_stepFor? hstep
  exact ⟨callee, hcallee, hkept, hself, by simpa using hroot, hstep⟩

theorem StepOf.unfolds (hp : (p.routines.map (·.name)).Nodup) (hcallee : p.routine? callee.name = some callee)
    (h : p.StepOf callee step) : p.Unfolds (p.apply step) callee := by
  cases h with
  | removeEmpty hbody => exact unfolds_removeEmpty p hbody
  | inlineSingle hbody => exact unfolds_inlineSingle hcallee hbody
  | splice hcaller hdirect hcount => exact unfolds_splice hp hcallee hcount hcaller hdirect

theorem runSteps_induction {P : Program → Prop}
    (hstep : ∀ p callee step, P p → (p.routines.map (·.name)).Nodup → p.routine? callee.name = some callee →
      callee.dropped = false → callee.name ∉ callee.calls → settings.isRoot callee.name = false →
        p.StepOf callee step → p.Unfolds (p.apply step) callee → P (p.apply step))
    (bound : Nat) (hnames : (p.routines.map (·.name)).Nodup) (hp : P p) : P (p.runSteps settings bound) := by
  induction bound generalizing p with
  | zero => exact hp
  | succ bound ih =>
    rw [runSteps]
    split
    next step hnext =>
      obtain ⟨callee, hcallee, hlive, hself, hroot, hstepOf⟩ := stepOf_of_nextStep? hnames hnext
      have hunfolds := hstepOf.unfolds hnames hcallee
      refine ih (hunfolds.names ▸ hnames) ?_
      exact hstep p callee step hp hnames hcallee hlive hself hroot hstepOf hunfolds
    next => exact hp

theorem runSteps_preserves (settings : Settings) (bound : Nat) (hp : p.Linked) :
    (p.runSteps settings bound).Linked ∧
      (∀ name, settings.isRoot name = true → p.IsLive name → (p.runSteps settings bound).IsLive name) ∧
      ∀ name, (p.runSteps settings bound).IsLive name → p.IsLive name ∧
        ∀ {World : Type} (engine : Engine World) m m',
          (p.runSteps settings bound).Ends engine name m m' ↔ p.Ends engine name m m' := by
  refine runSteps_induction (P := fun q => q.Linked ∧
    (∀ name, settings.isRoot name = true → p.IsLive name → q.IsLive name) ∧
      ∀ name, q.IsLive name → p.IsLive name ∧ ∀ {World : Type} (engine : Engine World) m m',
        q.Ends engine name m m' ↔ p.Ends engine name m m') ?_ bound hp.distinct
    ⟨hp, fun _ _ h => h, fun _ h => ⟨h, fun _ _ _ => Iff.rfl⟩⟩
  intro q callee step ⟨hq, hroots, hends⟩ _ hcallee hlive hself hroot _ hunfolds
  refine ⟨hunfolds.linked hq hcallee hlive hself, fun name hname h => ?_, fun name h => ?_⟩
  · refine hunfolds.isLive_iff.mpr ⟨hroots name hname h, ?_⟩
    rintro rfl
    rw [hname] at hroot
    exact Bool.noConfusion hroot
  · obtain ⟨hname, hiff⟩ := hends name (hunfolds.isLive_iff.mp h).1
    exact ⟨hname, fun engine m m' => (hunfolds.ends_iff hq hcallee hlive hself h m m').trans (hiff engine m m')⟩

def callees (p : Program) (name : String) : List String :=
  match p.routine? name with
  | some r => r.calls
  | none => []

def unreachedCalls (p : Program) (reached : List String) : Nat :=
  ((p.routines.filter fun r => !reached.contains r.name).flatMap (·.calls)).length

theorem unreachedCalls_cons (p : Program) {reached : List String} (hname : reached.contains name = false) :
    (p.callees name).length + p.unreachedCalls (name :: reached) ≤ p.unreachedCalls reached := by
  -- of the routines not reached before, those of this name are now reached and the others still are not
  have hsplit := (filter_append_perm (fun r : Routine => r.name != name)
    (p.routines.filter fun r => !reached.contains r.name)).flatMap_right (·.calls)
  have hothers : (p.routines.filter fun r => !reached.contains r.name).filter
      (fun r : Routine => r.name != name) =
        p.routines.filter fun r => !(name :: reached).contains r.name := by
    rw [filter_filter]
    congr 1
    funext other
    simp only [contains_cons, Bool.not_or]
    rfl
  have hlength := hsplit.length_eq
  rw [flatMap_append, length_append, hothers] at hlength
  have hcallees : (p.callees name).length ≤
      (((p.routines.filter fun r => !reached.contains r.name).filter
        (fun r : Routine => !(r.name != name))).flatMap (·.calls)).length := by
    cases hr : p.routine? name with
    | none => simp [callees, hr]
    | some r =>
      have hmem : r ∈ (p.routines.filter fun r => !reached.contains r.name).filter
          (fun r : Routine => !(r.name != name)) := by
        refine mem_filter.mpr ⟨mem_filter.mpr ⟨mem_of_find?_eq_some hr, ?_⟩, ?_⟩
        · rw [name_of_routine? hr, hname]
          rfl
        · simp [name_of_routine? hr]
      have hsub := ((singleton_sublist.mpr hmem).flatMap (·.calls)).length_le
      simpa [callees, hr] using hsub
  unfold unreachedCalls
  omega

/-- The names that are reached include those reached and pending at the start, and everything that a
reached routine calls, if the bound covers what is pending and the calls not seen so far. -/
theorem reach_closed (p : Program) (bound : Nat) (pending reached : List String)
    (hbound : pending.length + p.unreachedCalls reached ≤ bound)
    (hreached : ∀ name ∈ reached, ∀ callee ∈ p.callees name, callee ∈ pending ++ reached) :
    (∀ name ∈ pending ++ reached, name ∈ p.reach bound pending reached) ∧
      ∀ name ∈ p.reach bound pending reached, ∀ callee ∈ p.callees name,
        callee ∈ p.reach bound pending reached := by
  induction bound generalizing pending reached with
  | zero =>
    obtain rfl : pending = [] := length_eq_zero_iff.mp (by omega)
    exact ⟨fun name hname => hname, hreached⟩
  | succ bound ih =>
    cases pending with
    | nil => exact ⟨fun name hname => hname, hreached⟩
    | cons name pending =>
      rw [length_cons] at hbound
      by_cases hname : reached.contains name = true
      · have hmem : name ∈ reached := by simpa using hname
        have hsame : p.reach (bound + 1) (name :: pending) reached = p.reach bound pending reached := by
          rw [reach, if_pos hname]
        have hdrop : ∀ other ∈ name :: pending ++ reached, other ∈ pending ++ reached := by
          intro other hother
          rcases mem_cons.mp hother with rfl | hother
          · exact mem_append_right _ hmem
          · exact hother
        obtain ⟨hall, hclosed⟩ := ih pending reached (by omega)
          fun other hother callee hcallee => hdrop callee (hreached other hother callee hcallee)
        rw [hsame]
        exact ⟨fun other hother => hall other (hdrop other hother), hclosed⟩
      · have hstep : p.reach (bound + 1) (name :: pending) reached =
            p.reach bound (p.callees name ++ pending) (name :: reached) := by
          rw [reach, if_neg hname]
          rfl
        have hunreached : (p.callees name).length + p.unreachedCalls (name :: reached) ≤
            p.unreachedCalls reached := p.unreachedCalls_cons (by simpa using hname)
        have hkeep : ∀ other ∈ name :: pending ++ reached,
            other ∈ p.callees name ++ pending ++ name :: reached := by
          intro other hother
          simp only [cons_append, mem_cons, mem_append] at hother ⊢
          rcases hother with h | h | h
          · exact .inr (.inl h)
          · exact .inl (.inr h)
          · exact .inr (.inr h)
        obtain ⟨hall, hclosed⟩ := ih (p.callees name ++ pending) (name :: reached)
          (by rw [length_append]; omega) (by
            intro other hother callee hcallee
            rcases mem_cons.mp hother with rfl | hother
            · exact mem_append_left _ (mem_append_left _ hcallee)
            · exact hkeep callee (hreached other hother callee hcallee))
        rw [hstep]
        exact ⟨fun other hother => hall other (hkeep other hother), hclosed⟩

theorem reachable_closed (settings : Settings) (p : Program) :
    (∀ r ∈ p.routines, settings.isRoot r.name = true → r.name ∈ p.reachable settings) ∧
      ∀ name ∈ p.reachable settings, ∀ callee ∈ p.callees name, callee ∈ p.reachable settings := by
  have hunreached : p.unreachedCalls [] = (p.routines.flatMap (·.calls)).length := by
    rw [unreachedCalls, filter_eq_self.mpr (by simp)]
  obtain ⟨hall, hclosed⟩ := reach_closed p
    (((p.routines.map (·.name)).filter settings.isRoot).length + (p.routines.flatMap (·.calls)).length)
    ((p.routines.map (·.name)).filter settings.isRoot) [] (by omega) (by simp)
  refine ⟨fun r hr hroot => hall r.name ?_, hclosed⟩
  rw [append_nil]
  exact mem_filter.mpr ⟨mem_map_of_mem hr, hroot⟩

theorem routine?_dropUnreachable (settings : Settings) (p : Program) (name : String) :
    (p.dropUnreachable settings).routine? name =
      (p.routine? name).map fun r =>
        if (p.reachable settings).contains r.name then r else { r with dropped := true } := by
  refine find?_map_name _ (fun r => ?_) name p.routines
  split <;> rfl

theorem names_dropUnreachable (settings : Settings) (p : Program) :
    (p.dropUnreachable settings).routines.map (·.name) = p.routines.map (·.name) := by
  simp only [dropUnreachable, map_map]
  refine map_congr_left fun r _ => ?_
  simp only [Function.comp_apply]
  split <;> rfl

theorem isLive_dropUnreachable :
    (p.dropUnreachable settings).IsLive name ↔ p.IsLive name ∧ name ∈ p.reachable settings := by
  constructor
  · rintro ⟨r, hr, hlive⟩
    rw [routine?_dropUnreachable] at hr
    obtain ⟨old, hold, rfl⟩ := Option.map_eq_some_iff.mp hr
    have hname := name_of_routine? hold
    split at hlive
    · rename_i hmem
      refine ⟨⟨old, hold, hlive⟩, ?_⟩
      simpa [hname] using hmem
    · simp at hlive
  · rintro ⟨⟨r, hr, hlive⟩, hmem⟩
    refine ⟨r, ?_, hlive⟩
    rw [routine?_dropUnreachable, hr, Option.map_some, name_of_routine? hr]
    simp [hmem]

theorem linked_dropUnreachable (settings : Settings) (hp : p.Linked) : (p.dropUnreachable settings).Linked := by
  refine ⟨(names_dropUnreachable settings p).symm ▸ hp.distinct, ?_⟩
  intro name r hr hlive callee hcallee
  obtain ⟨⟨old, hold, holdLive⟩, hmem⟩ := isLive_dropUnreachable.mp ⟨r, hr, hlive⟩
  rw [routine?_dropUnreachable, hold, Option.map_some, name_of_routine? hold,
    if_pos (by simpa using hmem)] at hr
  obtain rfl := Option.some.inj hr
  refine isLive_dropUnreachable.mpr ⟨hp.closed name old hold holdLive callee hcallee, ?_⟩
  exact (reachable_closed settings p).2 name hmem callee (by simpa [callees, hold] using hcallee)

variable {World : Type}

theorem run_congr (engine : Engine World) (h : ∀ name, (q.routine? name).map (·.body) = (p.routine? name).map (·.body))
    (depth : Nat) : q.run engine depth = p.run engine depth := by
  induction depth with
  | zero => rfl
  | succ depth ih =>
    funext name m
    have hname := h name
    rw [run, run, ih]
    cases hq : q.routine? name with
    | none =>
      rw [hq, Option.map_none] at hname
      rw [Option.map_eq_none_iff.mp hname.symm]
    | some r =>
      rw [hq, Option.map_some] at hname
      obtain ⟨r', hr', hbody⟩ := Option.map_eq_some_iff.mp hname.symm
      rw [hr']
      simp only [hbody]

theorem run_dropUnreachable (settings : Settings) (engine : Engine World) (p : Program) (depth : Nat) :
    (p.dropUnreachable settings).run engine depth = p.run engine depth := by
  refine run_congr engine (fun name => ?_) depth
  rw [routine?_dropUnreachable, Option.map_map]
  congr 1
  funext r
  simp only [Function.comp_apply]
  split <;> rfl

theorem routine?_simplify (p : Program) (name : String) :
    p.simplify.routine? name = (p.routine? name).map Routine.simplify :=
  find?_map_name Routine.simplify (fun _ => rfl) name p.routines

theorem run_simplify (engine : Engine World) (p : Program) (depth : Nat) :
    p.simplify.run engine depth = p.run engine depth := by
  induction depth with
  | zero => rfl
  | succ depth ih =>
    funext name m
    rw [run, run, routine?_simplify, ih]
    cases p.routine? name with
    | none => rfl
    | some r =>
      dsimp only [Option.map_some]
      rw [r.body_simplify, engine.execAll_simplifyAll]

theorem routine?_live (hp : (p.routines.map (·.name)).Nodup) (hr : p.routine? name = some r)
    (hlive : r.dropped = false) : routine? { p with routines := p.live } name = some r := by
  have hdistinct : (p.live.map (·.name)).Nodup := hp.sublist (filter_sublist.map _)
  have hname := name_of_routine? hr
  rw [← hname]
  exact routine?_eq_some (p := { p with routines := p.live }) hdistinct
    ((mem_live hp).mpr ⟨hname.symm ▸ hr, hlive⟩)

theorem run_live (engine : Engine World) (hp : p.Linked) (depth : Nat) :
    ∀ name, p.IsLive name → ∀ m,
      Program.run engine { p with routines := p.live } depth name m = p.run engine depth name m := by
  induction depth with
  | zero => exact fun _ _ _ => rfl
  | succ depth ih =>
    rintro name ⟨r, hr, hlive⟩ m
    rw [run_succ engine _ (routine?_live hp.distinct hr hlive), run_succ engine p hr]
    exact engine.execAll_congr _
      (fun callee hcallee n => ih callee (hp.closed name r hr hlive callee hcallee) n) m

theorem verify_cases (hp : (p.routines.map (·.name)).Nodup) (hmain : p.IsLive "main") :
    (p.verify = .ok () ∧ ∀ r ∈ p.live, ∀ callee ∈ r.calls, p.IsLive callee) ∨
      ∃ r ∈ p.live, ∃ callee ∈ r.calls,
        ¬ p.IsLive callee ∧ p.verify = .error (.danglingCall r.name callee) := by
  have hnames : ∀ name, (p.live.map (·.name)).contains name = true ↔ p.IsLive name := by
    intro name
    rw [isLive_iff_mem hp, contains_iff_mem, mem_map]
  rw [verify, if_pos ((hnames "main").mpr hmain)]
  cases hdangling : p.dangling? with
  | none =>
    refine .inl ⟨rfl, fun r hr callee hcallee => (hnames callee).mp ?_⟩
    have hnone := findSome?_eq_none_iff.mp hdangling r hr
    split at hnone
    next => cases hnone
    next hfind => simpa using find?_eq_none.mp hfind callee hcallee
  | some error =>
    obtain ⟨r, hr, hfound⟩ := exists_of_findSome?_eq_some hdangling
    split at hfound
    next callee hfind =>
      cases hfound
      refine .inr ⟨r, hr, callee, mem_of_find?_eq_some hfind, fun hlive => ?_, rfl⟩
      have hnot := find?_some hfind
      simp only [(hnames callee).mpr hlive, Bool.not_true, Bool.false_eq_true] at hnot
    next => cases hfound

theorem verify_of_linked (hp : p.Linked) (hmain : p.IsLive "main") : p.verify = .ok () := by
  obtain ⟨hok, -⟩ | ⟨r, hr, callee, hcallee, hnot, -⟩ := verify_cases hp.distinct hmain
  · exact hok
  · obtain ⟨hfind, hlive⟩ := (mem_live hp.distinct).mp hr
    exact absurd (hp.closed r.name r hfind hlive callee hcallee) hnot

/-- A program is ready for simplification across its routines if no two routines have the same name, none
is dropped, there is an entry, and every call leads to a routine. -/
structure Ready (p : Program) : Prop where
  distinct : (p.routines.map (·.name)).Nodup
  kept : ∀ r ∈ p.routines, r.dropped = false
  entry : ∃ r ∈ p.routines, r.name = "main"
  closed : ∀ r ∈ p.routines, ∀ callee ∈ r.calls, ∃ s ∈ p.routines, s.name = callee

theorem Ready.isLive (hp : p.Ready) (hr : r ∈ p.routines) : p.IsLive r.name :=
  ⟨r, routine?_eq_some hp.distinct hr, hp.kept r hr⟩

theorem Ready.linked (hp : p.Ready) : p.Linked := by
  refine ⟨hp.distinct, fun name r hr _ callee hcallee => ?_⟩
  obtain ⟨s, hs, rfl⟩ := hp.closed r (mem_of_find?_eq_some hr) callee hcallee
  exact hp.isLive hs

theorem condense_eq (settings : Settings) (hp : p.Ready) :
    ∃ q : Program, q.Linked ∧
      p.condense settings = (.ok (), simplify { q with routines := q.live }) ∧
      ∀ r ∈ p.routines, settings.isRoot r.name = true → q.IsLive r.name ∧
        ∀ {World : Type} (engine : Engine World) m m',
          q.Ends engine r.name m m' ↔ p.Ends engine r.name m m' := by
  obtain ⟨hlinked, hroots, hends⟩ := runSteps_preserves settings
    (p.dropUnreachable settings).stepBound (linked_dropUnreachable settings hp.linked)
  have hlive : ∀ r ∈ p.routines, settings.isRoot r.name = true →
      (runSteps settings (p.dropUnreachable settings).stepBound
        (p.dropUnreachable settings)).IsLive r.name := by
    intro r hr hroot
    refine hroots r.name hroot (isLive_dropUnreachable.mpr ⟨hp.isLive hr, ?_⟩)
    exact (reachable_closed settings p).1 r hr hroot
  refine ⟨_, hlinked, ?_, fun r hr hroot => ⟨hlive r hr hroot, fun engine m m' => ?_⟩⟩
  · obtain ⟨main, hmain, hname⟩ := hp.entry
    have hfound : (p.routine? "main").isNone = false := by
      rw [← hname, routine?_eq_some hp.distinct hmain]
      rfl
    have hverify := verify_of_linked hlinked (hname ▸ hlive main hmain (by simp [Settings.isRoot, hname]))
    simp only [condense, hfound, hverify]
    rfl
  · refine ((hends r.name (hlive r hr hroot)).2 engine m m').trans ?_
    simp only [Ends, run_dropUnreachable]

/-- Simplification across routines succeeds on every program that is ready for it, and keeps what its roots
do: from every machine, a root ends in the condensed program exactly as it ends in the program, with the
same cells, the same world and the same messages, blocks and raw commands on record, or ends in neither. -/
theorem condense_preserves_runs {settings : Settings} {p : Program} (hp : p.Ready) {root : Routine}
    (hmem : root ∈ p.routines) (hroot : settings.isRoot root.name = true) (engine : Engine World)
    (m m' : Machine World) :
    (p.condense settings).1 = .ok () ∧
      ((p.condense settings).2.Ends engine root.name m m' ↔ p.Ends engine root.name m m') := by
  obtain ⟨q, hlinked, hcondense, hroots⟩ := condense_eq settings hp
  obtain ⟨hlive, hends⟩ := hroots root hmem hroot
  rw [hcondense]
  refine ⟨rfl, Iff.trans ?_ (hends engine m m')⟩
  simp only [Ends, run_simplify, run_live engine hlinked _ root.name hlive]

def tangled : Program where
  routines :=
    [{ name := "main", body := [.leaf (.call "single"), .leaf (.call "once"), .leaf (.call "again")] },
      { name := "single", body := [.leaf (.setScore ⟨"x"⟩ 2)] },
      { name := "once", body := [.leaf (.call "empty"), .leaf (.tellraw (.string "once"))] },
      { name := "again",
        body := [.leaf (.addScore ⟨"x"⟩ (-1)), .guarded [.isTrue ⟨"x"⟩] [.leaf (.call "again")]] },
      { name := "empty", body := [] },
      { name := "lost", body := [.leaf (.call "lost")] }]
  nextIndex := 0

theorem tangled_ready : tangled.Ready := by
  refine ⟨by decide, by simp [tangled], ⟨_, .head _, rfl⟩, ?_⟩
  simp [tangled, Routine.calls, Node.callsAll, Node.calls, Node.leaf, Node.guarded]

def tangledEnd : Machine Unit :=
  let m := Machine.blank.put ⟨"x"⟩ 2
  ((m.record (.message (.string "once") m.cells ())).put ⟨"x"⟩ 1).put ⟨"x"⟩ 0

theorem ends_tangled : tangled.Ends .still "main" .blank tangledEnd := ⟨5, rfl⟩

theorem condense_preserves_runs_tangled :
    (tangled.condense {}).1 = .ok () ∧ (tangled.condense {}).2.Ends .still "main" .blank tangledEnd := by
  have hruns : (tangled.condense {}).1 = .ok () ∧
      ((tangled.condense {}).2.Ends .still "main" .blank tangledEnd ↔
        tangled.Ends .still "main" .blank tangledEnd) :=
    condense_preserves_runs tangled_ready List.mem_cons_self rfl .still .blank tangledEnd
  exact ⟨hruns.1, hruns.2.mpr ends_tangled⟩

end Program

end Datapack
