import Datapack.Program.Draft
import Datapack.Proofs.Condensation
import Mathlib.Algebra.Order.BigOperators.Group.List
import Mathlib.Algebra.Order.Ring.Nat
import Mathlib.Data.List.Nodup

/-!
Numbers of emission. Routines and their nodes are numbered as they are made, each node before those below it. What is
done to a program afterwards takes numbers away, moves them with their nodes, or takes fresh ones from the program's
counter for copies; so no number comes to be used twice.
-/

namespace Datapack

open List

variable {a b : Nat} {i : Option Nat} {r callee : Routine}

def fresh (start stop : Nat) : Option Nat → Nat
  | some n => if start ≤ n ∧ n < stop then 1 else 0
  | none => 0

theorem fresh_add {c : Nat} (hab : a ≤ b) (hbc : b ≤ c) (i : Option Nat) : fresh a b i + fresh b c i = fresh a c i := by
  cases i with
  | none => rfl
  | some n =>
    simp only [fresh]
    split <;> split <;> split <;> omega

theorem exists_of_fresh (h : 0 < fresh a b i) : ∃ n, i = some n ∧ a ≤ n ∧ n < b := by
  cases i with
  | none => cases h
  | some n =>
    rw [fresh] at h
    split at h
    next hn => exact ⟨n, rfl, hn⟩
    next => cases h

theorem fresh_succ (n : Nat) (i : Option Nat) : fresh n (n + 1) i = if some n == i then 1 else 0 := by
  cases i with
  | none => rfl
  | some m =>
    rw [fresh, Option.some_beq_some]
    exact if_congr (by simp; omega) rfl rfl

theorem fresh_le_one (a b : Nat) (i : Option Nat) : fresh a b i ≤ 1 := by
  cases i with
  | none => exact Nat.zero_le _
  | some n =>
    rw [fresh]
    split <;> omega

namespace Node

mutual

def indices : Node → List (Option Nat)
  | ⟨_, children, _, index⟩ => index :: indicesAll children

def indicesAll : List Node → List (Option Nat)
  | [] => []
  | node :: rest => indices node ++ indicesAll rest

end

theorem indicesAll_append (nodes others : List Node) :
    indicesAll (nodes ++ others) = indicesAll nodes ++ indicesAll others := by
  induction nodes with
  | nil => rfl
  | cons node rest ih => simp [indicesAll, ih]

theorem indicesAll_numberAll (next : Nat) (nodes : List Node) :
    (numberAll next nodes).1 = next + sizeAll nodes ∧
      indicesAll (numberAll next nodes).2 = (List.range' next (sizeAll nodes)).map some := by
  induction nodes using forest_induction generalizing next with
  | nil => exact ⟨rfl, rfl⟩
  | cons instr children location index rest ih ihRest =>
    obtain ⟨hnext, hchildren⟩ := ih (next + 1)
    obtain ⟨hlast, hrest⟩ := ihRest (next + 1 + sizeAll children)
    simp only [numberAll, number, sizeAll, size, indicesAll, indices, hnext, hchildren, hlast, hrest]
    refine ⟨by omega, ?_⟩
    rw [← range'_append_1, Nat.add_comm 1, range'_succ, Nat.add_right_comm]
    simp [Nat.add_assoc]

theorem count_numberAll (next : Nat) (nodes : List Node) (i : Option Nat) :
    (indicesAll (numberAll next nodes).2).count i = fresh next (numberAll next nodes).1 i := by
  obtain ⟨hnext, hindices⟩ := indicesAll_numberAll next nodes
  rw [hnext, hindices, List.Nodup.count (List.Nodup.map (fun _ _ => Option.some.inj) (nodup_range' ..))]
  cases i <;> simp [fresh, mem_range'_1]

theorem indices_merge (node : Node) : (indices (merge node)).Sublist (indices node) := by
  unfold merge
  split
  · simp [indices, indicesAll]
  · exact .refl _

theorem indicesAll_simplifyAll (nodes : List Node) : (indicesAll (simplifyAll nodes)).Sublist (indicesAll nodes) := by
  induction nodes using forest_induction with
  | nil => exact .refl _
  | cons instr children location index rest ih ihRest =>
    rw [simplifyAll, prepend]
    split
    · exact ihRest.trans (sublist_append_right _ _)
    · exact .append ((indices_merge _).trans (ih.cons_cons index)) ihRest

theorem indicesAll_withoutCallsAll (name : String) (nodes : List Node) :
    (indicesAll (withoutCallsAll name nodes)).Sublist (indicesAll nodes) := by
  induction nodes using forest_induction with
  | nil => exact .refl _
  | cons instr children location index rest ih ihRest =>
    rw [withoutCallsAll]
    split
    · exact ihRest.trans (sublist_append_right _ _)
    · exact (ih.cons_cons index).append ihRest

theorem count_inlineCallsAll (name : String) (body : Node) (next : Nat) (nodes : List Node) (i : Option Nat) :
    next ≤ (inlineCallsAll name body next nodes).1 ∧
      (indicesAll (inlineCallsAll name body next nodes).2).count i ≤
        (indicesAll nodes).count i + fresh next (inlineCallsAll name body next nodes).1 i := by
  induction nodes using forest_induction generalizing next with
  | nil => simp [inlineCallsAll]
  | cons instr children location index rest ih ihRest =>
    have hnode : next ≤ (inlineCalls name body next ⟨instr, children, location, index⟩).1 ∧
        (indices (inlineCalls name body next ⟨instr, children, location, index⟩).2).count i ≤
          (index :: indicesAll children).count i +
            fresh next (inlineCalls name body next ⟨instr, children, location, index⟩).1 i := by
      by_cases hcall : instr = .call name
      · subst hcall
        have hnext := (indicesAll_numberAll next [body]).1
        have hcount := count_numberAll next [body] i
        simp only [numberAll, indicesAll, append_nil] at hnext hcount
        simp only [inlineCalls, if_true, hcount]
        omega
      · obtain ⟨hnext, hcount⟩ := ih next
        simp only [inlineCalls_of_ne hcall, indices, count_cons]
        omega
    obtain ⟨hnext, hcount⟩ := hnode
    obtain ⟨hlast, hrest⟩ := ihRest (inlineCalls name body next ⟨instr, children, location, index⟩).1
    have hadd := fresh_add hnext hlast i
    simp only [inlineCallsAll, indicesAll, indices, count_append] at hcount hrest ⊢
    exact ⟨hnext.trans hlast, by omega⟩

theorem count_spliceCall (name : String) (body nodes : List Node) (i : Option Nat) :
    (indicesAll (spliceCall name body nodes)).count i ≤ (indicesAll nodes).count i + (indicesAll body).count i := by
  induction nodes with
  | nil => simp [spliceCall]
  | cons node rest ih =>
    rw [spliceCall]
    split
    · simp only [indicesAll_append, indicesAll, count_append]
      omega
    · simp only [indicesAll, count_append]
      omega

end Node

def Routine.indices (r : Routine) : List (Option Nat) := r.index :: Node.indicesAll r.body

/-- How often a number is used in a routine. One that is dropped counts only where all of them do. -/
def Routine.tally (all : Bool) (i : Option Nat) (r : Routine) : Nat :=
  if r.dropped && !all then 0 else r.indices.count i

namespace Program

/-- Whether all numbers of a program were given out by its counter, and no two of its parts carry the same one. -/
structure Numbered (p : Program) : Prop where
  below : ∀ r ∈ p.routines, ∀ i ∈ r.indices, ∃ n < p.nextIndex, i = some n
  distinct : (p.live.flatMap (·.indices)).Nodup

def tally (all : Bool) (i : Option Nat) (routines : List Routine) : Nat := (routines.map (·.tally all i)).sum

variable {p q : Program} {name : String} {all : Bool} {routines : List Routine}

@[simp] theorem tally_nil : tally all i [] = 0 := rfl

@[simp] theorem tally_cons (r : Routine) : tally all i (r :: routines) = r.tally all i + tally all i routines := rfl

theorem tally_live : tally false i routines = ((routines.filter fun r => !r.dropped).flatMap (·.indices)).count i := by
  induction routines with
  | nil => rfl
  | cons r rest ih =>
    cases hdropped : r.dropped <;> simp [Routine.tally, hdropped, ih]

theorem tally_pos : 0 < tally true i routines ↔ ∃ r ∈ routines, i ∈ r.indices := by
  induction routines with
  | nil => simp
  | cons r rest ih => simp [Routine.tally, ih]

/-- Whether a program comes from another one so that numbers are taken away, moved, or taken fresh from the counter. -/
structure Renews (p q : Program) : Prop where
  next : p.nextIndex ≤ q.nextIndex
  live : ∀ i, tally false i q.routines ≤ tally false i p.routines + fresh p.nextIndex q.nextIndex i
  used : ∀ i, 0 < tally true i q.routines → 0 < tally true i p.routines + fresh p.nextIndex q.nextIndex i

namespace Renews

theorem of_tally (hnext : p.nextIndex ≤ q.nextIndex)
    (h : ∀ all i, tally all i q.routines ≤ tally all i p.routines + fresh p.nextIndex q.nextIndex i) : p.Renews q :=
  ⟨hnext, h false, fun i hi => hi.trans_le (h true i)⟩

theorem of_le (hnext : p.nextIndex = q.nextIndex) (h : ∀ all i, tally all i q.routines ≤ tally all i p.routines) :
    p.Renews q :=
  of_tally (Nat.le_of_eq hnext) fun all i => Nat.le_add_right_of_le (h all i)

theorem refl (p : Program) : p.Renews p := of_le rfl fun _ _ => Nat.le_refl _

theorem trans {o : Program} (h : o.Renews p) (h' : p.Renews q) : o.Renews q := by
  have hadd := fresh_add h.next h'.next
  refine ⟨h.next.trans h'.next, fun i => ?_, fun i hi => ?_⟩
  · have := h.live i
    have := h'.live i
    have := hadd i
    omega
  · have := h.used i
    have := h'.used i hi
    have := hadd i
    omega

theorem numbered (h : p.Renews q) (hp : p.Numbered) : q.Numbered := by
  have hold : ∀ i, 0 < tally true i p.routines → ∃ n < p.nextIndex, i = some n := fun i hi =>
    (tally_pos.mp hi).elim fun r h => hp.below r h.1 i h.2
  constructor
  · intro r hr i hi
    obtain hused | hfresh := Nat.add_pos_iff_pos_or_pos.mp (h.used i (tally_pos.mpr ⟨r, hr, hi⟩))
    · obtain ⟨n, hn, rfl⟩ := hold i hused
      exact ⟨n, hn.trans_le h.next, rfl⟩
    · obtain ⟨n, rfl, -, hn⟩ := exists_of_fresh hfresh
      exact ⟨n, hn, rfl⟩
  · refine nodup_iff_count_le_one.mpr fun i => ?_
    have hlive := h.live i
    have hone := nodup_iff_count_le_one.mp hp.distinct i
    rw [Program.live, ← tally_live] at hone ⊢
    by_cases hused : 0 < tally true i p.routines
    · -- a number in use was given out before, so it is not given out again
      obtain ⟨n, hn, rfl⟩ := hold i hused
      have hstale : fresh p.nextIndex q.nextIndex (some n) = 0 := if_neg (by omega)
      omega
    · have := fresh_le_one p.nextIndex q.nextIndex i
      have : tally false i p.routines ≤ tally true i p.routines :=
        sum_le_sum fun r _ => by simp [Routine.tally]; split <;> simp
      omega

end Renews

/-- Whether a routine comes from another one without new numbers, and is part of no program that the other one is not
part of. -/
def Wanes (r r' : Routine) : Prop := r.indices.Sublist r'.indices ∧ (r'.dropped = true → r.dropped = true)

theorem Wanes.refl (r : Routine) : Wanes r r := ⟨.refl _, id⟩

theorem Wanes.tally {r' : Routine} (h : Wanes r r') (all : Bool) (i : Option Nat) : r.tally all i ≤ r'.tally all i := by
  have hcount := h.1.count_le i
  have hdropped := h.2
  unfold Routine.tally
  split <;> split <;> grind

variable {f : Routine → Routine}

theorem renews_map (hf : ∀ r, Wanes (f r) r) (p : Program) : p.Renews { p with routines := p.routines.map f } :=
  .of_le rfl fun all i => by
    rw [Program.tally, map_map]
    exact sum_le_sum fun r _ => (hf r).tally all i

theorem renews_modifyFirst (hf : ∀ r, Wanes (f r) r) (name : String) (p : Program) :
    p.Renews { p with routines := modifyFirst name f p.routines } := by
  refine .of_le rfl fun all i => ?_
  show Program.tally all i (modifyFirst name f p.routines) ≤ _
  induction p.routines with
  | nil => exact .refl
  | cons r rest ih =>
    rw [modifyFirst]
    split
    · exact Nat.add_le_add_right ((hf r).tally all i) _
    · exact Nat.add_le_add_left ih _

theorem renews_drop (p : Program) (name : String) : p.Renews (p.drop name) :=
  renews_modifyFirst (f := fun r => { r with dropped := true }) (fun _ => ⟨.refl _, fun _ => rfl⟩) name p

theorem wanes_simplify (r : Routine) : Wanes r.simplify r :=
  ⟨(r.body_simplify ▸ Node.indicesAll_simplifyAll r.body).cons_cons _, id⟩

theorem renews_simplify (p : Program) : p.Renews p.simplify :=
  renews_map wanes_simplify p

theorem renews_dropUnreachable (settings : Settings) (p : Program) : p.Renews (p.dropUnreachable settings) := by
  refine renews_map (fun r => ?_) p
  split
  · exact .refl r
  · exact ⟨.refl _, fun _ => rfl⟩

theorem renews_live (p : Program) : p.Renews { p with routines := p.live } :=
  .of_le rfl fun _ _ => (filter_sublist.map _).sum_le_sum fun _ _ => Nat.zero_le _

theorem renews_removeEmpty (p : Program) (name : String) : p.Renews (p.apply (.removeEmpty name)) := by
  refine (renews_map (fun r => ?_) p).trans (renews_drop _ name)
  split
  · exact .refl r
  · exact ⟨(Node.indicesAll_withoutCallsAll name r.body).cons_cons _, id⟩

theorem tally_inlineOne (name : String) (body : Node) (next : Nat) (r : Routine) (all : Bool) (i : Option Nat) :
    next ≤ (inlineOne name body next r).1 ∧
      (inlineOne name body next r).2.tally all i ≤ r.tally all i + fresh next (inlineOne name body next r).1 i := by
  unfold inlineOne
  split
  next h =>
    have hkept : r.dropped = false := by simpa using (Bool.and_eq_true_iff.mp h).1
    obtain ⟨hnext, hcount⟩ := Node.count_inlineCallsAll name body next r.body i
    simp only [Routine.tally, Routine.indices, hkept, count_cons]
    exact ⟨hnext, by simp; omega⟩
  next => exact ⟨.refl, Nat.le_add_right _ _⟩

theorem tally_inlineInto (name : String) (body : Node) (next : Nat) (routines : List Routine) (all : Bool)
    (i : Option Nat) :
    next ≤ (inlineInto name body next routines).1 ∧
      tally all i (inlineInto name body next routines).2 ≤
        tally all i routines + fresh next (inlineInto name body next routines).1 i := by
  induction routines generalizing next with
  | nil => exact ⟨.refl, Nat.zero_le _⟩
  | cons r rest ih =>
    obtain ⟨hnext, hfirst⟩ := tally_inlineOne name body next r all i
    obtain ⟨hlast, hrest⟩ := ih (inlineOne name body next r).1
    have hadd := fresh_add hnext hlast i
    simp only [inlineInto_cons, tally_cons]
    exact ⟨hnext.trans hlast, by omega⟩

theorem tally_modifyFirst (f : Routine → Routine) (all : Bool) (i : Option Nat)
    (h : routines.find? (·.name == name) = some r) :
    tally all i (modifyFirst name f routines) + r.tally all i = tally all i routines + (f r).tally all i := by
  induction routines with
  | nil => cases h
  | cons first rest ih =>
    rw [modifyFirst]
    by_cases hname : first.name = name
    · obtain rfl : first = r := by simpa [hname] using h
      rw [if_pos hname, tally_cons, tally_cons]
      omega
    · rw [find?_cons_of_neg (by simpa using hname)] at h
      have hrest := ih h
      rw [if_neg hname, tally_cons, tally_cons]
      omega

theorem renews_inlineSingle {body : Node} (hcallee : p.routine? callee.name = some callee)
    (hbody : callee.body = [body]) : p.Renews (p.apply (.inlineSingle callee.name)) := by
  rw [apply_inlineSingle hcallee hbody]
  have h := tally_inlineInto callee.name body p.nextIndex p.routines
  exact (Renews.of_tally (h true none).1 fun all i => (h all i).2).trans (renews_drop _ _)

theorem renews_splice {caller : Routine} (hcallee : p.routine? callee.name = some callee)
    (hlive : callee.dropped = false) (hcaller : p.routine? caller.name = some caller)
    (hne : callee.name ≠ caller.name) : p.Renews (p.apply (.splice callee.name caller.name)) := by
  let spliced (r : Routine) : Routine := { r with body := Node.spliceCall callee.name callee.body r.body }
  have hfound : (modifyFirst caller.name spliced p.routines).find? (·.name == callee.name) = some callee := by
    rw [find?_modifyFirst spliced (fun _ => rfl), if_neg hne]
    exact hcallee
  rw [apply_splice hcallee]
  -- the caller gains what the callee has, which counts no more where only live routines do
  have hsum : ∀ all i, tally all i (modifyFirst callee.name (fun r => { r with dropped := true })
      (modifyFirst caller.name spliced p.routines)) ≤
        tally all i p.routines + Routine.tally all i { callee with dropped := true } := by
    intro all i
    have hsplice := Node.count_spliceCall callee.name callee.body caller.body i
    have hgain := tally_modifyFirst spliced all i hcaller
    have hloss := tally_modifyFirst (fun r => { r with dropped := true }) all i hfound
    have hspliced : (spliced caller).tally all i ≤ caller.tally all i + callee.tally all i := by
      simp only [spliced, Routine.tally, Routine.indices, hlive, count_cons]
      split
      · simp
      · simp
        omega
    omega
  refine ⟨.refl, fun i => Nat.le_add_right_of_le (hsum false i), fun i hi => Nat.add_pos_left ?_ _⟩
  obtain hused | hmem := Nat.add_pos_iff_pos_or_pos.mp (hi.trans_le (hsum true i))
  · exact hused
  · exact tally_pos.mpr ⟨callee, mem_of_find?_eq_some hcallee, count_pos_iff.mp hmem⟩

section

variable (hp : (p.routines.map (·.name)).Nodup)

include hp

theorem renews_of_stepOf (hcallee : p.routine? callee.name = some callee) (hlive : callee.dropped = false)
    (hself : callee.name ∉ callee.calls) {step : Step} (h : p.StepOf callee step) : p.Renews (p.apply step) := by
  cases h with
  | removeEmpty => exact renews_removeEmpty p callee.name
  | inlineSingle hbody => exact renews_inlineSingle hcallee hbody
  | @splice caller hcaller hdirect =>
    have hfound := ((mem_live hp).mp hcaller).1
    refine renews_splice hcallee hlive hfound fun hname => hself ?_
    obtain rfl : callee = caller := Option.some.inj (hcallee.symm.trans (hname ▸ hfound))
    exact Node.mem_callsAll_of_any hdirect

theorem renews_runSteps (settings : Settings) (bound : Nat) :
    p.Renews (p.runSteps settings bound) ∧
      (p.runSteps settings bound).routines.map (·.name) = p.routines.map (·.name) := by
  refine runSteps_induction (P := fun q => p.Renews q ∧ q.routines.map (·.name) = p.routines.map (·.name)) ?_ bound hp
    ⟨.refl p, rfl⟩
  intro q callee step ⟨hrenews, hnames⟩ hq hcallee hlive hself _ hstep hunfolds
  exact ⟨hrenews.trans (renews_of_stepOf hq hcallee hlive hself hstep), hunfolds.names.trans hnames⟩

theorem renews_condense (settings : Settings) :
    p.Renews (p.condense settings).2 ∧
      ((p.condense settings).2.routines.map (·.name)).Sublist (p.routines.map (·.name)) := by
  have hdrop := names_dropUnreachable settings p
  obtain ⟨hrenews, hnames⟩ :=
    renews_runSteps (hdrop.symm ▸ hp) settings (p.dropUnreachable settings).stepBound
  have hall := (renews_dropUnreachable settings p).trans hrenews
  unfold condense
  split
  · exact ⟨.refl p, .refl _⟩
  · dsimp only
    split
    · exact ⟨hall, (hnames.trans hdrop) ▸ .refl _⟩
    · refine ⟨hall.trans ((renews_live _).trans (renews_simplify _)), ?_⟩
      simp only [simplify, map_map]
      exact (hnames.trans hdrop) ▸ filter_sublist.map _

/-- What is done to a program after it is made: one routine is simplified, or all are, or all with regard to each
other. -/
inductive Pass
  | routine (name : String)
  | every
  | across (settings : Settings)

def pass (p : Program) : Pass → Program
  | .routine name => { p with routines := modifyFirst name Routine.simplify p.routines }
  | .every => p.simplify
  | .across settings => (p.condense settings).2

theorem renews_pass (pass : Pass) :
    p.Renews (p.pass pass) ∧ ((p.pass pass).routines.map (·.name)).Sublist (p.routines.map (·.name)) := by
  cases pass with
  | routine name =>
    refine ⟨renews_modifyFirst wanes_simplify name p, ?_⟩
    exact (map_name_modifyFirst Routine.simplify (fun _ => rfl) name p.routines) ▸ .refl _
  | every => exact ⟨renews_simplify p, by simp [Program.pass, simplify, Routine.simplify, Function.comp_def]⟩
  | across settings => exact renews_condense hp settings

theorem numbered_passes (passes : List Pass) (h : p.Numbered) : (passes.foldl pass p).Numbered := by
  induction passes generalizing p with
  | nil => exact h
  | cons pass passes ih =>
    obtain ⟨hrenews, hnames⟩ := renews_pass hp pass
    exact ih (hp.sublist hnames) (hrenews.numbered h)

end

end Program

namespace Draft

def finishAll (d : Draft) (parts : List (String × List Node × Option Span)) : Draft :=
  parts.foldl (fun d part => d.finish part.1 part.2.1 part.2.2) d

variable {d : Draft} {parts : List (String × List Node × Option Span)}

theorem program_finish (name : String) (nodes : List Node) (location : Option Span) :
    (d.finish name nodes location).program.routines = d.program.routines ++
      [{ name, location, index := some d.nextIndex, body := (Node.numberAll (d.nextIndex + 1) nodes).2 }] := by
  simp [finish, program]

theorem renews_finish (name : String) (nodes : List Node) (location : Option Span) :
    d.program.Renews (d.finish name nodes location).program := by
  have hlast : d.nextIndex + 1 ≤ (Node.numberAll (d.nextIndex + 1) nodes).1 := by
    rw [(Node.indicesAll_numberAll _ nodes).1]
    exact Nat.le_add_right _ _
  have hfresh : ∀ i, (some d.nextIndex :: Node.indicesAll (Node.numberAll (d.nextIndex + 1) nodes).2).count i =
      fresh d.nextIndex (Node.numberAll (d.nextIndex + 1) nodes).1 i := by
    intro i
    rw [← fresh_add (Nat.le_succ _) hlast, count_cons, Node.count_numberAll, fresh_succ, Nat.add_comm]
  refine .of_tally (Nat.le_of_succ_le hlast) fun all i => ?_
  rw [program_finish, Program.tally, map_append, sum_append]
  exact Nat.add_le_add_left (Nat.le_of_eq (hfresh i)) _

/-- Whether a routine was numbered as it was made: its nodes one after the other, each before those below it, from the
number behind its own on. -/
def IsConsecutive (r : Routine) : Prop :=
  ∃ n count, r.index = some n ∧ Node.indicesAll r.body = (List.range' (n + 1) count).map some

theorem finishAll_numbered (parts : List (String × List Node × Option Span)) (hd : d.program.Numbered)
    (hconsecutive : ∀ r ∈ d.program.routines, IsConsecutive r) :
    (d.finishAll parts).program.Numbered ∧ (∀ r ∈ (d.finishAll parts).program.routines, IsConsecutive r) ∧
      (d.finishAll parts).program.routines.map (·.name) = d.program.routines.map (·.name) ++ parts.map (·.1) := by
  induction parts generalizing d with
  | nil => exact ⟨hd, hconsecutive, (append_nil _).symm⟩
  | cons part parts ih =>
    obtain ⟨name, nodes, location⟩ := part
    obtain ⟨hnumbered, hall, hnames⟩ := ih ((renews_finish name nodes location).numbered hd) (by
      rw [program_finish, forall_mem_append, forall_mem_singleton]
      exact ⟨hconsecutive, _, _, rfl, (Node.indicesAll_numberAll _ nodes).2⟩)
    refine ⟨hnumbered, hall, hnames.trans ?_⟩
    simp [program_finish]

/-- Numbers of emission stay unique. Where routines with different names are made one after the other, the nodes of each
are numbered consecutively from behind its own number on, each before those below it. Then, and after any passes over
the program, every routine and node carries a number below the program's counter, and no two of those that are part of
the program carry the same one. -/
theorem numbers_stay_unique (hnames : (parts.map (·.1)).Nodup) (passes : List Program.Pass) :
    (∀ r ∈ (finishAll {} parts).program.routines, IsConsecutive r) ∧
      (passes.foldl Program.pass (finishAll {} parts).program).Numbered := by
  obtain ⟨hnumbered, hall, hnames'⟩ := finishAll_numbered (d := {}) parts
    ⟨by simp [program], by simp [program, Program.live]⟩ (by simp [program])
  exact ⟨hall, Program.numbered_passes (by rw [hnames']; exact hnames) passes hnumbered⟩

theorem numbers_stay_unique_tangled :
    ((Program.tangled.routines.map fun r => (r.name, r.body, r.location)).map (·.1)).Nodup ∧
      ([.routine "main", .every, .across {}, .across {}].foldl Program.pass
        (finishAll {} (Program.tangled.routines.map fun r => (r.name, r.body, r.location))).program).Numbered :=
  ⟨by decide, (numbers_stay_unique (by decide) _).2⟩

end Draft

end Datapack
