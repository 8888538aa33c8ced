import Datapack.Pack
import Datapack.Proofs.Linking
import Datapack.Proofs.Tidiness

/-!
Routines of loops. Calls lead to routines that were made before, or back to the end of the same one: no routine is
entered again from below a condition, and no routine that is called can be done without.
-/

namespace Datapack

open List Node

variable {made more : List Routine} {nodes : List Node} {r : Routine} {settings : Settings} {q : Program}

def Routine.CallsItself (r : Routine) : Prop := .call r.name ∈ Node.instrsAll r.body

namespace Node

def CallsOnly (made : List Routine) (nodes : List Node) : Prop :=
  ∀ callee ∈ callsAll nodes, ∃ r ∈ made, r.name = callee ∧ r.CallsItself

/-- Whether nodes are what a loop ends with: a call of its routine, be it under conditions, or nothing. -/
inductive IsRepeat (name : String) : List Node → Prop
  | never : IsRepeat name []
  | always {location : Option Span} {index : Option Nat} :
      IsRepeat name [⟨.call name, [], location, index⟩]
  | tested {conditions : List Condition} {outer inner : Option Span} {index index' : Option Nat} :
      IsRepeat name [⟨.guarded conditions, [⟨.call name, [], inner, index⟩], outer, index'⟩]

variable {others : List Node}

theorem CallsOnly.mono (h : CallsOnly made nodes) (hsub : made ⊆ more) : CallsOnly more nodes := by
  intro callee hcallee
  obtain ⟨r, hr, hcalls⟩ := h callee hcallee
  exact ⟨r, hsub hr, hcalls⟩

theorem callsOnly_append : CallsOnly made (nodes ++ others) ↔ CallsOnly made nodes ∧ CallsOnly made others := by
  simp only [CallsOnly, callsAll_append, mem_append]
  exact ⟨fun h => ⟨fun c hc => h c (.inl hc), fun c hc => h c (.inr hc)⟩,
    fun h c hc => hc.elim (h.1 c) (h.2 c)⟩

theorem numberAll_append (next : Nat) (nodes others : List Node) :
    ∃ later, (numberAll next (nodes ++ others)).2 =
      (numberAll next nodes).2 ++ (numberAll later others).2 := by
  induction nodes generalizing next with
  | nil => exact ⟨next, rfl⟩
  | cons node rest ih =>
    obtain ⟨later, hrest⟩ := ih (number next node).1
    refine ⟨later, ?_⟩
    simp only [cons_append, numberAll, hrest]

theorem IsRepeat.numberAll {name : String} (h : IsRepeat name nodes) (next : Nat) :
    IsRepeat name (Node.numberAll next nodes).2 := by
  cases h with
  | never => exact .never
  | always => exact .always
  | tested => exact .tested

theorem IsRepeat.calls {name callee : String} (h : IsRepeat name nodes) (hcallee : callee ∈ callsAll nodes) :
    callee = name ∧ .call name ∈ instrsAll nodes := by
  cases h with
  | never => simp [callsAll] at hcallee
  | always => simpa [callsAll, Node.calls, instrsAll, linesAll, lines] using hcallee
  | tested => simpa [callsAll, Node.calls, instrsAll, linesAll, lines] using hcallee

end Node

/-- Whether a routine calls only routines among given ones that call themselves, and itself at its end. -/
structure Routine.IsLoop (made : List Routine) (r : Routine) : Prop where
  kept : r.dropped = false
  body : ∃ inner last, r.body = inner ++ last ∧ CallsOnly made inner ∧ IsRepeat r.name last

def Routine.Chain (made : List Routine) : Prop :=
  ∀ before r after, made = before ++ r :: after → r.IsLoop before

namespace Routine

theorem IsLoop.mono (h : r.IsLoop made) (hsub : made ⊆ more) : r.IsLoop more := by
  obtain ⟨inner, last, hbody, hcalls, hrepeat⟩ := h.body
  exact ⟨h.kept, inner, last, hbody, hcalls.mono hsub, hrepeat⟩

theorem IsLoop.callee (h : r.IsLoop made) {callee : String} (hcallee : callee ∈ r.calls) :
    (∃ s ∈ made, s.name = callee ∧ s.CallsItself) ∨ (callee = r.name ∧ r.CallsItself) := by
  obtain ⟨inner, last, hbody, hcalls, hrepeat⟩ := h.body
  rw [Routine.calls, hbody, callsAll_append, mem_append] at hcallee
  refine hcallee.imp (hcalls callee) fun hlast => ?_
  obtain ⟨rfl, hcall⟩ := hrepeat.calls hlast
  refine ⟨rfl, ?_⟩
  rw [CallsItself, hbody, instrsAll_append]
  exact mem_append_right _ hcall

theorem chain_nil : Chain [] := by
  intro before r after h
  simp at h

theorem Chain.append (h : Chain made) (h' : Chain more) : Chain (made ++ more) := by
  intro before r after hsplit
  obtain ⟨rest, hrest, hafter⟩ | ⟨rest, hrest, hafter⟩ := append_eq_append_iff.mp hsplit
  · exact (h' rest r after hafter).mono (hrest ▸ subset_append_right _ _)
  · cases rest with
    | nil =>
      have hmore : more = [] ++ r :: after := by simpa using hafter.symm
      exact (h' [] r after hmore).mono (by simp)
    | cons first rest =>
      obtain ⟨rfl, -⟩ := List.cons.inj hafter
      exact h before r rest hrest

theorem Chain.snoc (h : Chain made) (hr : r.IsLoop made) : Chain (made ++ [r]) := by
  intro before s after hsplit
  obtain rfl | ⟨initial, last, rfl⟩ := eq_nil_or_concat after
  · obtain ⟨rfl, hlast⟩ := append_inj' hsplit rfl
    obtain rfl : r = s := by simpa using hlast
    exact hr
  · have hconcat : made ++ [r] = (before ++ s :: initial) ++ [last] := by simpa using hsplit
    obtain ⟨hmade, -⟩ := append_inj' hconcat rfl
    exact h before s initial hmade

end Routine

namespace Program

variable {p : Program}

end Program

end Datapack
