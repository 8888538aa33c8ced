import Datapack.Proofs.FrameStack
import Datapack.Proofs.Simulation.Message

/-!
How the state of a compilation stands for the scopes of a run. The open frames bind the same names as the scopes, and
what a name is bound to is known, in a temporary that was taken before, or at the slot of the variable.
-/

namespace Datapack

open Syntax List

variable {next more key : Nat} {cells cells' : Cell → Int32} {name : String} {var : Variable} {x : Scalar}
  {vars : List (String × Variable)} {scope : Scope} {stack : List (Nat × Frame)} {scopes : List Scope} {value : Value}

structure Variable.Plain (frame : Nat) (name : String) (next : Nat) (var : Variable) : Prop where
  mutable : var.constant = false
  scalar : var.value.IsScalar
  held : var.slot = none → var.value.Places fun c t => t = false ∧ ∃ k, k < next ∧ c = .temporary k
  stored : ∀ slot, var.slot = some slot →
    slot = .ofVariable frame name ∧ var.value.LivesAt slot.cell false

structure Frame.Plain (next : Nat) (f : Frame) : Prop where
  names : (f.vars.map (·.1)).Nodup
  plainName : ∀ x ∈ f.vars, isPlainName x.1 = true
  vars : ∀ x ∈ f.vars, x.2.Plain f.id x.1 next

structure Frames.Plain (next : Nat) (fs : Frames) : Prop where
  stack : fs.Stack fs.ancestors
  frames : ∀ e ∈ fs.ancestors, e.2.Plain next

def Variable.Agree (cells : Cell → Int32) (vars : List (String × Variable)) (scope : Scope) : Prop :=
  List.Forall₂ (fun v x => v.1 = x.1 ∧ v.2.value.Means cells x.2) vars scope

def Frames.Agree (cells : Cell → Int32) (stack : List (Nat × Frame)) (scopes : List Scope) : Prop :=
  List.Forall₂ (fun e scope => Variable.Agree cells e.2.vars scope) stack scopes

/-- Whether frames stay the same but for their variables, and those around code that may run any number of
times stay the same altogether. -/
def Frames.Evolve : List (Nat × Frame) → List (Nat × Frame) → Prop
  | [], [] => True
  | (key, f) :: rest, (key', f') :: rest' =>
    key' = key ∧ f'.kind = f.kind ∧ if f.kind.isStatic then Evolve rest rest' else rest' = rest
  | _, _ => False

theorem Cell.IsVariable.before {c : Cell} (h : c.IsVariable) (next : Nat) : c.Before next :=
  fun k hk => absurd hk (h.ne_temporary k)

theorem Cell.temporary_before {k : Nat} (h : k < next) : (temporary k).Before next :=
  fun _ hj => temporary_injective hj ▸ h

namespace Variable.Plain

variable {frame : Nat}

section

variable (h : var.Plain frame name next)

include h

theorem mono (hle : next ≤ more) : var.Plain frame name more where
  mutable := h.mutable
  scalar := h.scalar
  held hslot := (h.held hslot).mono fun _ _ hc => ⟨hc.1, hc.2.imp fun _ hk => ⟨by omega, hk.2⟩⟩
  stored := h.stored

theorem places : var.value.Places fun c t =>
    t = false ∧ (c.IsVariable ∨ ∃ k, k < next ∧ c = .temporary k) := by
  cases hslot : var.slot with
  | none => exact (h.held hslot).mono fun _ _ hc => ⟨hc.1, Or.inr hc.2⟩
  | some slot =>
    obtain ⟨rfl, hlives⟩ := h.stored slot hslot
    exact hlives.places ⟨rfl, Or.inl (Cell.isVariable_ofVariable frame name)⟩

theorem before : var.value.Places fun c _ => c.Before next := by
  refine h.places.mono fun c _ hc => ?_
  obtain hvariable | ⟨k, hk, rfl⟩ := hc.2
  · exact hvariable.before next
  · exact Cell.temporary_before hk

end

end Variable.Plain

theorem Frame.Plain.mono {f : Frame} (h : f.Plain next) (hle : next ≤ more) : f.Plain more :=
  ⟨h.names, h.plainName, fun x hx => (h.vars x hx).mono hle⟩

theorem Frames.Plain.mono {fs : Frames} (h : fs.Plain next) (hle : next ≤ more) : fs.Plain more :=
  ⟨h.stack, fun e he => (h.frames e he).mono hle⟩

theorem Datum.Is.congr {α : Type} {code : α → Int32} {d : Datum α Cell} {x : α} (h : d.Is code cells x)
    (hsame : d.Places fun c _ => cells' c = cells c) : d.Is code cells' x := by
  cases d with
  | static _ => exact h
  | dynamic c _ => exact Eq.trans hsame h

theorem Value.Means.congr {v : Value} (h : v.Means cells x)
    (hsame : v.Places fun c _ => cells' c = cells c) : v.Means cells' x := by
  match v, x, h with
  | .number _, .number _, h => exact Datum.Is.congr h hsame
  | .bool _, .truth _, h => exact Datum.Is.congr h hsame

theorem Variable.Agree.congr (h : Agree cells vars scope)
    (hsame : ∀ v ∈ vars, v.2.value.Places fun c _ => cells' c = cells c) : Agree cells' vars scope := by
  induction h with
  | nil => exact .nil
  | cons hfirst _ ih =>
    refine .cons ⟨hfirst.1, hfirst.2.congr (hsame _ (.head _))⟩ (ih fun v hv => ?_)
    exact hsame v (.tail _ hv)

theorem Frames.Agree.congr (h : Agree cells stack scopes)
    (hsame : ∀ e ∈ stack, ∀ v ∈ e.2.vars, v.2.value.Places fun c _ => cells' c = cells c) :
    Agree cells' stack scopes := by
  induction h with
  | nil => exact .nil
  | cons hfirst _ ih =>
    refine .cons (hfirst.congr (hsame _ (.head _))) (ih fun e he => ?_)
    exact hsame e (.tail _ he)

theorem Frames.Evolve.refl (stack : List (Nat × Frame)) : Evolve stack stack := by
  induction stack with
  | nil => trivial
  | cons e rest ih =>
    refine ⟨rfl, rfl, ?_⟩
    split
    · exact ih
    · rfl

theorem Frames.Evolve.trans {a b c : List (Nat × Frame)} (hab : Evolve a b) (hbc : Evolve b c) : Evolve a c := by
  fun_induction Evolve a b generalizing c with
  | case1 => exact hbc
  | case2 key f rest key' f' rest' ih =>
    cases c with
    | nil => exact hbc.elim
    | cons e rest'' =>
      obtain ⟨hkey, hkind, hrest⟩ := hab
      obtain ⟨hkey', hkind', hrest'⟩ := hbc
      refine ⟨hkey'.trans hkey, hkind'.trans hkind, ?_⟩
      rw [hkind] at hrest'
      split
      next hstatic =>
        rw [if_pos hstatic] at hrest hrest'
        exact ih hrest hrest'
      next hstatic =>
        rw [if_neg hstatic] at hrest hrest'
        exact hrest'.trans hrest
  | case3 => exact hab.elim

namespace Variable.Agree

section

variable (h : Agree cells vars scope)

include h

theorem get?_eq_none : Ordered.get? name vars = none ↔ Ordered.get? name scope = none := by
  induction h with
  | nil => simp [Ordered.get?]
  | @cons v x _ _ hfirst _ ih =>
    obtain ⟨_, _⟩ := v
    obtain ⟨_, _⟩ := x
    obtain ⟨rfl, -⟩ := hfirst
    simp only [Ordered.get?]
    split
    · simp
    · exact ih

theorem get?_eq_some (hvar : Ordered.get? name vars = some var) :
    ∃ x, Ordered.get? name scope = some x ∧ var.value.Means cells x := by
  induction h with
  | nil => cases hvar
  | @cons v x _ _ hfirst _ ih =>
    obtain ⟨_, _⟩ := v
    obtain ⟨_, x⟩ := x
    obtain ⟨rfl, hmeans⟩ := hfirst
    simp only [Ordered.get?] at hvar ⊢
    split at hvar
    next heq =>
      cases hvar
      exact ⟨x, if_pos heq, hmeans⟩
    next hne =>
      rw [if_neg hne]
      exact ih hvar

theorem replace (hnames : (vars.map (·.1)).Nodup) (hvalue : value.Means cells' x)
    (hsame : ∀ v ∈ vars, v.1 ≠ name → v.2.value.Places fun c _ => cells' c = cells c) :
    Agree cells'
      (Ordered.modify name (fun v => { v with value }) vars) (Ordered.modify name (fun _ => x) scope) := by
  induction h with
  | nil => exact .nil
  | @cons v y vars scope hfirst hrest ih =>
    obtain ⟨first, var⟩ := v
    obtain ⟨_, y⟩ := y
    obtain ⟨rfl, hmeans⟩ := hfirst
    obtain ⟨hnot, hnames⟩ := nodup_cons.mp hnames
    simp only [Ordered.modify]
    split
    next heq =>
      refine .cons ⟨rfl, hvalue⟩ ?_
      have hother : ∀ v ∈ vars, v.2.value.Places fun c _ => cells' c = cells c := fun v hv =>
        hsame v (.tail _ hv) fun hname =>
          hnot (mem_map.mpr ⟨v, hv, hname.trans heq.symm⟩)
      exact Agree.congr hrest hother
    next hne =>
      refine .cons ⟨rfl, hmeans.congr (hsame _ (.head _) hne)⟩ (ih hnames fun v hv => ?_)
      exact hsame v (.tail _ hv)

end

end Variable.Agree

namespace Frames

def findOn (name : String) (stack : List (Nat × Frame)) : Option (Nat × Variable) :=
  stack.findSome? fun (key, frame) =>
    match Ordered.get? name frame.vars with
    | some var => some (key, var)
    | none => none

theorem findOn_cons (key : Nat) (f : Frame) :
    findOn name ((key, f) :: stack) =
      match Ordered.get? name f.vars with
      | some var => some (key, var)
      | none => findOn name stack := by
  cases h : Ordered.get? name f.vars <;> simp [findOn, h]

theorem key_mem_of_findOn (h : findOn name stack = some (key, var)) :
    ∃ f, (key, f) ∈ stack ∧ Ordered.get? name f.vars = some var := by
  induction stack with
  | nil => cases h
  | cons e rest ih =>
    obtain ⟨k, f⟩ := e
    rw [findOn_cons] at h
    split at h
    next v hvar =>
      obtain ⟨rfl, rfl⟩ := Prod.mk.inj (Option.some.inj h)
      exact ⟨f, .head _, hvar⟩
    next =>
      obtain ⟨g, hg, hvar⟩ := ih h
      exact ⟨g, .tail _ hg, hvar⟩

section

variable (h : Agree cells stack scopes)

include h

theorem Agree.findOn_eq_none (hnone : findOn name stack = none) :
    Scope.lookup? name scopes = none ∧ ∀ x, Scope.replace? name x scopes = none := by
  induction h with
  | nil => exact ⟨rfl, fun _ => rfl⟩
  | @cons e scope _ _ hfirst _ ih =>
    obtain ⟨key, f⟩ := e
    rw [findOn_cons] at hnone
    split at hnone
    · cases hnone
    next hvar =>
      have hscope := (Variable.Agree.get?_eq_none hfirst).mp hvar
      simp [Scope.lookup?, Scope.replace?, hscope, ih hnone]

theorem Agree.findOn_eq_some (hfind : findOn name stack = some (key, var)) :
    ∃ x, Scope.lookup? name scopes = some x ∧ var.value.Means cells x := by
  induction h with
  | nil => cases hfind
  | @cons e scope _ _ hfirst _ ih =>
    obtain ⟨k, f⟩ := e
    rw [findOn_cons] at hfind
    rw [Scope.lookup?]
    split at hfind
    next v hvar =>
      obtain ⟨-, rfl⟩ := Prod.mk.inj (Option.some.inj hfind)
      obtain ⟨x, hx, hmeans⟩ := Variable.Agree.get?_eq_some hfirst hvar
      exact ⟨x, by rw [hx], hmeans⟩
    next hvar =>
      rw [(Variable.Agree.get?_eq_none hfirst).mp hvar]
      exact ih hfind

theorem Agree.replace (hkeys : (stack.map (·.1)).Nodup) (hnames : ∀ e ∈ stack, (e.2.vars.map (·.1)).Nodup)
    (hfind : findOn name stack = some (key, var)) (hvalue : value.Means cells' x)
    (hsame : ∀ e ∈ stack, ∀ v ∈ e.2.vars, (e.1 = key → v.1 ≠ name) → v.2.value.Places fun c _ => cells' c = cells c) :
    ∃ scopes', Scope.replace? name x scopes = some scopes' ∧
      Agree cells' (stack.map (changeAt key fun f =>
        { f with vars := Ordered.modify name (fun v => { v with value }) f.vars })) scopes' := by
  induction h with
  | nil => cases hfind
  | @cons e scope stack scopes hfirst hrest ih =>
    obtain ⟨k, f⟩ := e
    obtain ⟨hnot, hkeys⟩ := nodup_cons.mp hkeys
    rw [findOn_cons] at hfind
    rw [Scope.replace?, map_cons]
    split at hfind
    next v hvar =>
      obtain ⟨rfl, rfl⟩ := Prod.mk.inj (Option.some.inj hfind)
      obtain ⟨y, hy, -⟩ := Variable.Agree.get?_eq_some hfirst hvar
      rw [hy]
      -- no other frame has this key
      have hothers : ∀ e ∈ stack, e.1 ≠ k := fun e he heq => hnot (mem_map.mpr ⟨e, he, heq⟩)
      have hmap : stack.map (changeAt k fun f =>
          { f with vars := Ordered.modify name (fun v => { v with value }) f.vars }) = stack := by
        refine (map_congr_left fun e he => ?_).trans (map_id stack)
        rw [changeAt, if_neg (hothers e he)]
        rfl
      refine ⟨_, rfl, ?_⟩
      rw [hmap, changeAt, if_pos rfl]
      refine .cons ?_ (Agree.congr hrest fun e he v hv => ?_)
      · exact Variable.Agree.replace hfirst (hnames _ (.head _)) hvalue fun v hv hne =>
          hsame _ (.head _) v hv fun _ => hne
      · exact hsame e (.tail _ he) v hv fun heq => absurd heq (hothers e he)
    next hvar =>
      obtain ⟨g, hg, -⟩ := key_mem_of_findOn hfind
      have hne : k ≠ key := fun heq => hnot (mem_map.mpr ⟨_, hg, heq.symm⟩)
      obtain ⟨scopes', hscopes', hagree⟩ := ih hkeys (fun e he => hnames e (.tail _ he))
        hfind (fun e he => hsame e (.tail _ he))
      rw [(Variable.Agree.get?_eq_none hfirst).mp hvar, hscopes', changeAt, if_neg hne]
      refine ⟨_, rfl, .cons (hfirst.congr fun v hv => ?_) hagree⟩
      exact hsame _ (.head _) v hv fun heq => absurd heq hne

end

end Frames

end Datapack
