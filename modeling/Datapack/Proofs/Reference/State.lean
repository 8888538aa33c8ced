import Datapack.Proofs.Reference.Operation

/-!
What the state of a compilation refers to. All places of variables and functions are fit, and so is everything that was
written so far.
-/

namespace Datapack

open Syntax List

variable {name : String} {value : Value} {scope : Span} {key : Nat} {fs : Frames} {names : Prop} {env : Environment}
  {s : CompilerState}

def Syntax.Stmt.Bind (names : Prop) (stmts : List Stmt) : Prop := names → ∀ part ∈ Stmt.allParts stmts, part.Named

structure Environment.Clean (names : Prop) (env : Environment) : Prop where
  block : ∀ name, env.catalogue.hasBlock name = true → Datapack.Clean names name
  feature : ∀ name, env.catalogue.hasFeature name = true → Datapack.Clean names name

structure Variable.Fit (names : Prop) (name : String) (var : Variable) : Prop where
  clean : Clean names name
  value : var.value.Fit names
  slot : ∀ slot, var.slot = some slot → slot.Fit names

structure Frame.Fit (names : Prop) (f : Frame) : Prop where
  vars : ∀ x ∈ f.vars, x.2.Fit names x.1
  returnSlot : ∀ slot, f.returnSlot = some slot → slot.Fit names
  returned : ∀ v, f.returned = some v → v.Fit names

def Frames.Fit (names : Prop) (fs : Frames) : Prop := ∀ key f, fs.get? key = some f → f.Fit names

structure Receiver.Fit (names : Prop) (r : Receiver) : Prop where
  value : r.value.Fit names
  slot : ∀ slot, r.slot = some slot → slot.Fit names
  var : ∀ name, r.var = some name → Clean names name

structure FunctionDef.Fit (names : Prop) (f : FunctionDef) : Prop where
  default : ∀ p ∈ f.signature.params, ∀ v, p.default? = some v → v.Fit names
  params : ∀ param ∈ f.decl.params, Clean names param.name
  body : Stmt.Bind names f.decl.body.stmts
  plain : ∀ routine params result, f.form = .plain routine params result →
    Clean names routine ∧ (∀ slot ∈ params, slot.Fit names) ∧ result.Fit names

structure CompilerState.Fit (names : Prop) (s : CompilerState) : Prop where
  frames : s.frames.Fit names
  draft : s.draft.All (Instr.Fit names s.constants)
  functions : ∀ f ∈ s.functions, f.Fit names
  structs : ∀ d ∈ s.structs, ∀ field ∈ d.fields, Clean names field.1
  distinct : s.constants.Nodup
  userInit : ∀ routine, s.userInit = some routine → Clean names routine

theorem Variable.fit_pinned {site : Span} {slot : Option Slot} {constant : Bool} (hname : Clean names name)
    (hvalue : value.Fit names) (hslot : ∀ x, slot = some x → x.Fit names) :
    Variable.Fit names name ⟨value.pinned, scope, site, slot, constant⟩ :=
  ⟨hname, hvalue.mark false, hslot⟩

namespace Arena

variable {α : Type} {a : Arena α} {other : Nat} {value found : α}

theorem of_get?_insert (h : (a.insert value).2.get? key = some found) : found = value ∨ a.get? key = some found := by
  rw [get?_eq_some] at h ⊢
  unfold Arena.insert at h
  split at h
  · rw [Array.getElem?_setIfInBounds] at h
    split at h
    · split at h
      · exact .inl (Option.some.inj (Option.some.inj h)).symm
      · cases h
    · exact .inr h
  · rw [Array.getElem?_push] at h
    split at h
    · exact .inl (Option.some.inj (Option.some.inj h)).symm
    · exact .inr h

theorem of_get?_erase (h : (a.erase other).2.get? key = some found) : a.get? key = some found := by
  unfold Arena.erase at h
  split at h
  · rw [get?_eq_some] at h ⊢
    rw [Array.getElem?_setIfInBounds] at h
    split at h
    · split at h <;> cases h
    · exact h
  · exact h

theorem get?_of_mem_chain {link : α → Option Nat} {limit : Nat} {e : Nat × α} (h : e ∈ a.chain link limit key) :
    a.get? e.1 = some e.2 := by
  fun_induction a.chain link limit key with
  | case1 | case2 => cases h
  | case3 limit key value hget hlink =>
    cases mem_singleton.mp h
    exact hget
  | case4 limit key value hget next hlink ih =>
    obtain rfl | h := mem_cons.mp h
    · exact hget
    · exact ih h

end Arena

namespace Frames.Fit

variable {var : Variable} {fs' : Frames}

theorem fit_empty {id : Nat} {kind : ScopeKind} {parent : Option Nat} : Frame.Fit names { id, kind, parent, scope } :=
  ⟨by simp, by simp, by simp⟩

section

variable (h : fs.Fit names)

include h

theorem top : fs.top.Fit names := by
  rw [Frames.top]
  cases hget : fs.get? fs.current with
  | none => exact fit_empty
  | some f => exact h _ f hget

theorem modify {change : Frame → Frame}
    (hchange : ∀ f : Frame, f.Fit names → (change f).Fit names) : (fs.modify key change).Fit names := by
  intro other f hf
  rw [Frames.modify, Frames.get?, Arena.get?_modify] at hf
  split at hf
  · obtain ⟨old, hold, rfl⟩ := Option.map_eq_some_iff.mp hf
    exact hchange old (h _ old hold)
  · exact h _ f hf

theorem push (kind : ScopeKind) (scope : Span) : (fs.push kind scope).Fit names := by
  intro key f hf
  obtain rfl | hf := Arena.of_get?_insert hf
  · exact fit_empty
  · exact h key f hf

theorem pop : fs.pop.2.Fit names := by
  rw [Frames.pop]
  split
  · exact h
  · exact fun key f hf => h key f (Arena.of_get?_erase hf)

end

theorem start : Frames.start.Fit names := by
  intro key f hf
  obtain rfl | hf := Arena.of_get?_insert (a := {}) hf
  · exact fit_empty
  · simp [Arena.get?] at hf

theorem find? (h : fs.Fit names) (hfind : fs.find? name = some (key, var)) : var.Fit names name := by
  obtain ⟨⟨key', f⟩, hmem, hget⟩ := exists_of_findSome?_eq_some hfind
  simp only at hget
  split at hget
  next var' hvar =>
    obtain ⟨-, rfl⟩ := Prod.mk.inj (Option.some.inj hget)
    exact (h _ f (Arena.get?_of_mem_chain hmem)).vars _ (Ordered.mem_of_get? hvar)
  next => cases hget

theorem bind (h : fs.Fit names) (hvar : var.Fit names name) (hbind : fs.bind name var = .ok fs') : fs'.Fit names := by
  rw [Frames.bind] at hbind
  split at hbind
  · cases hbind
  · cases hbind
    refine h.modify fun f hf => ⟨fun x hx => ?_, hf.returnSlot, hf.returned⟩
    obtain hx | hx := mem_append.mp hx
    · exact hf.vars x hx
    · exact mem_singleton.mp hx ▸ hvar

theorem rebind (h : fs.Fit names) (hvalue : value.Fit names)
    (hbind : fs.rebind name value.pinned = .ok fs') : fs'.Fit names := by
  rw [Frames.rebind] at hbind
  split at hbind
  · cases hbind
  · cases hbind
    refine h.modify fun f hf => ⟨fun x hx => ?_, hf.returnSlot, hf.returned⟩
    obtain hx | ⟨old, hold, rfl⟩ := Ordered.of_mem_modify hx
    · exact hf.vars x hx
    · have hvar := hf.vars _ (Ordered.mem_of_get? hold)
      exact Variable.fit_pinned hvar.clean hvalue hvar.slot

end Frames.Fit

namespace Ordered

variable {κ : Type} [DecidableEq κ] {known : List κ} {values : List κ}

theorem mem_register {value other : κ} : other ∈ (register value known).2 ↔ other ∈ known ∨ other = value := by
  induction known with
  | nil => simp [register]
  | cons v rest ih =>
    rw [register]
    split
    next heq => grind
    next hne => simp [ih, or_assoc]

theorem nodup_register {value : κ} (h : known.Nodup) : (register value known).2.Nodup := by
  induction known with
  | nil => simp [register]
  | cons v rest ih =>
    rw [register]
    split
    next => exact h
    next hne =>
      obtain ⟨hnot, hrest⟩ := nodup_cons.mp h
      refine nodup_cons.mpr ⟨fun hmem => ?_, ih hrest⟩
      exact (mem_register.mp hmem).elim hnot hne

theorem mem_registerAll {other : κ} :
    other ∈ values.foldl (fun known c => (register c known).2) known ↔ other ∈ known ∨ other ∈ values := by
  induction values generalizing known with
  | nil => simp
  | cons value rest ih => rw [foldl_cons, ih, mem_register, mem_cons, or_assoc]

theorem nodup_registerAll (h : known.Nodup) : (values.foldl (fun known c => (register c known).2) known).Nodup := by
  induction values generalizing known with
  | nil => exact h
  | cons value rest ih => exact ih (nodup_register h)

end Ordered

namespace CompilerState.Fit

theorem start : CompilerState.start.Fit names where
  frames := .start
  draft := ⟨by simp [CompilerState.start, Draft.push], by simp [CompilerState.start, Draft.push]⟩
  functions := by simp [CompilerState.start]
  structs := by simp [CompilerState.start]
  distinct := nodup_nil
  userInit _ h := by cases h

section

variable (h : s.Fit names)

include h

theorem withFrames (hfs : fs.Fit names) : CompilerState.Fit names { s with frames := fs } :=
  ⟨hfs, h.draft, h.functions, h.structs, h.distinct, h.userInit⟩

theorem withDraft {d : Draft} (hd : d.All (Instr.Fit names s.constants)) :
    CompilerState.Fit names { s with draft := d } :=
  ⟨h.frames, hd, h.functions, h.structs, h.distinct, h.userInit⟩

theorem opened (kind : ScopeKind) (scope : Span) : (Compile.opened kind scope s).Fit names :=
  h.withFrames ((h.frames.push kind scope).modify fun _ hf => ⟨hf.vars, hf.returnSlot, hf.returned⟩)

theorem absorb {e : Emission}
    (he : Emission.Follows (.fit names) { nextTemporary := s.nextTemporary } e) : (Compile.absorb e s).Fit names := by
  obtain ⟨new, hnew, hwritten⟩ := he.written
  have hknown : s.constants ⊆ (Compile.absorb e s).constants := fun c hc => Ordered.mem_registerAll.mpr (.inl hc)
  have hasked : e.constants.toList ⊆ (Compile.absorb e s).constants := fun c hc =>
    Ordered.mem_registerAll.mpr (.inr hc)
  refine ⟨h.frames, ?_, h.functions, h.structs, Ordered.nodup_registerAll h.distinct, h.userInit⟩
  refine Draft.Every.appendAll (Draft.All.mono (fun _ hi => hi.mono hknown) h.draft) fun node hnode => ?_
  obtain ⟨i, hi, rfl⟩ := mem_map.mp hnode
  rw [hnew] at hi
  exact Node.all_leaf (Instr.Fit.mono hasked (hwritten i hi)) _

end

end CompilerState.Fit

end Datapack
