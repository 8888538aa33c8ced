import Datapack.Proofs.Resolution.Walk

/-!
The frames that are open in a compilation, beside the scopes that were open when the walk over names came to the same
place. A name is looked up with the same result on both sides. Where a body is expanded, the frames of its caller lie
around it, but the scopes of the place where it was declared.
-/

namespace Datapack

open Syntax FrameShape
open List hiding after

def ScopeMap.Encloses (scopes : ScopeMap) (outer inner : Span) : Prop :=
  ∃ r, Ordered.get? outer scopes = some r ∧ inner ∈ r.inner

def ScopeMap.Knows (scopes : ScopeMap) (name : String) (key : Span) : Prop :=
  ∃ outer, (outer = key ∨ scopes.Encloses outer key) ∧ scopes.declares name outer = true

namespace FrameShape

/-- Whether a name is assigned in a scope of a body although the variable that it means, beyond the body, is bound in no
frame around it. -/
def Loose (final : ScopeMap) (beyond outer : List FrameShape) (name : String) (scope : Span) : Prop :=
  anyBinds name outer = false ∧
    ∃ owner site, owner? name beyond = some owner ∧ final.NotesWrite owner name ⟨site, scope⟩

/-- Whether frames stand for the scopes of a body, with scopes beyond it and frames around it. A name that a frame binds
is declared in its scope or, in an expansion, loose. A name that a scope declares and its frame does not bind is bound in
no frame of the body further out. -/
def Matches (final : ScopeMap) (beyond outer : List FrameShape) : List FrameShape → List FrameShape → Prop
  | [], [] => True
  | v :: mine, f :: own => (v.scope = f.scope ∧ (f.kind.isStatic = false → v.kind.isStatic = false)) ∧
    (∀ name ∈ f.names, name ∈ v.names ∨ anyBinds name mine = false ∧ Loose final beyond outer name f.scope) ∧
      (∀ name ∈ v.names, name ∉ f.names → anyBinds name own = false) ∧ Matches final beyond outer mine own
  | _, _ => False

def Held (outer : List FrameShape) : List FrameShape → List FrameShape → Prop
  | v :: mine, f :: own => (∀ name ∈ v.names, name ∈ f.names ∨ anyBinds name outer = true) ∧ Held outer mine own
  | _, _ => True

variable {final : ScopeMap} {mine beyond own outer rest below : List FrameShape} {f v : FrameShape} {name : String}

theorem anyBinds_cons : anyBinds name (f :: rest) = (f.names.contains name || anyBinds name rest) := any_cons

theorem anyBinds_append : anyBinds name (own ++ outer) = (anyBinds name own || anyBinds name outer) := any_append

theorem anyBinds_eq_true : anyBinds name own = true ↔ ∃ f ∈ own, name ∈ f.names := by
  simp [anyBinds, any_eq_true]

theorem owner?_append (h : anyBinds name mine = false) : owner? name (mine ++ beyond) = owner? name beyond := by
  have hnot : mine.find? (·.names.contains name) = none := find?_eq_none.mpr fun f hf => by simpa using any_eq_false.mp h f hf
  rw [owner?, owner?, find?_append, hnot, Option.none_or]

theorem Loose.visible {scope : Span} (h : Loose final beyond outer name scope) : anyBinds name beyond = true := by
  obtain ⟨-, owner, -, howner, -⟩ := h
  rw [← isSome_owner?, howner, Option.isSome_some]

theorem Matches.scopes (h : Matches final beyond outer mine own) : mine.map (·.scope) = own.map (·.scope) := by
  fun_induction Matches final beyond outer mine own with
  | case1 => rfl
  | case2 v mine f own ih => rw [map_cons, map_cons, h.1.1, ih h.2.2.2]
  | case3 => cases h

theorem Matches.exists_split (h : Matches final beyond outer mine (below ++ f :: rest)) :
    ∃ inner v out, mine = inner ++ v :: out ∧ v.scope = f.scope ∧
      ∀ g ∈ below, g.kind.isStatic = false → ∃ w ∈ inner, w.kind.isStatic = false := by
  induction below generalizing mine with
  | nil =>
    obtain _ | ⟨v, mine⟩ := mine
    · cases h
    · exact ⟨[], v, mine, rfl, h.1.1, nofun⟩
  | cons first below ih =>
    obtain _ | ⟨w, mine⟩ := mine
    · cases h
    · obtain ⟨inner, v, out, rfl, hscope, hinner⟩ := ih h.2.2.2
      refine ⟨w :: inner, v, out, rfl, hscope, forall_mem_cons.mpr ⟨fun hdynamic => ?_, fun g hg hdynamic => ?_⟩⟩
      · exact ⟨w, .head _, h.1.2 hdynamic⟩
      · obtain ⟨w', hw', hdynamic'⟩ := hinner g hg hdynamic
        exact ⟨w', .tail _ hw', hdynamic'⟩

theorem Matches.declared (h : Matches final beyond outer mine own) (hf : f ∈ own) (hname : name ∈ f.names) :
    ∃ v ∈ mine, v.scope = f.scope ∧ (name ∈ v.names ∨ anyBinds name beyond = true) := by
  fun_induction Matches final beyond outer mine own with
  | case1 => cases hf
  | case2 v mine g own ih =>
    obtain rfl | hf := mem_cons.mp hf
    · exact ⟨v, .head _, h.1.1, (h.2.1 name hname).imp_right fun hloose => hloose.2.visible⟩
    · obtain ⟨w, hw, hdeclared⟩ := ih h.2.2.2 hf
      exact ⟨w, .tail _ hw, hdeclared⟩
  | case3 => cases h

theorem Matches.visible (h : Matches final beyond outer mine own) (hname : anyBinds name own = true) :
    anyBinds name (mine ++ beyond) = true := by
  obtain ⟨f, hf, hname⟩ := anyBinds_eq_true.mp hname
  obtain ⟨v, hv, -, hdeclared⟩ := h.declared hf hname
  rw [anyBinds_append, Bool.or_eq_true]
  exact hdeclared.imp_left fun hdeclared => anyBinds_eq_true.mpr ⟨v, hv, hdeclared⟩

theorem Held.bound (hheld : Held outer mine own) (h : Matches final beyond outer mine own) (hname : anyBinds name mine = true) :
    anyBinds name (own ++ outer) = true := by
  fun_induction Matches final beyond outer mine own with
  | case1 => cases hname
  | case2 v mine f own ih =>
    rw [cons_append, anyBinds_cons, Bool.or_eq_true]
    rw [anyBinds_cons, Bool.or_eq_true, contains_iff_mem] at hname
    obtain hname | hname := hname
    · obtain hbound | houter := hheld.1 name hname
      · exact .inl (contains_iff_mem.mpr hbound)
      · exact .inr (by rw [anyBinds_append, houter, Bool.or_true])
    · exact .inr (ih hheld.2 h.2.2.2 hname)
  | case3 => cases h

theorem Matches.owner?_of_bound (h : Matches final beyond outer mine (below ++ f :: rest))
    (hname : name ∈ f.names) (hbelow : ∀ g ∈ below, name ∉ g.names) :
    ∃ key, owner? name (mine ++ beyond) = some key ∧ (key = f.scope ∨ key ∈ beyond.map (·.scope) ∧
      anyBinds name outer = false ∧ ∃ site, final.NotesWrite key name ⟨site, f.scope⟩) := by
  induction below generalizing mine with
  | nil =>
    obtain _ | ⟨v, mine⟩ := mine
    · cases h
    obtain ⟨⟨hscope, -⟩, hbound, -, -⟩ := h
    by_cases hdeclared : name ∈ v.names
    · exact ⟨v.scope, by simp [owner?, hdeclared], .inl hscope⟩
    · obtain ⟨hmine, houter, key, site, hkey, hwrite⟩ := (hbound name hname).resolve_left hdeclared
      have hnone : anyBinds name (v :: mine) = false := by
        rw [anyBinds_cons, hmine, Bool.or_false, ← Bool.not_eq_true, contains_iff_mem]
        exact hdeclared
      obtain ⟨inner, g, out, rfl, rfl, -, -⟩ := owner?_eq_some_iff.mp hkey
      exact ⟨g.scope, (owner?_append hnone).trans hkey, .inr ⟨by simp, houter, site, hwrite⟩⟩
  | cons g below ih =>
    obtain _ | ⟨v, mine⟩ := mine
    · cases h
    obtain ⟨-, -, hunbound, hrest⟩ := h
    obtain ⟨hg, hbelow⟩ := forall_mem_cons.mp hbelow
    obtain ⟨key, hkey, hwhere⟩ := ih hrest hbelow
    refine ⟨key, ?_, hwhere⟩
    -- a scope further in that declares the name would have kept all frames around it from binding it
    have hnot : name ∉ v.names := fun hdeclared => by
      have hnone : anyBinds name (below ++ f :: rest) = false := hunbound name hdeclared hg
      rw [anyBinds_append, anyBinds_cons, contains_iff_mem.mpr hname] at hnone
      simp at hnone
    simpa [owner?, find?_cons, hnot] using hkey

/-- Whether frames stand for the scopes of a body, with scopes beyond it and frames around it. -/
structure Stands (final : ScopeMap) (mine beyond own outer : List FrameShape) : Prop where
  nonempty : own ≠ []
  matched : Matches final beyond outer mine own
  known : ∀ f ∈ outer, ∀ name ∈ f.names, final.Knows name f.scope
  layered : (beyond = [] ∧ outer = [] ∧ .inlineFunction ∉ own.map (·.kind)) ∨
    (outer ≠ [] ∧ ∃ inner, .inlineFunction ∉ inner ∧ own.map (·.kind) = inner ++ [.inlineFunction])

/-- Whether frames stand for scopes and bind what these declare, as they do between statements. -/
structure Settled (final : ScopeMap) (mine beyond own outer : List FrameShape) : Prop
    extends Stands final mine beyond own outer where
  held : Held outer mine own

variable {names : List String}

theorem Stands.exists_cons (h : Stands final mine beyond own outer) : ∃ v vs f fs, mine = v :: vs ∧ own = f :: fs := by
  have hmatched := h.matched
  obtain ⟨f, fs, rfl⟩ := exists_cons_of_ne_nil h.nonempty
  obtain _ | ⟨v, vs⟩ := mine
  · cases hmatched
  · exact ⟨v, vs, f, fs, rfl, rfl⟩

theorem Stands.view_ne_nil (h : Stands final mine beyond own outer) : mine ++ beyond ≠ [] := by
  obtain ⟨v, vs, f, fs, rfl, rfl⟩ := h.exists_cons
  exact cons_ne_nil _ _

theorem Stands.current (h : Stands final mine beyond (f :: rest) outer) : current (mine ++ beyond) = f.scope := by
  obtain ⟨v, vs, f, fs, rfl, heq⟩ := h.exists_cons
  obtain ⟨rfl, rfl⟩ := List.cons.inj heq
  exact h.matched.1.1

theorem Stands.tell {names' : List String} {vs fs : List FrameShape} (h : Stands final (v :: vs) beyond (f :: fs) outer)
    (hbound : ∀ n ∈ names', n ∈ names ∨ anyBinds n vs = false ∧ Loose final beyond outer n f.scope)
    (hunbound : ∀ n ∈ names, n ∉ names' → anyBinds n fs = false) :
    Stands final ({ v with names } :: vs) beyond ({ f with names := names' } :: fs) outer :=
  ⟨cons_ne_nil _ _, ⟨h.matched.1, hbound, hunbound, h.matched.2.2.2⟩, h.known, h.layered⟩

theorem Stands.write (h : Stands final mine beyond own outer) (name : String) :
    ∃ mine', assign name (mine ++ beyond) = mine' ++ beyond ∧ Stands final mine' beyond own outer := by
  by_cases hvisible : anyBinds name (mine ++ beyond) = true
  · exact ⟨mine, if_pos hvisible, h⟩
  · obtain ⟨v, vs, f, fs, rfl, rfl⟩ := h.exists_cons
    refine ⟨{ v with names := v.names ++ [name] } :: vs, if_neg hvisible, h.tell ?_ ?_⟩
    · exact fun n hn => (h.matched.2.1 n hn).imp_left (mem_append_left _)
    · intro n hn hnot
      obtain hn | hn := mem_append.mp hn
      · exact h.matched.2.2.1 n hn hnot
      · cases mem_singleton.mp hn
        rw [← Bool.not_eq_true]
        refine fun hbound => hvisible (h.matched.visible ?_)
        rw [anyBinds_cons, hbound, Bool.or_true]

namespace Settled

section

variable (h : Settled final mine beyond own outer)

include h

theorem push {scope : Span} {kind opened : ScopeKind} (names : List String)
    (hkind : kind.isStatic = false → opened.isStatic = false) (hinline : kind ≠ .inlineFunction) :
    Settled final (⟨opened, scope, names⟩ :: mine) beyond (⟨kind, scope, names⟩ :: own) outer := by
  have hmatched : Matches final beyond outer (⟨opened, scope, names⟩ :: mine) (⟨kind, scope, names⟩ :: own) :=
    ⟨⟨rfl, hkind⟩, fun _ => .inl, fun n hn hnot => absurd hn hnot, h.matched⟩
  refine ⟨⟨cons_ne_nil _ _, hmatched, h.known, ?_⟩, fun _ => .inl, h.held⟩
  obtain ⟨hbeyond, houter, hown⟩ | ⟨houter, inner, hinner, hown⟩ := h.layered
  · exact .inl ⟨hbeyond, houter, not_mem_cons_of_ne_of_not_mem hinline.symm hown⟩
  · exact .inr ⟨houter, kind :: inner, not_mem_cons_of_ne_of_not_mem hinline.symm hinner, by rw [map_cons, hown]; rfl⟩

theorem bind (hfresh : anyBinds name (mine ++ beyond) = false) :
    ∃ mine' own', assign name (mine ++ beyond) = mine' ++ beyond ∧ bind name (own ++ outer) = own' ++ outer ∧
      Settled final mine' beyond own' outer := by
  obtain ⟨v, vs, f, fs, rfl, rfl⟩ := h.exists_cons
  have hold := h.matched
  refine ⟨{ v with names := v.names ++ [name] } :: vs, { f with names := f.names ++ [name] } :: fs,
    if_neg (Bool.not_eq_true _ ▸ hfresh), rfl, h.tell ?_ ?_, ?_, h.held.2⟩
  · intro n hn
    obtain hn | hn := mem_append.mp hn
    · exact (hold.2.1 n hn).imp_left (mem_append_left _)
    · exact .inl (mem_append_right _ hn)
  · intro n hn hnot
    rw [mem_append, not_or] at hnot
    exact hold.2.2.1 n ((mem_append.mp hn).resolve_right hnot.2) hnot.1
  · intro n hn
    obtain hn | hn := mem_append.mp hn
    · exact (h.held.1 n hn).imp_left (mem_append_left _)
    · exact .inl (mem_append_right _ hn)

theorem assign (name : String) (hnoted : ∀ owner, owner? name (mine ++ beyond) = some owner →
      ∃ site, final.NotesWrite owner name ⟨site, current (mine ++ beyond)⟩) :
    ∃ mine' own', assign name (mine ++ beyond) = mine' ++ beyond ∧ assign name (own ++ outer) = own' ++ outer ∧
      Settled final mine' beyond own' outer := by
  by_cases hvisible : anyBinds name (mine ++ beyond) = true
  · by_cases hbound : anyBinds name (own ++ outer) = true
    · exact ⟨mine, own, if_pos hvisible, if_pos hbound, h⟩
    · -- no scope of the body declares the name, as its frame would bind it
      have hmine : anyBinds name mine = false := by
        rw [← Bool.not_eq_true]
        exact fun hmine => hbound (h.held.bound h.matched hmine)
      have hbeyond : anyBinds name beyond = true := by rwa [anyBinds_append, hmine, Bool.false_or] at hvisible
      have houter : anyBinds name outer = false := by
        rw [anyBinds_append, Bool.or_eq_true, not_or, Bool.not_eq_true] at hbound
        exact Bool.not_eq_true _ ▸ hbound.2
      rw [← isSome_owner?] at hbeyond
      obtain ⟨owner, howner⟩ := Option.isSome_iff_exists.mp hbeyond
      obtain ⟨site, hwrite⟩ := hnoted owner ((owner?_append hmine).trans howner)
      obtain ⟨v, vs, f, fs, rfl, rfl⟩ := h.exists_cons
      rw [h.toStands.current] at hwrite
      rw [anyBinds_cons, Bool.or_eq_false_iff] at hmine
      refine ⟨v :: vs, { f with names := f.names ++ [name] } :: fs, if_pos hvisible, if_neg hbound,
        h.tell (fun n hn => ?_) (fun n hn hnot => ?_), ?_, h.held.2⟩
      · obtain hn | hn := mem_append.mp hn
        · exact h.matched.2.1 n hn
        · cases mem_singleton.mp hn
          exact .inr ⟨hmine.2, houter, owner, site, howner, hwrite⟩
      · exact h.matched.2.2.1 n hn fun hmem => hnot (mem_append_left _ hmem)
      · exact fun n hn => (h.held.1 n hn).imp_left (mem_append_left _)
  · rw [Bool.not_eq_true] at hvisible
    by_cases hbound : anyBinds name (own ++ outer) = true
    · obtain ⟨mine', hmine', hstands⟩ := h.toStands.write name
      refine ⟨mine', own, hmine', if_pos hbound, hstands, ?_⟩
      have houter : anyBinds name outer = true := by
        rw [anyBinds_append, Bool.or_eq_true] at hbound
        refine hbound.resolve_left fun hown => ?_
        rw [h.matched.visible hown] at hvisible
        cases hvisible
      obtain ⟨v, vs, f, fs, rfl, rfl⟩ := h.exists_cons
      obtain rfl : { v with names := v.names ++ [name] } :: vs = mine' :=
        append_cancel_right ((if_neg (Bool.not_eq_true _ ▸ hvisible)).symm.trans hmine')
      refine ⟨fun n hn => ?_, h.held.2⟩
      obtain hn | hn := mem_append.mp hn
      · exact h.held.1 n hn
      · exact .inr (mem_singleton.mp hn ▸ houter)
    · obtain ⟨mine', own', hmine', hown', hnow⟩ := h.bind hvisible
      exact ⟨mine', own', hmine', (if_neg hbound).trans hown', hnow⟩

end

variable {source : Source} {script : Script} (hparse : Script.parse source = .ok script)
  (h : Settled (Analysis.of script).scopes mine beyond own outer)

include hparse h

theorem assign_at {site : Span} {events : List NameEvent}
    (hat : script.At (.assign name site :: events) (mine ++ beyond)) :
    ∃ mine' own', FrameShape.assign name (mine ++ beyond) = mine' ++ beyond ∧
      FrameShape.assign name (own ++ outer) = own' ++ outer ∧ Settled (Analysis.of script).scopes mine' beyond own' outer :=
  h.assign name fun _ howner => ⟨site, hat.notesWrite hparse rfl howner⟩

theorem assigns {span : Span} {events : List NameEvent}
    (hat : script.At (names.map (NameEvent.assign · span) ++ events) (mine ++ beyond)) :
    ∃ mine' own', assignAll names (mine ++ beyond) = mine' ++ beyond ∧ assignAll names (own ++ outer) = own' ++ outer ∧
      Settled (Analysis.of script).scopes mine' beyond own' outer := by
  induction names generalizing mine own with
  | nil => exact ⟨mine, own, rfl, rfl, h⟩
  | cons name rest ih =>
    obtain ⟨mine', own', hmine, hown, hnow⟩ := assign_at hparse h hat
    rw [assignAll, foldl_cons, hmine, assignAll, foldl_cons, hown]
    exact ih hnow (hmine ▸ hat.tail)

theorem reshape {stmt : Stmt} (hafresh : Stmt.allDeclareAfresh [] script.stmts = true)
    (hat : script.At stmt.events (mine ++ beyond)) :
    ∃ mine' own', through stmt.events (mine ++ beyond) = mine' ++ beyond ∧
      stmt.reshape (own ++ outer) = own' ++ outer ∧ Settled (Analysis.of script).scopes mine' beyond own' outer := by
  rw [Stmt.through_events]
  unfold Stmt.reshape
  split
  next var value span =>
    rw [Stmt.events] at hat
    have hwrite : script.At ([.assign var span] ++ []) (mine ++ beyond) :=
      hat.after_uses (congrArg _ (append_nil _).symm) value.isUse_of_mem_events
    exact assign_at hparse h hwrite
  next names value span =>
    rw [Stmt.events] at hat
    have hevents : names.map (fun n => NameEvent.assign n.name span) =
        (names.map (·.name)).map (NameEvent.assign · span) ++ [] ++ [] := by simp
    obtain ⟨mine', own', hmine, hown, hnow⟩ :=
      assigns hparse h (hat.after_uses (congrArg _ hevents) value.isUse_of_mem_events)
    rw [assignAll, foldl_map] at hown
    exact ⟨mine', own', hmine, hown, hnow⟩
  next name value span =>
    rw [Stmt.events] at hat
    have hevents : value.events ++ [.define name span true] = value.events ++ ([.define name span true] ++ []) := rfl
    have hdefine := hat.after_uses hevents value.isUse_of_mem_events
    exact h.bind (hdefine.not_visible hafresh)
  next decl span =>
    rw [Stmt.events] at hat
    exact h.bind (hat.not_visible hafresh)
  next name fields methods body span =>
    rw [Stmt.events] at hat
    exact h.bind (hat.not_visible hafresh)
  next stmt _ _ hassign hdestructure hconst hfunction hstruct =>
    have hnone : stmt.binds = [] := by
      unfold Stmt.binds
      split
      · exact absurd rfl (hassign _ _ _)
      · exact absurd rfl (hdestructure _ _ _)
      · exact absurd rfl (hconst _ _ _)
      · exact absurd rfl (hstruct _ _ _ _ _)
      · exact absurd rfl (hfunction _ _)
      · rfl
    rw [hnone]
    exact ⟨mine, own, rfl, rfl, h⟩

end Settled

end FrameShape

end Datapack
