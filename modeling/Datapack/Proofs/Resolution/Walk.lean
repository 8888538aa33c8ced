import Datapack.Proofs.Storage
import Datapack.Proofs.Visit.Shift

/-!
The analysis of names, place by place: all uses of names in a part of a script are noted with the declarations that were
visible when the walk came to it.
-/

namespace Datapack

open List

variable {events more : List NameEvent} {view : List FrameShape} {name : String} {site key : Span} {kind : ScopeKind}

namespace Syntax

def boundNames (receiver : Option Span) (params : List Param) : List String :=
  receiver.toList.map (fun _ => Compile.selfName) ++ params.map (·.name)

mutual

/-- Whether no constant, function or struct in a statement takes a name that is visible where it stands. -/
def Stmt.declaresAfresh (visible : List String) : Stmt → Bool
  | .const name _ _ => !visible.contains name
  | .branch _ onTrue none _ => onTrue.declaresAfresh visible
  | .branch _ onTrue (some onFalse) _ => onTrue.declaresAfresh visible && onFalse.declaresAfresh visible
  | .repeatWhile _ body _ | .block body _ => body.declaresAfresh visible
  | .forEach var _ ⟨stmts, _⟩ _ => Stmt.allDeclareAfresh (var.name :: visible) stmts
  | .function decl _ => !visible.contains decl.name && decl.declaresAfresh (decl.name :: visible)
  | .struct name _ methods _ _ => !visible.contains name && Function.allDeclareAfresh (name :: visible) methods
  | _ => true

def Block.declaresAfresh (visible : List String) : Block → Bool
  | ⟨stmts, _⟩ => Stmt.allDeclareAfresh visible stmts

def Function.declaresAfresh (visible : List String) : Function → Bool
  | ⟨_, _, receiver, params, _, ⟨stmts, _⟩, _⟩ =>
    Stmt.allDeclareAfresh (boundNames receiver params ++ visible) stmts

def Stmt.allDeclareAfresh (visible : List String) : List Stmt → Bool
  | [] => true
  | stmt :: rest => stmt.declaresAfresh visible && Stmt.allDeclareAfresh (stmt.binds ++ visible) rest

def Function.allDeclareAfresh (visible : List String) : List Function → Bool
  | [] => true
  | decl :: rest => decl.declaresAfresh visible && Function.allDeclareAfresh visible rest

end

end Syntax

def ScopeMap.Holds (scopes : ScopeMap) (use : NameUse) (key : Span) (name : String) (access : Access) : Prop :=
  match use with
  | .read => scopes.NotesRead key name access
  | .receiver | .assignBack => scopes.NotesRead key name access ∨ scopes.NotesWrite key name access
  | .assign | .part => scopes.NotesWrite key name access

open NameLedger Syntax FrameShape

/-- Whether the use of a name is noted in the end with the declaration that is visible, or as the declaration. -/
structure FrameShape.Notes (final : ScopeMap) (view : List FrameShape) (use : NameUse) (name : String) (site : Span) :
    Prop where
  held : ∀ key, owner? name view = some key → ∃ scope, final.Holds use key name ⟨site, scope⟩ ∧
    (use = .assign ∨ use = .part → scope = current view)
  declared : use = .assign → owner? name view = none → final.NotesDeclaration (current view) name ⟨site, current view⟩

namespace Syntax

variable {source : Source} {script : Script} {e : Expr} {ev : NameEvent} {u : NameUse × String × Span}

namespace Script.At

section

variable (hparse : Script.parse source = .ok script)

include hparse

theorem notesRead (h : script.At (.read name site :: events) view) (howner : owner? name view = some key) :
    (Analysis.of script).scopes.NotesRead key name ⟨site, current view⟩ := by
  obtain ⟨l, t, rfl, -, hfollows, hextends, -⟩ := h.head.exists_walk hparse
  rw [← hfollows.declaring?] at howner
  rw [← hfollows.current]
  exact (notesRead_step howner).mono hextends

theorem notesDeclaration (h : script.At (.assign name site :: events) view)
    (hview : view ≠ []) (howner : owner? name view = none) :
    (Analysis.of script).scopes.NotesDeclaration (current view) name ⟨site, current view⟩ := by
  obtain ⟨l, t, rfl, hsound, hfollows, hextends, -⟩ := h.head.exists_walk hparse
  have hcurrent : current t.opened ∈ t.scopes := by
    obtain ⟨f, rest, hopened⟩ := exists_cons_of_ne_nil hview
    rw [Trail.scopes, hopened]
    exact .head _
  have hknown := hsound.stacked.mem_keys _ hcurrent
  rw [← hfollows.declaring?] at howner
  rw [← hfollows.current] at hcurrent hknown ⊢
  exact (notesDeclaration_step (hfollows.opened ▸ hcurrent) (hfollows.keys ▸ hknown) howner).mono hextends

theorem notes_write (hview : view ≠ []) (plain : Bool)
    (h : script.At ((if plain then .assign name site else .part name site) :: events) view) :
    Notes (Analysis.of script).scopes view (if plain then .assign else .part) name site := by
  cases plain with
  | true => exact ⟨fun _ hkey => ⟨_, h.notesWrite hparse rfl hkey, fun _ => rfl⟩, fun _ => h.notesDeclaration hparse hview⟩
  | false => exact ⟨fun _ hkey => ⟨_, h.notesWrite hparse rfl hkey, fun _ => rfl⟩, nofun⟩

theorem notes_use (h : script.At (ev :: events) view) (hu : u ∈ ev.uses) :
    Notes (Analysis.of script).scopes view u.1 u.2.1 u.2.2 := by
  cases ev with
  | read name site =>
    simp only [NameEvent.uses, mem_cons, not_mem_nil, or_false] at hu
    obtain rfl | rfl | rfl := hu
    · exact ⟨fun _ hkey => ⟨_, h.notesRead hparse hkey, nofun⟩, nofun⟩
    · exact ⟨fun _ hkey => ⟨_, .inl (h.notesRead hparse hkey), nofun⟩, nofun⟩
    · exact ⟨fun _ hkey => ⟨_, .inl (h.notesRead hparse hkey), nofun⟩, nofun⟩
  | part name site =>
    simp only [NameEvent.uses, mem_cons, not_mem_nil, or_false] at hu
    obtain rfl | rfl := hu
    all_goals exact ⟨fun _ hkey => ⟨_, .inr (h.notesWrite hparse rfl hkey), nofun⟩, nofun⟩
  | _ => cases hu

end

theorem after_uses {pre inside post : List NameEvent} (h : script.At events view) (heq : events = pre ++ (inside ++ post))
    (hpre : ∀ ev ∈ pre, ev.isUse = true) : script.At inside view := by
  have hinside := h.part pre heq
  rwa [through_uses hpre] at hinside

theorem notes_uses (hparse : Script.parse source = .ok script) (h : script.At e.events view)
    (hu : u ∈ e.events.flatMap NameEvent.uses) : Notes (Analysis.of script).scopes view u.1 u.2.1 u.2.2 := by
  obtain ⟨ev, hev, hu⟩ := mem_flatMap.mp hu
  obtain ⟨pre, post, heq⟩ := append_of_mem hev
  have hinside : e.events = pre ++ ((ev :: post) ++ []) := by rw [append_nil, heq]
  have hpre : ∀ ev ∈ pre, ev.isUse = true := fun ev hev => e.isUse_of_mem_events ev (heq ▸ mem_append_left _ hev)
  exact (h.after_uses hinside hpre).notes_use hparse hu

end Script.At

end Syntax

namespace FrameShape

def DefinesAfresh : List NameEvent → List FrameShape → Prop
  | [], _ => True
  | ev :: rest, view =>
    (∀ name site constant, ev = .define name site constant → anyBinds name view = false) ∧ DefinesAfresh rest (after view ev)

def Sees (view : List FrameShape) (visible : List String) : Prop :=
  view ≠ [] ∧ ∀ name, visible.contains name = anyBinds name view

variable {visible : List String}

theorem definesAfresh_append :
    DefinesAfresh (events ++ more) view ↔ DefinesAfresh events view ∧ DefinesAfresh more (through events view) := by
  induction events generalizing view with
  | nil => simp [DefinesAfresh]
  | cons ev rest ih => simp [DefinesAfresh, ih, and_assoc]

theorem definesAfresh_of_none (h : ∀ ev ∈ events, ∀ name site constant, ev ≠ .define name site constant) :
    DefinesAfresh events view := by
  induction events generalizing view with
  | nil => trivial
  | cons ev rest ih =>
    obtain ⟨hev, hrest⟩ := forall_mem_cons.mp h
    exact ⟨fun name site constant heq => absurd heq (hev name site constant), ih hrest⟩

theorem definesAfresh_uses (h : ∀ ev ∈ events, ev.isUse = true) : DefinesAfresh events view := by
  refine definesAfresh_of_none fun ev hev name site constant heq => ?_
  have huse := h ev hev
  rw [heq] at huse
  cases huse

section

variable (h : Sees view visible)

include h

theorem Sees.bindAll (names : List String) : Sees (bindAll names view) (names ++ visible) := by
  obtain ⟨f, rest, rfl⟩ := exists_cons_of_ne_nil h.1
  rw [bindAll_cons]
  refine ⟨cons_ne_nil _ _, fun name => ?_⟩
  have hname := h.2 name
  simp only [anyBinds, any_cons, contains_append] at hname ⊢
  rw [hname, ← Bool.or_assoc, Bool.or_comm (names.contains name)]

theorem Sees.assign (name : String) : Sees (assign name view) (name :: visible) := by
  unfold FrameShape.assign
  split
  next hbound =>
    refine ⟨h.1, fun other => ?_⟩
    rw [contains_cons, h.2 other]
    by_cases heq : other = name
    · simp [heq, hbound]
    · simp [heq]
  next => exact h.bindAll [name]

theorem Sees.assignAll (names : List String) : Sees (assignAll names view) (names ++ visible) := by
  induction names generalizing view visible with
  | nil => exact h
  | cons name rest ih =>
    obtain ⟨hview, hnames⟩ := ih (h.assign name)
    refine ⟨hview, fun other => (Eq.trans ?_ (hnames other))⟩
    simp [Bool.or_left_comm]

theorem Sees.enter (kind : ScopeKind) (key : Span) : Sees (⟨kind, key, []⟩ :: view) visible :=
  ⟨cons_ne_nil _ _, fun name => (h.2 name).trans (by simp [anyBinds])⟩

theorem Sees.not_visible (hname : (!visible.contains name) = true) : anyBinds name view = false := by
  rw [h.2] at hname
  simpa using hname

end

theorem definesAfresh_within :
    DefinesAfresh (NameEvent.within key kind events) view ↔ DefinesAfresh events (⟨kind, key, []⟩ :: view) := by
  simp [NameEvent.within, DefinesAfresh, definesAfresh_append, after]

end FrameShape

namespace Syntax

theorem Target.definesAfresh (target : Target) {write : NameEvent}
    (h : ∀ name site constant, write ≠ .define name site constant) : DefinesAfresh (target.events write) view := by
  have hwrite : ∀ {view}, DefinesAfresh [write] view :=
    definesAfresh_of_none (forall_mem_singleton.mpr h)
  cases target with
  | path var members => exact hwrite
  | element var index => exact definesAfresh_append.mpr ⟨definesAfresh_uses index.isUse_of_mem_events, hwrite⟩

theorem Expr.definesAfresh {e : Expr} (h : DefinesAfresh more view) : DefinesAfresh (e.events ++ more) view :=
  definesAfresh_append.mpr ⟨definesAfresh_uses e.isUse_of_mem_events, by rwa [through_events]⟩

mutual

theorem Stmt.definesAfresh : ∀ (stmt : Stmt) {view : List FrameShape} {visible : List String}, Sees view visible →
    stmt.declaresAfresh visible = true → DefinesAfresh stmt.events view
  | .expr value _, _, _, _, _ | .return (some value) _, _, _, _, _ => by
    rw [Stmt.events]
    exact definesAfresh_uses value.isUse_of_mem_events
  | .assign target value span, _, _, _, _ => by
    rw [Stmt.events]
    exact Expr.definesAfresh (target.definesAfresh (by split <;> simp))
  | .update target _ value span, _, _, _, _ => by
    rw [Stmt.events]
    exact Expr.definesAfresh (target.definesAfresh (by simp))
  | .destructure names value span, _, _, _, _ => by
    rw [Stmt.events]
    exact Expr.definesAfresh (definesAfresh_of_none (by simp))
  | .const name value span, _, _, hsees, h => by
    rw [Stmt.declaresAfresh] at h
    rw [Stmt.events]
    refine Expr.definesAfresh ⟨?_, trivial⟩
    rintro _ _ _ ⟨⟩
    exact hsees.not_visible h
  | .branch cond onTrue none _, _, _, hsees, h => by
    rw [Stmt.declaresAfresh] at h
    rw [Stmt.events]
    exact Expr.definesAfresh (onTrue.definesAfresh .conditional hsees h)
  | .branch cond onTrue (some onFalse) _, view, _, hsees, h => by
    rw [Stmt.declaresAfresh, Bool.and_eq_true] at h
    rw [Stmt.events]
    refine Expr.definesAfresh (definesAfresh_append.mpr ⟨onTrue.definesAfresh .conditional hsees h.1, ?_⟩)
    rw [Block.through_events .conditional onTrue]
    exact onFalse.definesAfresh .conditional hsees h.2
  | .repeatWhile cond body _, _, _, hsees, h => by
    rw [Stmt.declaresAfresh] at h
    rw [Stmt.events]
    exact Expr.definesAfresh (body.definesAfresh .loop hsees h)
  | .forEach var items ⟨stmts, scope⟩ _, _, _, hsees, h => by
    rw [Stmt.declaresAfresh] at h
    rw [Stmt.events]
    refine Expr.definesAfresh (definesAfresh_within.mpr ⟨nofun, ?_⟩)
    exact Stmt.definesAllAfresh stmts ((hsees.enter .loop scope).bindAll [var.name]) h
  | .block body _, _, _, hsees, h => by
    rw [Stmt.declaresAfresh] at h
    rw [Stmt.events]
    exact body.definesAfresh .block hsees h
  | .function decl _, _, _, hsees, h => by
    rw [Stmt.declaresAfresh, Bool.and_eq_true] at h
    rw [Stmt.events]
    refine ⟨?_, decl.definesAfresh _ (hsees.assign decl.name) h.2⟩
    rintro _ _ _ ⟨⟩
    exact hsees.not_visible h.1
  | .struct name _ methods body span, _, _, hsees, h => by
    rw [Stmt.declaresAfresh, Bool.and_eq_true] at h
    rw [Stmt.events]
    refine ⟨?_, definesAfresh_within.mpr (Function.definesAllAfresh methods ((hsees.assign name).enter .struct body) h.2)⟩
    rintro _ _ _ ⟨⟩
    exact hsees.not_visible h.1
  | .return none _, _, _, _, _ => by
    rw [Stmt.events]
    trivial

theorem Block.definesAfresh (kind : ScopeKind) : ∀ (block : Block) {view : List FrameShape} {visible : List String},
    Sees view visible → block.declaresAfresh visible = true → DefinesAfresh (block.events kind) view
  | ⟨stmts, span⟩, _, _, hsees, h => by
    rw [Block.declaresAfresh] at h
    rw [Block.events]
    exact definesAfresh_within.mpr (Stmt.definesAllAfresh stmts (hsees.enter kind span) h)

theorem Function.definesAfresh (kind : ScopeKind) : ∀ (decl : Function) {view : List FrameShape} {visible : List String},
    Sees view visible → decl.declaresAfresh visible = true → DefinesAfresh (decl.events kind) view
  | ⟨_, _, receiver, params, _, ⟨stmts, span⟩, _⟩, _, _, hsees, h => by
    rw [Function.declaresAfresh] at h
    rw [Function.events]
    refine definesAfresh_append.mpr ⟨definesAfresh_uses (Expr.isUse_of_mem_allEvents _), ?_⟩
    rw [Expr.through_allEvents, definesAfresh_within, definesAfresh_append, through_boundEvents]
    exact ⟨definesAfresh_of_none (by rintro _ hev _ _ _ rfl; simp [boundEvents] at hev),
      Stmt.definesAllAfresh stmts ((hsees.enter kind span).bindAll _) h⟩

theorem Function.definesAllAfresh : ∀ (decls : List Function) {view : List FrameShape} {visible : List String},
    Sees view visible → Function.allDeclareAfresh visible decls = true → DefinesAfresh (Function.allEvents decls) view
  | [], _, _, _, _ => by
    rw [Function.allEvents]
    trivial
  | decl :: rest, _, _, hsees, h => by
    rw [Function.allDeclareAfresh, Bool.and_eq_true] at h
    rw [Function.allEvents, definesAfresh_append, Function.through_events .inlineFunction decl]
    exact ⟨decl.definesAfresh .inlineFunction hsees h.1, Function.definesAllAfresh rest hsees h.2⟩

theorem Stmt.definesAllAfresh : ∀ (stmts : List Stmt) {view : List FrameShape} {visible : List String},
    Sees view visible → Stmt.allDeclareAfresh visible stmts = true → DefinesAfresh (Stmt.allEvents stmts) view
  | [], _, _, _, _ => by
    rw [Stmt.allEvents]
    trivial
  | stmt :: rest, _, _, hsees, h => by
    rw [Stmt.allDeclareAfresh, Bool.and_eq_true] at h
    rw [Stmt.allEvents, definesAfresh_append, Stmt.through_events stmt]
    exact ⟨stmt.definesAfresh hsees h.1, Stmt.definesAllAfresh rest (hsees.assignAll stmt.binds) h.2⟩

end

theorem Script.At.not_visible {script : Script} {constant : Bool}
    (hafresh : Stmt.allDeclareAfresh [] script.stmts = true)
    (h : script.At (.define name site constant :: events) view) : anyBinds name view = false := by
  obtain ⟨before, after, hevents, rfl⟩ := h
  have hdefines : DefinesAfresh script.events FrameShape.start :=
    Stmt.definesAllAfresh script.stmts ⟨cons_ne_nil _ _, fun _ => rfl⟩ hafresh
  rw [hevents, definesAfresh_append] at hdefines
  exact hdefines.2.1 name site constant rfl

theorem Script.exists_at {script : Script} {part : Stmt} (h : part ∈ Stmt.allParts script.stmts) :
    ∃ view, script.At part.events view := by
  obtain ⟨before, after, heq⟩ := (Stmt.allWoven script.stmts).isInfix_of_mem part h
  exact ⟨_, before, after, by rw [events, ← heq, append_assoc], rfl⟩

variable {stmt : Stmt} {e : Expr}

theorem Stmt.exists_block {block : Block} (h : (kind, block) ∈ stmt.blocks) :
    ∃ opened pre post, stmt.events = pre ++ (block.events opened ++ post) ∧ (∀ view, through pre view = view) ∧
      (kind.isStatic = false → opened.isStatic = false) := by
  unfold blocks at h
  split at h <;> simp only [mem_cons, not_mem_nil, or_false, Prod.mk.injEq] at h
  next cond onTrue _ =>
    obtain rfl : block = onTrue := h.elim And.right And.right
    exact ⟨.conditional, cond.events, [], by simp [events], cond.through_events, fun _ => rfl⟩
  next cond onTrue onFalse _ =>
    obtain rfl | rfl : block = onTrue ∨ block = onFalse := by tauto
    · exact ⟨.conditional, cond.events, onFalse.events .conditional, by simp [events], cond.through_events, fun _ => rfl⟩
    · refine ⟨.conditional, cond.events ++ onTrue.events .conditional, [], by simp [events], fun view => ?_, fun _ => rfl⟩
      rw [through_append, Expr.through_events, Block.through_events]
  next cond body _ =>
    obtain ⟨-, rfl⟩ := h
    exact ⟨.loop, cond.events, [], by simp [events], cond.through_events, fun _ => rfl⟩
  next body _ =>
    obtain ⟨rfl, rfl⟩ := h
    exact ⟨.block, [], [], by simp [events], fun _ => rfl, id⟩

theorem Stmt.exists_value (hstmt : ∀ decl span, stmt ≠ .function decl span) (h : e ∈ stmt.values) :
    ∃ pre post, stmt.events = pre ++ (e.events ++ post) ∧ ∀ ev ∈ pre, ev.isUse = true := by
  have htarget : ∀ {target : Target} {value : Expr} {write : NameEvent}, e ∈ value :: target.subscripts →
      ∃ pre post, value.events ++ target.events write = pre ++ (e.events ++ post) ∧ ∀ ev ∈ pre, ev.isUse = true := by
    intro target value write h
    obtain rfl | h := mem_cons.mp h
    · exact ⟨[], _, rfl, forall_mem_nil _⟩
    · cases target with
      | path var members => cases h
      | element var index =>
        cases mem_singleton.mp h
        exact ⟨value.events, [write], rfl, value.isUse_of_mem_events⟩
  cases stmt with
  | assign target value span | update target op value span =>
    rw [events]
    exact htarget h
  | function decl span => exact absurd rfl (hstmt decl span)
  | block body span | struct name fields methods body span => cases h
  | branch cond onTrue onFalse span =>
    cases mem_singleton.mp h
    cases onFalse <;> exact ⟨[], _, by rw [events]; rfl, forall_mem_nil _⟩
  | «return» value span =>
    cases value with
    | none => cases h
    | some value =>
      cases mem_singleton.mp h
      exact ⟨[], [], by simp [events], forall_mem_nil _⟩
  | expr value span =>
    cases mem_singleton.mp h
    exact ⟨[], [], by simp [events], forall_mem_nil _⟩
  | forEach var items body span =>
    cases mem_singleton.mp h
    obtain ⟨stmts, scope⟩ := body
    exact ⟨[], _, by rw [events]; rfl, forall_mem_nil _⟩
  | destructure | const | repeatWhile =>
    cases mem_singleton.mp h
    exact ⟨[], _, by rw [events]; rfl, forall_mem_nil _⟩

theorem Expr.exists_events {es : List Expr} (h : e ∈ es) :
    ∃ pre post, allEvents es = pre ++ (e.events ++ post) ∧ ∀ ev ∈ pre, ev.isUse = true := by
  induction es with
  | nil => cases h
  | cons first rest ih =>
    rw [allEvents]
    obtain rfl | h := mem_cons.mp h
    · exact ⟨[], _, rfl, forall_mem_nil _⟩
    · obtain ⟨pre, post, heq, hpre⟩ := ih h
      exact ⟨first.events ++ pre, post, by simp [heq], forall_mem_append.mpr ⟨first.isUse_of_mem_events, hpre⟩⟩

theorem Function.exists_events {decl : Function} {methods : List Function} (h : decl ∈ methods) :
    ∃ pre post, allEvents methods = pre ++ (decl.events .inlineFunction ++ post) ∧
      ∀ view, through pre view = view := by
  induction methods with
  | nil => cases h
  | cons first rest ih =>
    rw [allEvents]
    obtain rfl | h := mem_cons.mp h
    · exact ⟨[], _, rfl, fun _ => rfl⟩
    · obtain ⟨pre, post, heq, hpre⟩ := ih h
      refine ⟨first.events .inlineFunction ++ pre, post, by simp [heq], fun view => ?_⟩
      rw [through_append, through_events, hpre]

end Syntax

end Datapack
