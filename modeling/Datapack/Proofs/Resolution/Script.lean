import Datapack.Proofs.Resolution.Placement

/-!
What names stand for in whole scripts. A name that is resolved to a variable, in a frame with no expansion opened inside
it, is noted by the analysis with the scope that the variable knows.
-/

namespace Datapack

open Syntax FrameShape
open List hiding after

variable {source : Source} {script : Script} {env : Environment} {b key : Nat} {use : NameUse} {name : String}
  {site : Span} {s : CompilerState} {var : Variable} {q : Point} {mine rest : List FrameShape}

def Syntax.Stmt.takesReceiver : Stmt → Bool
  | .function decl _ => decl.receiver.isSome
  | _ => false

def Syntax.Stmt.declaresExpanded : Stmt → Bool
  | .function decl _ => decl.isInline
  | .struct _ _ _ _ _ => true
  | _ => false

namespace Frames

variable {fs : Frames} {stack : List (Nat × Frame)}

def isExpandingBelow (fs : Frames) (outer : Nat) : Bool :=
  (fs.ancestors.takeWhile (·.1 != outer)).any (·.2.kind == .inlineFunction)

/-- Whether the innermost body that is being expanded was declared inside a scope, and no frame around it binds a name. -/
def ExpandsWithout (fs : Frames) (scopes : ScopeMap) (owner : Span) (name : String) : Prop :=
  ∃ inside body around, fs.ancestors = inside ++ body :: around ∧ (∀ e ∈ inside, e.2.kind ≠ .inlineFunction) ∧
    body.2.kind = .inlineFunction ∧ scopes.Encloses owner body.2.scope ∧ ∀ e ∈ around, name ∉ e.2.vars.map (·.1)

theorem Stack.exists_of_find? (h : fs.Stack stack) (hfind : fs.find? name = some (key, var)) :
    ∃ below f above, fs.ancestors = below ++ (key, f) :: above ∧ (name, var) ∈ f.vars ∧
      (∀ e ∈ below, name ∉ e.2.vars.map (·.1)) ∧ fs.ancestors.takeWhile (·.1 != key) = below := by
  rw [find?, findSome?_eq_some_iff] at hfind
  obtain ⟨below, ⟨key', f⟩, above, hancestors, hvar, hbelow⟩ := hfind
  dsimp only at hvar
  split at hvar
  next var' hget =>
    obtain ⟨rfl, rfl⟩ := Prod.mk.inj (Option.some.inj hvar)
    refine ⟨below, f, above, hancestors, Ordered.mem_of_get? hget, fun e he hmem => ?_, ?_⟩
    · have hnone := hbelow e he
      rw [← contains_iff_mem, ← Ordered.isSome_get?] at hmem
      obtain ⟨other, hother⟩ := Option.isSome_iff_exists.mp hmem
      simp [hother] at hnone
    · have hdistinct := h.distinct
      rw [← h.ancestors_eq, hancestors, map_append, nodup_append'] at hdistinct
      have hkey : ∀ e ∈ below, (e.1 != key') = true := fun e he => by
        rw [bne_iff_ne]
        rintro rfl
        exact hdistinct.2.2 (mem_map_of_mem he) (by simp)
      rw [hancestors, takeWhile_append_of_pos hkey]
      simp
  next => cases hvar

end Frames

theorem FrameShape.settled_start (final : ScopeMap) : Settled final start [] start [] where
  nonempty := cons_ne_nil _ _
  matched := ⟨⟨rfl, nofun⟩, fun _ => .inl, nofun, trivial⟩
  known := nofun
  layered := .inl ⟨rfl, rfl, by simp [start]⟩
  held := ⟨fun _ => .inl, trivial⟩

theorem FrameShape.Stands.exists_body {final : ScopeMap} {beyond own outer : List FrameShape}
    (h : Stands final mine beyond own outer) (hbeyond : beyond ≠ []) :
    ∃ inner body, own = inner ++ [body] ∧ (∀ f ∈ inner, f.kind ≠ .inlineFunction) ∧ body.kind = .inlineFunction := by
  obtain ⟨hnone, -, -⟩ | ⟨-, kinds, hkinds, hown⟩ := h.layered
  · exact absurd hnone hbeyond
  · obtain ⟨inner, last, rfl, rfl, hlast⟩ := map_eq_append_iff.mp hown
    obtain ⟨body, rfl, hbody⟩ := map_eq_singleton_iff.mp hlast
    exact ⟨inner, body, rfl, fun f hf heq => hkinds (heq ▸ mem_map_of_mem hf), hbody⟩

theorem FunctionDef.Fine.form_ne_inline {parts : List Stmt} {f : FunctionDef} (h : f.Fine parts)
    (hparts : ∀ part ∈ parts, part.declaresExpanded = false) : f.form ≠ .inline := by
  intro hform
  obtain ⟨hplain, span, hdecl⟩ | ⟨-, name, fields, methods, body, span, hstruct, -⟩ := h.declared
  · have hinline := (h.expanded hform).resolve_right (by simp [hplain])
    have hnot : f.decl.isInline = false := hparts _ hdecl
    rw [hinline] at hnot
    cases hnot
  · cases hparts _ hstruct

theorem Syntax.Script.exists_placed (hparse : Script.parse source = .ok script)
    (hafresh : Stmt.allDeclareAfresh [] script.stmts = true)
    (hreceiver : ∀ part ∈ Stmt.allParts script.stmts, part.takesReceiver = false) (hreach : script.start.Reaches env q) :
    q.Sound env (Stmt.allParts script.stmts) ∧ ∃ beyond outer,
      q.piece.Placed script beyond outer q.state.shape ∧
        ((∀ part ∈ Stmt.allParts script.stmts, part.declaresExpanded = false) → beyond = [] ∧ outer = []) := by
  have hclosed := (Stmt.allWoven script.stmts).parts_subset
  have hplain : ∀ decl span, Stmt.function decl span ∈ Stmt.allParts script.stmts → decl.receiver = none :=
    fun decl span hdecl => by simpa [Stmt.takesReceiver] using hreceiver _ hdecl
  induction hreach with
  | refl =>
    have hat : script.At script.events FrameShape.start := ⟨[], [], (append_nil _).symm, rfl⟩
    exact ⟨script.sound_start env, [], [], .stmts (FrameShape.settled_start _) hat, fun _ => ⟨rfl, rfl⟩⟩
  | @tail p q _ hstep ih =>
    obtain ⟨hsound, beyond, outer, hplaced, hnone⟩ := ih
    obtain ⟨hsound', hshifts⟩ := hstep.follows hclosed hsound
    refine ⟨hsound', ?_⟩
    obtain hnext | ⟨⟨f, hfine, hform⟩, beyond', hnext⟩ := hplaced.shifts hparse hafresh hplain hsound.parts hshifts
    · exact ⟨beyond, outer, hnext, hnone⟩
    · exact ⟨beyond', _, hnext, fun hparts => absurd hform (hfine.form_ne_inline hparts)⟩

namespace CompilerState

variable {fine : FunctionDef → Prop} {final : ScopeMap} {beyond own outer : List FrameShape}

structure FoundIn (s : CompilerState) (name : String) (key : Nat) (var : Variable) (below : List (Nat × Frame))
    (f : Frame) (above : List (Nat × Frame)) : Prop where
  ancestors : s.frames.ancestors = below ++ (key, f) :: above
  frames : s.frames.ancestors.takeWhile (·.1 != key) = below
  var : (name, var) ∈ f.vars
  not_bound : ∀ e ∈ below, name ∉ e.2.shape.names

theorem InOrder.exists_foundIn (hs : s.InOrder env fine) (hfind : s.frames.find? name = some (key, var)) :
    ∃ below f above, s.FoundIn name key var below f above ∧ f.InOrder env s.IsFunction := by
  obtain ⟨stack, hstack, hframes⟩ := hs.frames
  obtain ⟨below, f, above, hancestors, hvar, hbelow, hwhile⟩ := hstack.exists_of_find? hfind
  refine ⟨below, f, above, ⟨hancestors, hwhile, hvar, hbelow⟩, hframes (key, f) ?_⟩
  rw [← hstack.ancestors_eq, hancestors]
  simp

theorem expandsWithout {scopes : ScopeMap} {owner : Span} (hshape : s.shape = own ++ outer)
    (hstands : Stands final mine beyond own outer) (howner : owner ∈ beyond.map (·.scope))
    (hencloses : ∀ f ∈ own, scopes.Encloses owner f.scope) (houter : anyBinds name outer = false) :
    s.frames.ExpandsWithout scopes owner name := by
  obtain ⟨inner, body, rfl, hinner, hbody⟩ := hstands.exists_body (by rintro rfl; cases howner)
  rw [append_assoc] at hshape
  obtain ⟨inside, rest, hancestors, rfl, hrest⟩ := map_eq_append_iff.mp hshape
  obtain ⟨frame, around, rfl, rfl, rfl⟩ := map_eq_cons_iff.mp hrest
  refine ⟨inside, frame, around, hancestors, fun e he => hinner _ (mem_map_of_mem he), hbody, ?_, fun e he hmem => ?_⟩
  · exact hencloses frame.2.shape (by simp)
  · rw [anyBinds_eq_true.mpr ⟨_, mem_map_of_mem he, hmem⟩] at houter
    cases houter

namespace FoundIn

variable {below above : List (Nat × Frame)} {f : Frame}

section

variable (h : s.FoundIn name key var below f above)

include h

theorem shape_eq : s.shape = below.map (·.2.shape) ++ f.shape :: above.map (·.2.shape) := by
  rw [CompilerState.shape, h.ancestors, map_append, map_cons]

theorem mem_names : name ∈ f.shape.names := mem_map_of_mem h.var

theorem exists_own (hshape : s.shape = own ++ outer) (hstands : Stands final mine beyond own outer)
    (hbelow : s.frames.isExpandingBelow key = false) : ∃ rest, own = below.map (·.2.shape) ++ f.shape :: rest := by
  rw [h.shape_eq, append_eq_append_iff] at hshape
  rw [Frames.isExpandingBelow, h.frames, any_eq_false] at hbelow
  have hout : ∀ {pre}, below.map (·.2.shape) = own ++ pre → outer = [] := by
    intro pre hpre
    obtain ⟨-, houter, -⟩ | ⟨-, inner, -, hkinds⟩ := hstands.layered
    · exact houter
    · have hkind : .inlineFunction ∈ own.map (·.kind) := by simp [hkinds]
      obtain ⟨g, hg, hinline⟩ := mem_map.mp hkind
      have hmem : g ∈ below.map (·.2.shape) := hpre ▸ mem_append_left _ hg
      obtain ⟨e, he, rfl⟩ := mem_map.mp hmem
      exact absurd (beq_iff_eq.mpr hinline) (hbelow e he)
  obtain ⟨more, hown, hmore⟩ | ⟨pre, hpre, houter⟩ := hshape
  · cases more with
    | nil =>
      have hall : below.map (·.2.shape) = own ++ [] := by rw [hown, append_nil, append_nil]
      rw [hout hall] at hmore
      cases hmore
    | cons g more =>
      obtain ⟨rfl, -⟩ := List.cons.inj hmore
      exact ⟨more, hown⟩
  · rw [hout hpre] at houter
    simp at houter

theorem owner?_eq (hown : own = below.map (·.2.shape) ++ f.shape :: rest)
    (hstands : Stands final mine beyond own outer) :
    ∃ owner, owner? name (mine ++ beyond) = some owner ∧ (owner = f.scope ∨ owner ∈ beyond.map (·.scope) ∧
      anyBinds name outer = false ∧ ∃ site, final.NotesWrite owner name ⟨site, f.scope⟩) := by
  have hmatched := hstands.matched
  rw [hown] at hmatched
  refine hmatched.owner?_of_bound h.mem_names fun g hg => ?_
  obtain ⟨e, he, rfl⟩ := mem_map.mp hg
  exact h.not_bound e he

end

end FoundIn

end CompilerState

namespace Syntax.Script

/-- Names stand for what the analysis has noted. A name that is resolved to a variable is known in the variable's scope.
If no expansion was opened inside the variable's frame, the use is noted with that scope. The one exception is a body that
is expanded where the variable that a name means, declared around the body, is not bound: an assignment, noted with the
scope of that variable, binds the name in the body. An assignment that finds no variable is the declaration on both sides,
with the same exception. -/
theorem resolves_as_noted (hparse : Script.parse source = .ok script)
    (hafresh : Stmt.allDeclareAfresh [] script.stmts = true)
    (hreceiver : ∀ part ∈ Stmt.allParts script.stmts, part.takesReceiver = false)
    (hreach : script.start.Reaches env ⟨b, .name use name site, s⟩) :
    (∀ key var, s.frames.find? name = some (key, var) →
      (Analysis.of script).scopes.Knows name var.scope ∧
        (s.frames.isExpandingBelow key = false →
          ∃ owner scope, (Analysis.of script).scopes.Holds use owner name ⟨site, scope⟩ ∧
            (owner = var.scope ∨ s.frames.ExpandsWithout (Analysis.of script).scopes owner name ∧
              ∃ site, (Analysis.of script).scopes.NotesWrite owner name ⟨site, var.scope⟩))) ∧
      (use = .assign → s.frames.find? name = none →
        (Analysis.of script).scopes.NotesDeclaration s.frames.top.scope name ⟨site, s.frames.top.scope⟩ ∨
          ∃ owner, s.frames.ExpandsWithout (Analysis.of script).scopes owner name ∧
            (Analysis.of script).scopes.NotesWrite owner name ⟨site, s.frames.top.scope⟩) := by
  obtain ⟨hsound, beyond, outer, ⟨mine, own, hshape, hstands, hat, hfits⟩, -⟩ :=
    exists_placed hparse hafresh hreceiver hreach
  obtain ⟨hnotes, hheld⟩ := hfits _ (List.mem_singleton.mpr rfl)
  have hs : s.InOrder env (FunctionDef.Fine (Stmt.allParts script.stmts)) := hsound.inOrder
  obtain ⟨-, hkeys⟩ := outline_scopes hparse
  obtain ⟨hstacked, -⟩ := hat.seen hparse
  have hencloses : ∀ owner ∈ beyond.map (·.scope), ∀ f ∈ own, (Analysis.of script).scopes.Encloses owner f.scope := by
    intro owner howner f hf
    have hmem : f.scope ∈ mine.map (·.scope) := hstands.matched.scopes ▸ List.mem_map_of_mem hf
    obtain ⟨v, hv, hscope⟩ := List.mem_map.mp hmem
    exact hscope ▸ hstacked.encloses hkeys hv howner
  have hexpands : ∀ owner ∈ beyond.map (·.scope), anyBinds name outer = false →
      s.frames.ExpandsWithout (Analysis.of script).scopes owner name := fun owner howner =>
    CompilerState.expandsWithout hshape hstands howner (hencloses owner howner)
  refine ⟨fun key var hfind => ?_, fun huse hfind => ?_⟩
  · obtain ⟨below, f, above, hfound, hframe⟩ := hs.exists_foundIn hfind
    have hscope : var.scope = f.scope := hframe.scope _ hfound.var
    rw [hscope]
    refine ⟨hstands.knows hparse hat f.shape ?_ name hfound.mem_names, fun hbelow => ?_⟩
    · rw [← hshape, hfound.shape_eq]
      simp
    · obtain ⟨rest, hown⟩ := hfound.exists_own hshape hstands hbelow
      obtain ⟨owner, howner, hwhere⟩ := hfound.owner?_eq hown hstands
      obtain ⟨scope, hholds, -⟩ := hnotes.held owner howner
      exact ⟨owner, scope, hholds, hwhere.imp_right fun ⟨hmem, houter, hwrite⟩ => ⟨hexpands owner hmem houter, hwrite⟩⟩
  · obtain ⟨f, rest, rfl⟩ := List.exists_cons_of_ne_nil hstands.nonempty
    obtain ⟨frames, htop⟩ := Compile.Ends.shape_top hs
    obtain ⟨rfl, -⟩ : f = s.frames.top.shape ∧ rest ++ outer = frames := List.cons.inj (hshape.symm.trans htop)
    have hcurrent : FrameShape.current (mine ++ beyond) = s.frames.top.scope := hstands.current
    have hnone : FrameShape.anyBinds name s.shape = false := by rw [← Compile.isSome_find?, hfind, Option.isSome_none]
    cases howner : owner? name (mine ++ beyond) with
    | none => exact .inl (hcurrent ▸ hnotes.declared huse howner)
    | some owner =>
      -- Nothing binds the name, so no scope of the body declares it.
      have hmine : anyBinds name mine = false := by
        rw [← Bool.not_eq_true]
        intro hmine
        rw [hshape, (hheld huse).bound hstands.matched hmine] at hnone
        cases hnone
      have hbeyond : owner ∈ beyond.map (·.scope) := by
        obtain ⟨inner, g, out, heq, rfl, hg, -⟩ := owner?_eq_some_iff.mp howner
        have hmem : g ∈ mine ++ beyond := heq ▸ List.mem_append_right _ List.mem_cons_self
        refine List.mem_map_of_mem ((List.mem_append.mp hmem).resolve_left fun hmem => ?_)
        rw [anyBinds_eq_true.mpr ⟨g, hmem, hg⟩] at hmine
        cases hmine
      obtain ⟨scope, hholds, hscope⟩ := hnotes.held owner howner
      obtain rfl := huse
      obtain rfl : scope = s.frames.top.scope := (hscope (.inl rfl)).trans hcurrent
      rw [hshape, anyBinds_append, Bool.or_eq_false_iff] at hnone
      exact .inr ⟨owner, hexpands owner hbeyond hnone.2, hholds⟩

end Syntax.Script

section

open Compile Point

def Environment.rainy : Environment := ⟨Source.rainy, {}, {}, (Analysis.of Syntax.rainy).scopes⟩

theorem Syntax.reaches_rainy : ∃ s key var, rainy.start.Reaches Environment.rainy
    ⟨32, .name .assign "x" ⟨25, 30⟩, s⟩ ∧ s.frames.find? "x" = some (key, var) ∧ var.scope = .zero ∧
      s.frames.isExpandingBelow key = false ∧ s.frames.ancestors.all (·.2.kind != .inlineFunction) = true := by
  have hbefore := reaches_drop Environment.rainy rainy 1 rfl
  have hassign : ∀ {s}, LeadsStmt Environment.rainy 32 s (.assign (.path "x" []) (.int 2 ⟨29, 30⟩) ⟨25, 30⟩)
      ⟨32, .name .assign "x" ⟨25, 30⟩, s⟩ := .assign rfl rfl
  have hbranch := (hbefore.tail .head).tail (.stmt (.onTrue (yields_of_fst rfl) (yields_of_fst rfl)))
  exact ⟨_, _, _, ((hbranch.tail .block).tail .head).tail (.stmt hassign), rfl, rfl, rfl, rfl⟩

/-- The write in the branch is noted with the scope of the variable. -/
theorem Syntax.Script.resolves_as_noted_rainy : ∃ s key var scope, Syntax.rainy.start.Reaches Environment.rainy
    ⟨32, .name .assign "x" ⟨25, 30⟩, s⟩ ∧ s.frames.find? "x" = some (key, var) ∧
      (Analysis.of Syntax.rainy).scopes.NotesWrite var.scope "x" ⟨⟨25, 30⟩, scope⟩ := by
  obtain ⟨s, key, var, hreach, hfind, -, hbelow, hkinds⟩ := reaches_rainy
  obtain ⟨owner, scope, hholds, howner⟩ := ((resolves_as_noted parse_rainy rfl (by decide) hreach).1 key var hfind).2 hbelow
  obtain rfl | ⟨⟨inside, body, around, hancestors, -, hbody, -⟩, -⟩ := howner
  · exact ⟨s, key, var, scope, hreach, hfind, hholds⟩
  · rw [hancestors] at hkinds
    simp [hbody] at hkinds

def Source.captured : Source where
  name := "captured"
  code := "inline fun f() { t = 1 } t = 5 f()"

def Syntax.setter : Function :=
  ⟨"f", true, none, [], none, ⟨[.assign (.path "t" []) (.int 1 ⟨21, 22⟩) ⟨17, 22⟩], ⟨15, 24⟩⟩, ⟨7, 24⟩⟩

def Syntax.captured : Script where
  stmts := [.function setter ⟨0, 24⟩, .assign (.path "t" []) (.int 5 ⟨29, 30⟩) ⟨25, 30⟩,
    .expr (.call (.var "f" ⟨31, 32⟩) [] ⟨31, 34⟩) ⟨31, 34⟩]
  span := ⟨0, 34⟩

def Environment.captured : Environment := ⟨Source.captured, {}, {}, (Analysis.of Syntax.captured).scopes⟩

def CompilerState.captured : CompilerState :=
  { ((Stmt.compileAll (expandWithin expansionDepth) (Syntax.captured.stmts.take 2) Environment.captured).run .start).2 with
    location := ⟨31, 34⟩ }

def CompilerState.capturing : CompilerState :=
  ((enterExpanded ⟨⟨"f", [], .any, false⟩, Syntax.setter, .inline⟩ none [] Environment.captured).run
    (opened .inlineFunction ⟨15, 24⟩ captured)).2

theorem Syntax.reaches_captured : captured.start.Reaches Environment.captured
    ⟨31, .name .assign "t" ⟨17, 22⟩, { CompilerState.capturing with location := ⟨17, 22⟩ }⟩ := by
  have hbefore := reaches_drop Environment.captured captured 2 rfl
  have hcall : LeadsExpr Environment.captured 32 CompilerState.captured (.call (.var "f" ⟨31, 32⟩) [] ⟨31, 34⟩)
      ⟨32, .call 0 none ⟨31, 32⟩ [] ⟨31, 34⟩, CompilerState.captured⟩ := .call (by simp) rfl rfl
  have hexpansion : Leads Environment.captured ⟨32, .call 0 none ⟨31, 32⟩ [] ⟨31, 34⟩, CompilerState.captured⟩
      ⟨31, .stmts setter.body.stmts, CompilerState.capturing⟩ :=
    .expansion (f := ⟨⟨"f", [], .any, false⟩, Syntax.setter, .inline⟩) rfl rfl rfl (yields_of_fst rfl)
  have hassign : LeadsStmt Environment.captured 31 { CompilerState.capturing with location := ⟨17, 22⟩ }
      (.assign (.path "t" []) (.int 1 ⟨21, 22⟩) ⟨17, 22⟩)
      ⟨31, .name .assign "t" ⟨17, 22⟩, { CompilerState.capturing with location := ⟨17, 22⟩ }⟩ :=
    .assign rfl rfl
  exact (((((hbefore.tail .head).tail (.stmt .expr)).tail (.expr hcall)).tail hexpansion).tail .head).tail (.stmt hassign)

/-- A body that is expanded writes the variable of its caller, where the analysis has a variable of its own. -/
theorem Syntax.Script.captured_resolves_outside : ∃ s key var,
    (Environment.captured.compile Syntax.captured).isOk = true ∧ (Analysis.of Syntax.captured).errors = [] ∧
      Syntax.captured.start.Reaches Environment.captured ⟨31, .name .assign "t" ⟨17, 22⟩, s⟩ ∧
      s.frames.find? "t" = some (key, var) ∧
      (∀ scope, ¬ (Analysis.of Syntax.captured).scopes.Holds .assign var.scope "t" ⟨⟨17, 22⟩, scope⟩) ∧
      ¬ (Analysis.of Syntax.captured).scopes.NotesDeclaration var.scope "t" ⟨⟨17, 22⟩, var.scope⟩ := by
  refine ⟨_, 0, _, by decide +kernel, by decide +kernel, reaches_captured, rfl, fun scope => ?_, ?_⟩
  · rintro ⟨r, d, hr, hd, haccess⟩
    obtain rfl := Option.some.inj hr
    obtain rfl := Option.some.inj hd
    cases haccess
  · rintro ⟨r, d, hr, hd, haccess⟩
    obtain rfl := Option.some.inj hr
    obtain rfl := Option.some.inj hd
    cases haccess

end

theorem FrameShape.Matches.requiresStorage {final scopes : ScopeMap} {below : List FrameShape} {f g : FrameShape}
    (h : Matches final [] [] mine (below ++ f :: rest)) (hstacked : Trail.Stacked scopes.outline mine)
    (hkeys : (scopes.map Prod.fst).Nodup) (hg : g ∈ below) (hdynamic : g.kind.isStatic = false)
    (hwrite : scopes.NotesWrite f.scope name ⟨site, current mine⟩) : scopes.requiresStorage f.scope name = true := by
  obtain ⟨inner, v, out, rfl, hscope, hinner⟩ := h.exists_split
  rw [← hscope] at hwrite ⊢
  have hrecord := hwrite
  obtain ⟨record, -, hrecord, -⟩ := hrecord
  have hpath := (ScopeMap.exists_dynamic_iff hkeys hstacked hrecord).mpr (hinner g hg hdynamic)
  exact ScopeMap.requiresStorage_iff.mpr ⟨record, _, hrecord, hwrite, hpath⟩

namespace Point

variable {p : Point}

theorem Leads.exists_inline (h : Leads env p q) (hq : q.piece = .name .assignBack name site) :
    ∃ (id : Nat) (f : FunctionDef), p.state.functions[id]? = some f ∧ f.form = .inline := by
  cases h with
  | expr h => cases h <;> simp at hq
  | stmt h =>
    cases h
    case assign =>
      obtain ⟨huse, -⟩ := Piece.name.inj hq
      split at huse <;> cases huse
    all_goals simp at hq
  | assignBack hf hform => exact ⟨_, _, hf, hform⟩
  | _ => simp at hq

end Point

namespace Syntax.Script

theorem not_refuses (hparse : Script.parse source = .ok script) (hscopes : env.scopes = (Analysis.of script).scopes)
    (hafresh : Stmt.allDeclareAfresh [] script.stmts = true)
    (hreceiver : ∀ part ∈ Stmt.allParts script.stmts, part.takesReceiver = false)
    (hexpanded : ∀ part ∈ Stmt.allParts script.stmts, part.declaresExpanded = false)
    (hreach : script.start.Reaches env ⟨b, .name use name site, s⟩) (huse : use.isWrite = true) : ¬ s.Refuses name := by
  rintro ⟨key, var, hfind, hconstant, hslot, hdynamic⟩
  obtain ⟨hsound, beyond, outer, ⟨mine, own, hshape, hstands, hat, hfits⟩, hnone⟩ :=
    exists_placed hparse hafresh hreceiver hreach
  obtain ⟨rfl, rfl⟩ := hnone hexpanded
  obtain ⟨hnotes, -⟩ := hfits _ (mem_singleton.mpr rfl)
  have hs : s.InOrder env (FunctionDef.Fine (Stmt.allParts script.stmts)) := hsound.inOrder
  obtain ⟨below, f, above, hfound, hframe⟩ := hs.exists_foundIn hfind
  have hinline : ∀ g ∈ own, g.kind ≠ .inlineFunction := by
    obtain ⟨-, -, hinline⟩ | ⟨hnonempty, -⟩ := hstands.layered
    · exact fun g hg heq => hinline (heq ▸ mem_map_of_mem hg)
    · exact absurd rfl hnonempty
  have hbelow : s.frames.isExpandingBelow key = false := by
    rw [Frames.isExpandingBelow, hfound.frames, any_eq_false]
    intro e he
    rw [beq_iff_eq]
    refine hinline e.2.shape ?_
    rw [← append_nil own, ← hshape, hfound.shape_eq]
    exact mem_append_left _ (mem_map_of_mem he)
  obtain ⟨rest, hown⟩ := hfound.exists_own hshape hstands hbelow
  obtain ⟨owner, howner, hwhere⟩ := hfound.owner?_eq hown hstands
  obtain rfl : owner = f.scope := hwhere.resolve_right fun hloose => not_mem_nil hloose.1
  obtain ⟨scope, hholds, hscope⟩ := hnotes.held _ howner
  have hwrite : (Analysis.of script).scopes.NotesWrite f.scope name ⟨site, FrameShape.current (mine ++ [])⟩ := by
    cases use with
    | read | receiver => cases huse
    | assign => exact hscope (.inl rfl) ▸ hholds
    | part => exact hscope (.inr rfl) ▸ hholds
    | assignBack =>
      obtain heq | ⟨p, hp, hstep⟩ := Relation.ReflTransGen.cases_tail hreach
      · cases congrArg Point.piece heq
      · obtain ⟨id, g, hg, hform⟩ := hstep.exists_inline rfl
        have hsound' := (script.sound_start env).reaches (Stmt.allWoven script.stmts).parts_subset hp
        exact absurd hform ((hsound'.inOrder.functions id g hg).1.form_ne_inline hexpanded)
  obtain ⟨e, he, hkind⟩ : ∃ e ∈ below, e.2.kind.isStatic = false := by
    rw [Frames.isDynamicBelow, Frames.firstDynamic?, hfound.frames, find?_isSome] at hdynamic
    obtain ⟨g, hg, hkind⟩ := hdynamic
    obtain ⟨e, he, rfl⟩ := mem_map.mp hg
    exact ⟨e, he, by simpa using hkind⟩
  obtain ⟨-, hkeys⟩ := outline_scopes hparse
  obtain ⟨hstacked, -⟩ := hat.seen hparse
  have hmatched := hstands.matched
  rw [hown] at hmatched
  rw [append_nil] at hstacked hwrite
  have hrequires := hmatched.requiresStorage hstacked hkeys (mem_map_of_mem he) hkind hwrite
  obtain hnot | ⟨-, hkind⟩ := hframe.storage _ hfound.var hslot hconstant
  · rw [hscopes] at hnot
    exact absurd hrequires (by rw [show f.shape.scope = f.scope from rfl, hnot]; simp)
  · exact hinline f.shape (by simp [hown]) hkind

end Syntax.Script

/-- Scripts without functions that are expanded and without names that are declared over visible ones: no assignment is
refused for want of a slot, and every variable that is written under runtime control has one. -/
theorem Analyzed.written_has_slot {source : Source} {a : Analyzed} (ha : Analyzed.of source = .ok a)
    (hafresh : Stmt.allDeclareAfresh [] a.script.stmts = true)
    (hexpanded : ∀ part ∈ Stmt.allParts a.script.stmts, part.declaresExpanded = false)
    (hreceiver : ∀ part ∈ Stmt.allParts a.script.stmts, part.takesReceiver = false) (settings : Settings)
    (catalogue : Catalogue) :
    (∀ name span, a.program source settings catalogue ≠ .error ⟨.staticWrite name, span⟩) ∧
      ∀ b use name site s,
        a.script.start.Reaches ⟨source, settings, catalogue, a.analysis.scopes⟩ ⟨b, .name use name site, s⟩ →
          use.isWrite = true → ∀ key var, s.frames.find? name = some (key, var) → var.constant = false →
            s.frames.isDynamicBelow key = true → ∃ slot, var.slot = some slot := by
  obtain ⟨hparse, hanalysis⟩ : Script.parse source = .ok a.script ∧ a.analysis = .of a.script := by
    unfold Analyzed.of at ha
    split at ha
    next hparse =>
      obtain rfl := Except.ok.inj ha
      exact ⟨hparse, rfl⟩
    next => cases ha
  rw [program, hanalysis]
  refine ⟨fun name span herror => ?_, fun b use name site s hreach huse key var hfind hconstant hdynamic => ?_⟩
  · obtain ⟨b, use, name, site, s, hreach, huse, hrefuses⟩ := Environment.stuck_of_compile herror rfl
    exact Script.not_refuses hparse rfl hafresh hreceiver hexpanded hreach huse hrefuses
  · rw [← Option.isSome_iff_exists, ← Option.ne_none_iff_isSome]
    intro hslot
    exact Script.not_refuses hparse rfl hafresh hreceiver hexpanded hreach huse ⟨key, var, hfind, hconstant, hslot, hdynamic⟩

def Source.countdown : Source where
  name := "countdown"
  code := "x = 0 fun f(n: Number) { while (n >= 1) { n = n - 1 x = x + n } } f(3)"

theorem Analyzed.written_has_slot_countdown :
    ∃ a, Analyzed.of Source.countdown = .ok a ∧
      ∀ name span, a.program Source.countdown {} {} ≠ .error ⟨.staticWrite name, span⟩ := by
  have hchecks : (Analyzed.of Source.countdown).toOption.any (fun a => Stmt.allDeclareAfresh [] a.script.stmts &&
      (Stmt.allParts a.script.stmts).all (fun part => !part.declaresExpanded && !part.takesReceiver)) = true := by
    decide +kernel
  cases ha : Analyzed.of Source.countdown with
  | error error =>
    rw [ha] at hchecks
    cases hchecks
  | ok a =>
    rw [ha] at hchecks
    simp only [Except.toOption, Option.any_some, Bool.and_eq_true, List.all_eq_true, Bool.not_eq_true'] at hchecks
    exact ⟨a, rfl, (written_has_slot ha hchecks.1 (fun part hpart => (hchecks.2 part hpart).1)
      (fun part hpart => (hchecks.2 part hpart).2) {} {}).1⟩

def Source.selfish : Source where
  name := "selfish"
  code := "fun f(self) { if (isRaining()) { self = 1 if (isRaining()) { self = 2 } } }"

/-- The receiver of a function that is no method is declared in its scope but not bound in its frame, so that an
assignment binds it further in, where nothing asks for a slot. -/
theorem Analyzed.selfish_refused :
    ∃ a, Analyzed.of Source.selfish = .ok a ∧ Stmt.allDeclareAfresh [] a.script.stmts = true ∧
      (∀ part ∈ Stmt.allParts a.script.stmts, part.declaresExpanded = false) ∧ a.analysis.errors = [] ∧
        ∃ span, a.program Source.selfish {} {} = .error ⟨.staticWrite "self", span⟩ := by
  have hchecks : (Analyzed.of Source.selfish).toOption.any (fun a => Stmt.allDeclareAfresh [] a.script.stmts &&
      (Stmt.allParts a.script.stmts).all (fun part => !part.declaresExpanded) && a.analysis.errors.isEmpty &&
        Except.casesOn (motive := fun _ => Bool) (a.program Source.selfish {} {})
          (fun error => error.fault == .staticWrite "self") fun _ => false) = true := by
    decide +kernel
  cases ha : Analyzed.of Source.selfish with
  | error error =>
    rw [ha] at hchecks
    cases hchecks
  | ok a =>
    rw [ha] at hchecks
    simp only [Except.toOption, Option.any_some, Bool.and_eq_true, List.all_eq_true, Bool.not_eq_true',
      List.isEmpty_iff] at hchecks
    obtain ⟨⟨⟨hafresh, hexpanded⟩, herrors⟩, hprogram⟩ := hchecks
    refine ⟨a, rfl, hafresh, hexpanded, herrors, ?_⟩
    cases hp : a.program Source.selfish {} {} with
    | error error =>
      rw [hp] at hprogram
      obtain ⟨fault, span⟩ := error
      obtain rfl : fault = .staticWrite "self" := beq_iff_eq.mp hprogram
      exact ⟨span, rfl⟩
    | ok _ =>
      rw [hp] at hprogram
      cases hprogram

end Datapack
