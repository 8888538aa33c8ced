import Datapack.Proofs.Resolution.Agreement

/-!
Every point that a compilation reaches has its place in the script: the frames that are open at the point stand for the
scopes that are open at the place, and all uses of names that are compiled from there are noted with what is visible at
the place.
-/

namespace Datapack

open Syntax FrameShape
open List hiding after

variable {kind : ScopeKind} {outer view mine beyond own : List FrameShape} {source : Source} {script : Script}
  {decl : Function}

theorem Syntax.Stmt.not_inline_of_mem_blocks {stmt : Stmt} {block : Block}
    (h : (kind, block) ∈ stmt.blocks) : kind ≠ .inlineFunction := by
  rintro rfl
  unfold Stmt.blocks at h
  split at h <;> simp at h

theorem Trail.Stacked.encloses {scopes : ScopeMap} {inner : List FrameShape} {g : FrameShape} {owner : Span}
    (h : Stacked scopes.outline (inner ++ outer)) (hkeys : (scopes.map Prod.fst).Nodup) (hg : g ∈ inner)
    (howner : owner ∈ outer.map (·.scope)) : scopes.Encloses owner g.scope := by
  obtain ⟨f, hf, rfl⟩ := mem_map.mp howner
  obtain ⟨nest, hnest, hkey, -⟩ := h.known f (mem_append_right _ hf)
  obtain ⟨r, hr, -, hinner⟩ := ScopeMap.exists_of_mem_outline hkeys hnest
  obtain ⟨pre, rest, rfl⟩ := append_of_mem hg
  have hsuffix : g :: (rest ++ outer) <:+ pre ++ g :: rest ++ outer := ⟨pre, by simp⟩
  refine ⟨r, hkey ▸ hr, hinner ▸ (h.inner _ _ hsuffix nest hnest).mpr ?_⟩
  rw [hkey, map_append]
  exact mem_append_right _ howner

theorem FrameShape.Notes.of_owner? {final : ScopeMap} {view' : List FrameShape} {use : NameUse} {name : String}
    {site : Span} (h : Notes final view' use name site) (howner : owner? name view' = owner? name view)
    (huse : use ≠ .assign ∧ use ≠ .part) : Notes final view use name site := by
  refine ⟨fun key hkey => ?_, fun hassign => absurd hassign huse.1⟩
  obtain ⟨scope, hholds, -⟩ := h.held key (howner.trans hkey)
  exact ⟨scope, hholds, fun htarget => (htarget.elim huse.1 huse.2).elim⟩

section

variable {events : List NameEvent}

theorem FrameShape.Stands.knows (h : Stands (Analysis.of script).scopes mine beyond own outer)
    (hparse : Script.parse source = .ok script) (hat : script.At events (mine ++ beyond)) :
    ∀ f ∈ own ++ outer, ∀ name ∈ f.names, (Analysis.of script).scopes.Knows name f.scope := by
  obtain ⟨-, hkeys⟩ := Script.outline_scopes hparse
  obtain ⟨hstacked, hdeclares⟩ := hat.seen hparse
  intro f hf name hname
  obtain hf | hf := mem_append.mp hf
  · obtain ⟨v, hv, hscope, hdeclared⟩ := h.matched.declared hf hname
    rw [← hscope]
    obtain hdeclared | hbeyond := hdeclared
    · exact ⟨v.scope, .inl rfl, hdeclares v (mem_append_left _ hv) name hdeclared⟩
    · obtain ⟨w, hw, hdeclared⟩ := anyBinds_eq_true.mp hbeyond
      exact ⟨w.scope, .inr (hstacked.encloses hkeys hv (mem_map_of_mem hw)),
        hdeclares w (mem_append_right _ hw) name hdeclared⟩
  · exact h.known f hf name hname

theorem Syntax.Script.At.function (h : script.At (decl.events kind) view) :
    script.At (Expr.allEvents (decl.params.filterMap (·.default?))) view ∧
      script.At (Stmt.allEvents decl.body.stmts)
        (⟨kind, decl.body.span, boundNames decl.receiver decl.params⟩ :: view) := by
  obtain ⟨_, _, receiver, params, _, ⟨stmts, span⟩, _⟩ := decl
  rw [Function.events] at h
  refine ⟨h.part [] rfl, ?_⟩
  have hevents : Expr.allEvents (params.filterMap (·.default?)) ++
      NameEvent.within span kind (boundEvents receiver params ++ Stmt.allEvents stmts) =
        (Expr.allEvents (params.filterMap (·.default?)) ++ .enter span kind :: boundEvents receiver params) ++
          (Stmt.allEvents stmts ++ [.leave]) := by simp [NameEvent.within]
  have hbody := h.part _ hevents
  rwa [through_append, Expr.through_allEvents, through_cons, through_boundEvents, after, bindAll_cons] at hbody

theorem Syntax.Script.At.written {value : Expr} {target : Target} {write : NameEvent}
    (h : script.At (value.events ++ target.events write) view) : script.At [write] view := by
  cases target with
  | path var members => exact h.after_uses rfl value.isUse_of_mem_events
  | element var index =>
    refine h.after_uses (append_assoc ..).symm (forall_mem_append.mpr ⟨value.isUse_of_mem_events, ?_⟩)
    exact index.isUse_of_mem_events

theorem Syntax.Script.At.method {structName : String} {methods : List Function} {body span : Span}
    (h : script.At (.define structName span false :: NameEvent.within body .struct (Function.allEvents methods)) view)
    (hdecl : decl ∈ methods) :
    script.At (decl.events .inlineFunction) (⟨.struct, body, []⟩ :: FrameShape.assign structName view) := by
  obtain ⟨pre, post, heq, hpre⟩ := Function.exists_events hdecl
  have hevents : NameEvent.within body .struct (Function.allEvents methods) =
      (.enter body .struct :: pre) ++ (decl.events .inlineFunction ++ (post ++ [.leave])) := by simp [NameEvent.within, heq]
  have hmethod := h.tail.part _ hevents
  rwa [through_cons, hpre] at hmethod

end

namespace Piece

def Fits (script : Script) (mine beyond own outer : List FrameShape) : Piece → Prop
  | .stmt code => Held outer mine own ∧ script.At code.events (mine ++ beyond)
  | .stmts code => Held outer mine own ∧ script.At (Stmt.allEvents code) (mine ++ beyond)
  | .block kind code => Held outer mine own ∧ kind ≠ .inlineFunction ∧
      ∃ opened, script.At (code.events opened) (mine ++ beyond) ∧ (kind.isStatic = false → opened.isStatic = false)
  | p => ∀ u ∈ p.uses, Notes (Analysis.of script).scopes (mine ++ beyond) u.1 u.2.1 u.2.2 ∧
      (u.1 = .assign → Held outer mine own)

/-- Whether a piece has a place in a script at which the open frames stand for the open scopes, with given scopes beyond
its body and frames around it. -/
def Placed (script : Script) (beyond outer : List FrameShape) (p : Piece) (shape : List FrameShape) : Prop :=
  ∃ mine own, shape = own ++ outer ∧ Stands (Analysis.of script).scopes mine beyond own outer ∧
    script.At [] (mine ++ beyond) ∧ p.Fits script mine beyond own outer

variable {shape shape' : List FrameShape} {p q : Piece}

theorem fits_value (h : p.isValue = true) : p.Fits script mine beyond own outer ↔
    ∀ u ∈ p.uses, Notes (Analysis.of script).scopes (mine ++ beyond) u.1 u.2.1 u.2.2 ∧
      (u.1 = .assign → Held outer mine own) := by
  cases p <;> first | exact Iff.rfl | cases h

theorem Placed.expr {e : Expr} (hparse : Script.parse source = .ok script)
    (h : Stands (Analysis.of script).scopes mine beyond own outer) (hat : script.At e.events (mine ++ beyond)) :
    (Piece.expr e).Placed script beyond outer (own ++ outer) := by
  refine ⟨mine, own, rfl, h, hat.part [] rfl, fun u hu => ⟨hat.notes_uses hparse hu, fun hassign => ?_⟩⟩
  exact absurd hassign (NameEvent.not_write_of_mem_uses u hu).1

theorem Placed.name {name : String} {site : Span} (hparse : Script.parse source = .ok script)
    (h : Settled (Analysis.of script).scopes mine beyond own outer) (plain : Bool)
    (hat : script.At [if plain then .assign name site else .part name site] (mine ++ beyond)) :
    (Piece.name (if plain then .assign else .part) name site).Placed script beyond outer (own ++ outer) :=
  ⟨mine, own, rfl, h.toStands, hat.part [] rfl,
    forall_mem_singleton.mpr ⟨hat.notes_write hparse h.view_ne_nil plain, fun _ => h.held⟩⟩

theorem Placed.stmts {stmts : List Stmt} (h : Settled (Analysis.of script).scopes mine beyond own outer)
    (hat : script.At (Stmt.allEvents stmts) (mine ++ beyond)) :
    (Piece.stmts stmts).Placed script beyond outer (own ++ outer) :=
  ⟨mine, own, rfl, h.toStands, hat.part [] rfl, h.held, hat⟩

theorem Placed.expanded {receiver : Option Receiver} (hat : script.At (decl.events .inlineFunction) view)
    (houter : outer ≠ []) (hknown : ∀ f ∈ outer, ∀ name ∈ f.names, (Analysis.of script).scopes.Knows name f.scope)
    (hreceiver : receiver.isSome = true ∨ decl.receiver = none) :
    (Piece.stmts decl.body.stmts).Placed script view outer
      (⟨.inlineFunction, decl.body.span, Compile.enteredNames decl receiver⟩ :: outer) := by
  have hnames : Compile.enteredNames decl receiver = boundNames decl.receiver decl.params := by
    unfold Compile.enteredNames boundNames
    cases hdecl : decl.receiver <;> simp_all
  rw [hnames]
  have hstands : Stands (Analysis.of script).scopes
      [⟨.inlineFunction, decl.body.span, boundNames decl.receiver decl.params⟩] view
      [⟨.inlineFunction, decl.body.span, boundNames decl.receiver decl.params⟩] outer := by
    refine ⟨cons_ne_nil _ _, ?_, hknown, .inr ⟨houter, [], not_mem_nil, rfl⟩⟩
    exact ⟨⟨rfl, nofun⟩, fun _ => .inl, fun _ _ _ => rfl, trivial⟩
  exact stmts ⟨hstands, fun _ => .inl, trivial⟩ hat.function.2

theorem Placed.shifts (hparse : Script.parse source = .ok script)
    (hafresh : Stmt.allDeclareAfresh [] script.stmts = true)
    (hreceiver : ∀ decl span, Stmt.function decl span ∈ Stmt.allParts script.stmts → decl.receiver = none)
    (h : p.Placed script beyond outer shape) (hp : p.parts ⊆ Stmt.allParts script.stmts)
    (hshift : Shifts (Stmt.allParts script.stmts) p shape q shape') :
    q.Placed script beyond outer shape' ∨
      (∃ f : FunctionDef, f.Fine (Stmt.allParts script.stmts) ∧ f.form = .inline) ∧
        ∃ beyond', q.Placed script beyond' shape shape' := by
  obtain ⟨mine, own, rfl, hstands, hplace, hfits⟩ := h
  cases hshift with
  | within hp hq huses =>
    refine .inl ⟨mine, own, rfl, hstands, hplace, (fits_value hq).mpr fun u hu => ?_⟩
    exact (fits_value hp).mp hfits u (huses hu)
  | @value stmt e _ he =>
    obtain ⟨hheld, hat⟩ := hfits
    by_cases hfunction : ∃ decl span, stmt = .function decl span
    · obtain ⟨decl, span, rfl⟩ := hfunction
      -- a function is declared before its default values, but its frame binds it after them
      rw [Stmt.events] at hat
      obtain ⟨mine', hmine, hstands'⟩ := hstands.write decl.name
      obtain ⟨pre, post, heq, hpre⟩ := Expr.exists_events he
      have hvalue := hat.tail.function.1.after_uses heq hpre
      exact .inl (.expr hparse hstands' (hmine ▸ hvalue))
    · obtain ⟨pre, post, heq, hpre⟩ := Stmt.exists_value (fun decl span heq => hfunction ⟨decl, span, heq⟩) he
      exact .inl (.expr hparse hstands (hat.after_uses heq hpre))
  | @assign target value span =>
    obtain ⟨hheld, hat⟩ := hfits
    rw [Stmt.events] at hat
    exact .inl (.name hparse ⟨hstands, hheld⟩ _ hat.written)
  | update =>
    obtain ⟨hheld, hat⟩ := hfits
    rw [Stmt.events] at hat
    exact .inl (.name hparse ⟨hstands, hheld⟩ false hat.written)
  | @destructure before name after value span =>
    obtain ⟨hheld, hat⟩ := hfits
    rw [Stmt.events] at hat
    have hevents : value.events ++ (before ++ name :: after).map (fun n => NameEvent.assign n.name span) =
        (value.events ++ before.map fun n => .assign n.name span) ++
          ([.assign name.name span] ++ after.map fun n => .assign n.name span) := by simp
    have hwrite := hat.part _ hevents
    have hbefore : value.events ++ (before ++ name :: after).map (fun n => NameEvent.assign n.name span) =
        value.events ++ ((before.map (·.name)).map (NameEvent.assign · span) ++ [] ++
          (name :: after).map fun n => .assign n.name span) := by simp
    obtain ⟨mine', own', hmine, hown, hnow⟩ := Settled.assigns hparse ⟨hstands, hheld⟩
      (hat.after_uses hbefore value.isUse_of_mem_events)
    rw [through_append, Expr.through_events, through_assigns, hmine] at hwrite
    rw [assignAll, foldl_map] at hown
    rw [hown]
    exact .inl (.name hparse hnow true hwrite)
  | @methodDefault name fields methods body span decl param value _ hdecl hparam hvalue =>
    obtain ⟨hheld, hat⟩ := hfits
    rw [Stmt.events] at hat
    obtain ⟨mine', own', hmine, hown, hnow⟩ := Settled.bind ⟨hstands, hheld⟩ (hat.not_visible hafresh)
    have hmethod := hat.method hdecl
    rw [hmine] at hmethod
    obtain ⟨pre, post, heq, hpre⟩ := Expr.exists_events (mem_filterMap.mpr ⟨param, hparam, hvalue⟩)
    have hvalue := hmethod.function.1.after_uses heq hpre
    rw [hown]
    have hplace' : script.At [] (mine' ++ beyond) := hmine ▸ hat.tail.part [] rfl
    refine .inl ⟨mine', own', rfl, hnow.toStands, hplace', fun u hu => ⟨?_, fun _ => hnow.held⟩⟩
    exact (hvalue.notes_uses hparse hu).of_owner? rfl (NameEvent.not_write_of_mem_uses u hu)
  | block hblock =>
    obtain ⟨hheld, hat⟩ := hfits
    obtain ⟨opened, pre, post, heq, hpre, hkind⟩ := Stmt.exists_block hblock
    have hinside := hat.part pre heq
    rw [hpre] at hinside
    exact .inl ⟨mine, own, rfl, hstands, hplace, hheld, Stmt.not_inline_of_mem_blocks hblock, opened, hinside, hkind⟩
  | @iteration var items stmts scope span =>
    obtain ⟨hheld, hat⟩ := hfits
    rw [Stmt.events] at hat
    have hevents : items.events ++ NameEvent.within scope .loop (.declare var.name var.span :: Stmt.allEvents stmts) =
        (items.events ++ [.enter scope .loop, .declare var.name var.span]) ++ (Stmt.allEvents stmts ++ [.leave]) := by
      simp [NameEvent.within]
    have hbody := hat.part _ hevents
    rw [through_append, Expr.through_events] at hbody
    exact .inl (.stmts (Settled.push ⟨hstands, hheld⟩ [var.name] (fun _ => rfl) (by simp)) hbody)
  | @body decl span _ hplain =>
    obtain ⟨hheld, hat⟩ := hfits
    rw [Stmt.events, hplain] at hat
    obtain ⟨mine', own', hmine, hown, hnow⟩ := Settled.bind ⟨hstands, hheld⟩ (hat.not_visible hafresh)
    have hbody := hat.tail.function.2
    have hnames : boundNames decl.receiver decl.params = decl.params.map (·.name) := by
      simp [boundNames, hreceiver decl span (hp mem_cons_self)]
    rw [hnames, after, hmine] at hbody
    rw [hown]
    exact .inl (.stmts (hnow.push _ (fun _ => rfl) (by simp)) hbody)
  | @head stmt rest =>
    obtain ⟨hheld, hat⟩ := hfits
    rw [Stmt.allEvents] at hat
    exact .inl ⟨mine, own, rfl, hstands, hplace, hheld, hat.part [] rfl⟩
  | @tail stmt rest =>
    obtain ⟨hheld, hat⟩ := hfits
    rw [Stmt.allEvents] at hat
    obtain ⟨mine', own', hmine, hown, hnow⟩ := Settled.reshape hparse ⟨hstands, hheld⟩ hafresh (hat.part [] rfl)
    rw [hown]
    exact .inl (.stmts hnow (hmine ▸ hat.part _ (congrArg _ (append_nil _).symm)))
  | @opened kind stmts scope =>
    obtain ⟨hheld, hinline, opened, hat, hkind⟩ := hfits
    rw [Block.events] at hat
    exact .inl (.stmts (Settled.push ⟨hstands, hheld⟩ [] hkind hinline) (hat.tail.part [] rfl))
  | @expansion f id receiver site args span _ hfine hform hmethod =>
    refine .inr ⟨⟨f, hfine, hform⟩, ?_⟩
    have houter : own ++ outer ≠ [] := fun heq => hstands.nonempty (append_eq_nil_iff.mp heq).1
    have hknown := hstands.knows hparse hplace
    obtain ⟨hplain, span, hdecl⟩ | ⟨hismethod, name, fields, methods, body, span, hstruct, hdecl⟩ := hfine.declared
    · obtain ⟨view, hat⟩ := Script.exists_at hdecl
      have hinline : f.decl.isInline = true := (hfine.expanded hform).resolve_right (by simp [hplain])
      rw [Stmt.events, hinline] at hat
      exact ⟨_, .expanded hat.tail houter hknown (.inr (hreceiver _ _ hdecl))⟩
    · obtain ⟨view, hat⟩ := Script.exists_at hstruct
      rw [Stmt.events] at hat
      exact ⟨_, .expanded (hat.method hdecl) houter hknown (.inl (hmethod hismethod))⟩

end Piece

end Datapack
