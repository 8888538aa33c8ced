import Datapack.Proofs.Regime.Terms

/-!
What a script does to names, as a list of events in the order of the text, and what is open along it: a stack of scopes,
each with the names that it declares.
-/

namespace Datapack

open List

/-- What a script does to names, one thing at a time. A name is defined by a constant, a function or a struct. -/
inductive NameEvent
  | enter (key : Span) (kind : ScopeKind)
  | leave
  | declare (name : String) (site : Span)
  | assign (name : String) (site : Span)
  | define (name : String) (site : Span) (constant : Bool)
  | part (name : String) (site : Span)
  | read (name : String) (site : Span)
deriving Repr, DecidableEq

namespace NameEvent

def key? : NameEvent → Option Span
  | .enter key _ => some key
  | _ => none

def write? : NameEvent → Option (String × Span)
  | .assign name site | .define name site _ | .part name site => some (name, site)
  | _ => none

def isUse : NameEvent → Bool
  | .part _ _ | .read _ _ => true
  | _ => false

def blamed? : NameEvent → Option Span
  | .part _ site | .read _ site => some site
  | _ => none

def isBoundary : NameEvent → Bool
  | .enter _ _ | .leave => true
  | _ => false

theorem not_isBoundary_of_isUse {ev : NameEvent} (h : ev.isUse = true) : ev.isBoundary = false := by
  cases ev <;> first | rfl | cases h

def AllStand (sites : List Span) (events : List NameEvent) : Prop :=
  ∀ ev ∈ events, ∀ site, ev.blamed? = some site → site ∈ sites

def AllUse (sites : List Span) (events : List NameEvent) : Prop := ∀ ev ∈ events, ∃ site ∈ sites, ev.blamed? = some site

namespace AllUse

variable {sites others : List Span} {events more : List NameEvent}

section

variable (h : AllUse sites events)

include h

theorem append (h' : AllUse others more) : AllUse (sites ++ others) (events ++ more) :=
  forall_mem_append.mpr ⟨fun ev hev => (h ev hev).imp fun _ h => ⟨mem_append_left _ h.1, h.2⟩,
    fun ev hev => (h' ev hev).imp fun _ h => ⟨mem_append_right _ h.1, h.2⟩⟩

theorem mono (hsites : ∀ site ∈ sites, site ∈ others) : AllUse others events :=
  fun ev hev => (h ev hev).imp fun site h => ⟨hsites site h.1, h.2⟩

theorem isUse : ∀ ev ∈ events, ev.isUse = true := by
  intro ev hev
  obtain ⟨site, -, hsite⟩ := h ev hev
  cases ev <;> first | rfl | cases hsite

theorem allStand : AllStand sites events := by
  intro ev hev site hsite
  obtain ⟨other, hother, hblamed⟩ := h ev hev
  exact Option.some.inj (hblamed.symm.trans hsite) ▸ hother

end

end AllUse

def within (key : Span) (kind : ScopeKind) (events : List NameEvent) : List NameEvent :=
  .enter key kind :: (events ++ [.leave])

end NameEvent

namespace Syntax

open NameEvent

mutual

/-- The uses of names in an expression. A method call also writes its receiver, if that is a variable. -/
def Expr.events : Expr → List NameEvent
  | .int _ _ | .decimal _ _ | .string _ _ | .bool _ _ | .null _ => []
  | .var name site => [.read name site]
  | .unary _ operand _ => operand.events
  | .binary left _ right _ => left.events ++ right.events
  | .index base subscript _ => base.events ++ subscript.events
  | .member base _ _ => base.events
  | .call (.member (.var name site) _ _) args _ =>
    Expr.allEvents args ++ [if predefinedNames.contains name then .read name site else .part name site]
  | .call callee args _ => Expr.allEvents args ++ callee.events
  | .array items _ => Expr.allEvents items

def Expr.allEvents : List Expr → List NameEvent
  | [] => []
  | e :: rest => e.events ++ Expr.allEvents rest

end

def Target.events (target : Target) (write : NameEvent) : List NameEvent :=
  match target with
  | .path _ _ => [write]
  | .element _ index => index.events ++ [write]

def boundEvents (receiver : Option Span) (params : List Param) : List NameEvent :=
  receiver.toList.map (.declare "self" ·) ++ params.map fun p => .declare p.name p.span

mutual

def Stmt.events : Stmt → List NameEvent
  | .expr value _ | .return (some value) _ => value.events
  | .assign target value span =>
    value.events ++ target.events (if target.isPlain then .assign target.var span else .part target.var span)
  | .update target _ value span => value.events ++ target.events (.part target.var span)
  | .destructure names value span => value.events ++ names.map fun n => .assign n.name span
  | .const name value span => value.events ++ [.define name span true]
  | .branch cond onTrue none _ => cond.events ++ onTrue.events .conditional
  | .branch cond onTrue (some onFalse) _ =>
    cond.events ++ (onTrue.events .conditional ++ onFalse.events .conditional)
  | .repeatWhile cond body _ => cond.events ++ body.events .loop
  | .forEach var items ⟨stmts, scope⟩ _ =>
    items.events ++ within scope .loop (.declare var.name var.span :: Stmt.allEvents stmts)
  | .block body _ => body.events .block
  | .function decl _ =>
    .define decl.name decl.span false :: decl.events (if decl.isInline then .inlineFunction else .function)
  | .struct name _ methods body span => .define name span false :: within body .struct (Function.allEvents methods)
  | .return none _ => []

def Block.events (kind : ScopeKind) : Block → List NameEvent
  | ⟨stmts, span⟩ => within span kind (Stmt.allEvents stmts)

/-- The events of a function: default values outside, parameters and body in a scope of its own. -/
def Function.events (kind : ScopeKind) : Function → List NameEvent
  | ⟨_, _, receiver, params, _, ⟨stmts, span⟩, _⟩ =>
    Expr.allEvents (params.filterMap (·.default?)) ++
      within span kind (boundEvents receiver params ++ Stmt.allEvents stmts)

def Function.allEvents : List Function → List NameEvent
  | [] => []
  | decl :: rest => decl.events .inlineFunction ++ Function.allEvents rest

def Stmt.allEvents : List Stmt → List NameEvent
  | [] => []
  | stmt :: rest => stmt.events ++ Stmt.allEvents rest

end

def Stmt.binds : Stmt → List String
  | .assign (.path var []) _ _ => [var]
  | .destructure names _ _ => names.map (·.name)
  | .const name _ _ | .struct name _ _ _ _ => [name]
  | .function decl _ => [decl.name]
  | _ => []

def Stmt.allBinds (stmts : List Stmt) : List String := stmts.flatMap binds

theorem Expr.events_call {callee : Expr} (args : List Expr) (span : Span)
    (h : ∀ name site member memberSpan, callee ≠ .member (.var name site) member memberSpan) :
    (call callee args span).events = allEvents args ++ callee.events := by
  rw [events]
  exact h

mutual

theorem Expr.allUse : ∀ e : Expr, AllUse e.sites e.events
  | .int _ _ | .decimal _ _ | .string _ _ | .bool _ _ | .null _ => by
    rw [Expr.events]
    exact forall_mem_nil _
  | .var name span => by
    rw [Expr.events, Expr.sites]
    exact forall_mem_singleton.mpr ⟨span, .head _, rfl⟩
  | .unary _ operand _ | .member operand _ _ => by
    rw [Expr.events, Expr.sites]
    exact operand.allUse.mono fun _ => mem_cons_of_mem _
  | .binary left _ right _ | .index left right _ => by
    rw [Expr.events, Expr.sites]
    exact (left.allUse.append right.allUse).mono fun _ => mem_cons_of_mem _
  | .call callee args span => by
    have hargs := Expr.allUseAll args
    by_cases hmember : ∃ name site member memberSpan, callee = .member (.var name site) member memberSpan
    · obtain ⟨name, site, member, memberSpan, rfl⟩ := hmember
      have hobject : AllUse [site] [if predefinedNames.contains name then .read name site else .part name site] :=
        forall_mem_singleton.mpr ⟨site, .head _, by split <;> rfl⟩
      rw [Expr.events]
      exact (hargs.append hobject).mono (by simp +contextual [Expr.sites, or_imp])
    · rw [Expr.events_call args span fun name site member memberSpan heq => hmember ⟨name, site, member, memberSpan, heq⟩]
      exact (hargs.append callee.allUse).mono (by simp +contextual [Expr.sites, or_imp])
  | .array items _ => by
    rw [Expr.events, Expr.sites]
    exact (Expr.allUseAll items).mono fun _ => mem_cons_of_mem _

theorem Expr.allUseAll : ∀ es : List Expr, AllUse (Expr.allSites es) (Expr.allEvents es)
  | [] => by
    rw [Expr.allEvents]
    exact forall_mem_nil _
  | e :: rest => by
    rw [Expr.allEvents, Expr.allSites]
    exact e.allUse.append (Expr.allUseAll rest)

end

theorem Expr.isUse_of_mem_events {e : Expr} : ∀ ev ∈ e.events, ev.isUse = true := e.allUse.isUse

theorem Expr.isUse_of_mem_allEvents (es : List Expr) : ∀ ev ∈ allEvents es, ev.isUse = true :=
  (allUseAll es).isUse

end Syntax

/-- What an open scope or frame looks like: what it was opened for, and the names that it has. -/
structure FrameShape where
  kind : ScopeKind
  scope : Span
  names : List String
deriving Repr, DecidableEq

namespace FrameShape

def anyBinds (name : String) (shape : List FrameShape) : Bool := shape.any (·.names.contains name)

def bind (name : String) : List FrameShape → List FrameShape
  | [] => []
  | f :: rest => { f with names := f.names ++ [name] } :: rest

def bindAll (names : List String) (shape : List FrameShape) : List FrameShape :=
  names.foldl (fun shape name => bind name shape) shape

theorem bindAll_cons (names : List String) (f : FrameShape) (rest : List FrameShape) :
    bindAll names (f :: rest) = { f with names := f.names ++ names } :: rest := by
  induction names generalizing f with
  | nil => simp [bindAll]
  | cons name more ih =>
    rw [bindAll, foldl_cons]
    exact (ih _).trans (by simp)

def assign (name : String) (shape : List FrameShape) : List FrameShape :=
  if anyBinds name shape then shape else bind name shape

theorem exists_assign (name : String) (f : FrameShape) (rest : List FrameShape) :
    ∃ names, assign name (f :: rest) = { f with names } :: rest := by
  unfold assign
  split
  · exact ⟨f.names, rfl⟩
  · exact ⟨_, rfl⟩

def assignAll (names : List String) (shape : List FrameShape) : List FrameShape :=
  names.foldl (fun shape name => assign name shape) shape

theorem assignAll_append (names more : List String) (shape : List FrameShape) :
    assignAll (names ++ more) shape = assignAll more (assignAll names shape) := foldl_append

theorem tail_assignAll (names : List String) (f : FrameShape) (rest : List FrameShape) :
    (assignAll names (f :: rest)).tail = rest := by
  induction names generalizing f with
  | nil => rfl
  | cons name more ih =>
    obtain ⟨bound, hbound⟩ := exists_assign name f rest
    rw [assignAll, foldl_cons, hbound]
    exact ih _

theorem scopes_bind (name : String) (shape : List FrameShape) : (bind name shape).map (·.scope) = shape.map (·.scope) := by
  cases shape <;> rfl

theorem scopes_assign (name : String) (shape : List FrameShape) :
    (assign name shape).map (·.scope) = shape.map (·.scope) := by
  unfold assign
  split
  · rfl
  · exact scopes_bind name shape

def after (shape : List FrameShape) : NameEvent → List FrameShape
  | .enter key kind => ⟨kind, key, []⟩ :: shape
  | .leave => shape.tail
  | .declare name _ => bind name shape
  | .assign name _ | .define name _ _ => assign name shape
  | .part _ _ | .read _ _ => shape

def through (events : List NameEvent) (shape : List FrameShape) : List FrameShape := events.foldl after shape

variable {events more : List NameEvent} {shape : List FrameShape}

@[simp] theorem through_nil : through [] shape = shape := rfl

@[simp] theorem through_cons (ev : NameEvent) : through (ev :: events) shape = through events (after shape ev) := rfl

@[simp] theorem through_append : through (events ++ more) shape = through more (through events shape) :=
  foldl_append

theorem through_uses (h : ∀ ev ∈ events, ev.isUse = true) : through events shape = shape := by
  induction events with
  | nil => rfl
  | cons ev rest ih =>
    obtain ⟨hev, hrest⟩ := forall_mem_cons.mp h
    cases ev <;> first | exact ih hrest | cases hev

theorem through_within (key : Span) (kind : ScopeKind) :
    through (NameEvent.within key kind events) shape = (through events (⟨kind, key, []⟩ :: shape)).tail := by
  simp [NameEvent.within, after]

end FrameShape

namespace Syntax

open FrameShape

@[simp] theorem Expr.through_events (e : Expr) (shape : List FrameShape) : through e.events shape = shape :=
  through_uses e.isUse_of_mem_events

@[simp] theorem Expr.through_allEvents (es : List Expr) (shape : List FrameShape) :
    through (allEvents es) shape = shape := through_uses (isUse_of_mem_allEvents es)

@[simp] theorem Target.through_events (target : Target) (write : NameEvent) (shape : List FrameShape) :
    through (target.events write) shape = after shape write := by
  cases target <;> simp [Target.events]

theorem through_boundEvents (receiver : Option Span) (params : List Param) (shape : List FrameShape) :
    through (boundEvents receiver params) shape =
      bindAll (receiver.toList.map (fun _ => "self") ++ params.map (·.name)) shape := by
  have hparams : ∀ shape, through (params.map fun p => .declare p.name p.span) shape =
      bindAll (params.map (·.name)) shape := by
    induction params with
    | nil => exact fun _ => rfl
    | cons param rest ih => exact fun shape => ih (bind param.name shape)
  cases receiver with
  | none => exact hparams shape
  | some site => exact hparams (bind "self" shape)

theorem through_assigns (names : List Ident) (span : Span) (shape : List FrameShape) :
    through (names.map fun n => .assign n.name span) shape = assignAll (names.map (·.name)) shape := by
  induction names generalizing shape with
  | nil => rfl
  | cons name rest ih => exact ih (assign name.name shape)

mutual

theorem Stmt.through_events : ∀ (stmt : Stmt) (shape : List FrameShape),
    through stmt.events shape = assignAll stmt.binds shape
  | .expr value _, shape | .return (some value) _, shape => by
    rw [Stmt.events]
    exact value.through_events shape
  | .assign target value span, shape => by
    rw [Stmt.events, through_append, Expr.through_events, Target.through_events]
    cases target with
    | path var members => cases members <;> rfl
    | element var index => rfl
  | .update target _ value span, shape => by
    rw [Stmt.events, through_append, Expr.through_events, Target.through_events]
    rfl
  | .destructure names value span, shape => by
    rw [Stmt.events, through_append, Expr.through_events]
    exact through_assigns names span shape
  | .const name value span, shape => by
    rw [Stmt.events, through_append, Expr.through_events]
    rfl
  | .branch cond onTrue none _, shape => by
    rw [Stmt.events, through_append, Expr.through_events]
    exact onTrue.through_events .conditional shape
  | .branch cond onTrue (some onFalse) _, shape => by
    rw [Stmt.events, through_append, Expr.through_events, through_append, Block.through_events .conditional onTrue]
    exact onFalse.through_events .conditional shape
  | .repeatWhile cond body _, shape => by
    rw [Stmt.events, through_append, Expr.through_events]
    exact body.through_events .loop shape
  | .forEach var items ⟨stmts, scope⟩ _, shape => by
    rw [Stmt.events, through_append, Expr.through_events, through_within, through_cons, Stmt.through_allEvents stmts]
    exact tail_assignAll _ _ _
  | .block body _, shape => by
    rw [Stmt.events]
    exact body.through_events .block shape
  | .function decl _, shape => by
    rw [Stmt.events, through_cons]
    exact decl.through_events _ _
  | .struct name _ methods body span, shape => by
    rw [Stmt.events, through_cons, through_within, Function.through_allEvents methods]
    rfl
  | .return none _, shape => by
    rw [Stmt.events]
    rfl

theorem Block.through_events (kind : ScopeKind) : ∀ (block : Block) (shape : List FrameShape),
    through (block.events kind) shape = shape
  | ⟨stmts, span⟩, shape => by
    rw [Block.events, through_within, Stmt.through_allEvents stmts]
    exact tail_assignAll _ _ _

theorem Function.through_events (kind : ScopeKind) : ∀ (decl : Function) (shape : List FrameShape),
    through (decl.events kind) shape = shape
  | ⟨_, _, receiver, params, _, ⟨stmts, span⟩, _⟩, shape => by
    rw [Function.events, through_append, Expr.through_allEvents, through_within, through_append, through_boundEvents,
      bindAll_cons, Stmt.through_allEvents stmts]
    exact tail_assignAll _ _ _

theorem Function.through_allEvents : ∀ (decls : List Function) (shape : List FrameShape),
    through (Function.allEvents decls) shape = shape
  | [], shape => by
    rw [Function.allEvents]
    rfl
  | decl :: rest, shape => by
    rw [Function.allEvents, through_append, Function.through_events .inlineFunction decl]
    exact Function.through_allEvents rest shape

theorem Stmt.through_allEvents : ∀ (stmts : List Stmt) (shape : List FrameShape),
    through (Stmt.allEvents stmts) shape = assignAll (Stmt.allBinds stmts) shape
  | [], shape => by
    rw [Stmt.allEvents]
    rfl
  | stmt :: rest, shape => by
    rw [Stmt.allEvents, through_append, Stmt.through_events stmt, Stmt.through_allEvents rest]
    exact (assignAll_append _ _ _).symm

end

end Syntax

def Nest.grown (opened keys : List Span) (nest : Nest) : Nest :=
  if nest.key ∈ opened then { nest with inner := nest.inner ++ keys } else nest

theorem Nest.key_grown (opened keys : List Span) (nest : Nest) : (nest.grown opened keys).key = nest.key := by
  unfold grown
  split <;> rfl

theorem Nest.kind_grown (opened keys : List Span) (nest : Nest) : (nest.grown opened keys).kind = nest.kind := by
  unfold grown
  split <;> rfl

/-- The scopes that are open along a script, and those that have been opened. -/
structure Trail where
  opened : List FrameShape
  nests : List Nest

namespace Trail

def scopes (t : Trail) : List Span := t.opened.map (·.scope)

def keys (t : Trail) : List Span := t.nests.map Nest.key

def step (t : Trail) (ev : NameEvent) : Trail where
  opened := FrameShape.after t.opened ev
  nests := match ev with
    | .enter key kind => t.nests.map (Nest.grown t.scopes [key]) ++ [⟨key, kind, []⟩]
    | _ => t.nests

def run (events : List NameEvent) (t : Trail) : Trail := events.foldl step t

variable {t : Trail} {events more : List NameEvent} {nests others : List Nest} {shape : List FrameShape}
  {key : Span} {kind : ScopeKind} {ev : NameEvent}

theorem run_append : run (events ++ more) t = run more (run events t) := foldl_append

theorem opened_run (events : List NameEvent) (t : Trail) :
    (t.run events).opened = FrameShape.through events t.opened := by
  induction events generalizing t with
  | nil => rfl
  | cons ev rest ih => exact ih (t.step ev)

theorem keys_step (t : Trail) (ev : NameEvent) : (t.step ev).keys = t.keys ++ ev.key?.toList := by
  cases ev <;> simp [keys, step, NameEvent.key?, Function.comp_def, Nest.key_grown]

theorem keys_run (events : List NameEvent) (t : Trail) : (t.run events).keys = t.keys ++ events.filterMap (·.key?) := by
  induction events generalizing t with
  | nil => simp [run]
  | cons ev rest ih =>
    rw [run, foldl_cons]
    refine (ih (t.step ev)).trans ?_
    rw [keys_step, append_assoc]
    cases h : ev.key? <;> simp [h]

/-- Whether the scopes of a stack have been opened one inside the other, with nothing else around them. -/
structure Stacked (nests : List Nest) (shape : List FrameShape) : Prop where
  distinct : (shape.map (·.scope)).Nodup
  known : ∀ f ∈ shape, ∃ nest ∈ nests, nest.key = f.scope ∧ nest.kind = f.kind
  inner : ∀ f rest, f :: rest <:+ shape → ∀ nest ∈ nests, f.scope ∈ nest.inner ↔ nest.key ∈ rest.map (·.scope)

section

variable (h : Stacked nests shape)

include h

theorem Stacked.mem_keys : ∀ scope ∈ shape.map (·.scope), scope ∈ nests.map Nest.key := by
  intro scope hscope
  obtain ⟨f, hf, rfl⟩ := mem_map.mp hscope
  obtain ⟨nest, hnest, hkey, -⟩ := h.known f hf
  exact hkey ▸ mem_map_of_mem hnest

theorem Stacked.enter (hkey : key ∉ nests.map Nest.key) (opened : List Span)
    (kind : ScopeKind) : Stacked (nests.map (Nest.grown opened [key]) ++ [⟨key, kind, []⟩]) shape := by
  refine ⟨h.distinct, fun f hf => ?_, fun f rest hsuffix => forall_mem_append.mpr ⟨?_, ?_⟩⟩
  · obtain ⟨nest, hnest, hscope, hkind⟩ := h.known f hf
    exact ⟨_, mem_append_left _ (mem_map_of_mem hnest), (nest.key_grown _ _).trans hscope,
      (nest.kind_grown _ _).trans hkind⟩
  · refine forall_mem_map.mpr fun nest hnest => ?_
    have hne : f.scope ≠ key := by
      rintro rfl
      exact hkey (h.mem_keys _ (mem_map_of_mem (hsuffix.subset (.head _))))
    rw [Nest.key_grown, ← h.inner f rest hsuffix nest hnest]
    unfold Nest.grown
    split <;> simp [hne]
  · have hnot : key ∉ rest.map (·.scope) := fun hmem =>
      hkey (h.mem_keys _ ((((suffix_cons f rest).trans hsuffix).map _).subset hmem))
    exact forall_mem_singleton.mpr (by simpa using hnot)

theorem Stacked.push (hkey : key ∉ nests.map Nest.key) (hinner : ∀ nest ∈ nests, key ∉ nest.inner) (kind : ScopeKind) :
    Stacked (nests.map (Nest.grown (shape.map (·.scope)) [key]) ++ [⟨key, kind, []⟩]) (⟨kind, key, []⟩ :: shape) := by
  have hbefore := h.enter hkey (shape.map (·.scope)) kind
  refine ⟨?_, forall_mem_cons.mpr ⟨⟨_, mem_append_right _ (.head _), rfl, rfl⟩, hbefore.known⟩, ?_⟩
  · exact nodup_cons.mpr ⟨fun hmem => hkey (h.mem_keys _ hmem), h.distinct⟩
  · intro f rest hsuffix
    obtain heq | hsuffix := suffix_cons_iff.mp hsuffix
    · obtain ⟨rfl, rfl⟩ := List.cons.inj heq
      refine forall_mem_append.mpr ⟨forall_mem_map.mpr fun nest hnest => ?_, ?_⟩
      · by_cases hopen : nest.key ∈ rest.map (·.scope) <;> simp [Nest.grown, hopen, hinner nest hnest]
      · refine forall_mem_singleton.mpr ?_
        simpa using fun f hf heq => hkey (h.mem_keys _ (mem_map.mpr ⟨f, hf, heq⟩))
    · exact hbefore.inner f rest hsuffix

theorem Stacked.tail : Stacked nests shape.tail where
  distinct := h.distinct.sublist ((tail_sublist shape).map _)
  known f hf := h.known f (mem_of_mem_tail hf)
  inner f rest hsuffix := h.inner f rest (hsuffix.trans (tail_suffix shape))

theorem Stacked.bind (name : String) : Stacked nests (FrameShape.bind name shape) := by
  cases shape with
  | nil => exact h
  | cons f rest =>
    refine ⟨h.distinct, forall_mem_cons.mpr (forall_mem_cons.mp h.known), fun g frames hsuffix => ?_⟩
    obtain heq | hsuffix := suffix_cons_iff.mp hsuffix
    · obtain ⟨rfl, rfl⟩ := List.cons.inj heq
      exact h.inner f frames (suffix_refl _)
    · exact h.inner g frames (hsuffix.trans (suffix_cons _ _))

theorem Stacked.assign (name : String) : Stacked nests (FrameShape.assign name shape) := by
  unfold FrameShape.assign
  split
  · exact h
  · exact h.bind name

end

structure Sound (t : Trail) : Prop where
  distinct : t.keys.Nodup
  listed : ∀ nest ∈ t.nests, nest.inner ⊆ t.keys
  stacked : Stacked t.nests t.opened

theorem Sound.step (h : t.Sound) (hkey : ∀ key ∈ ev.key?, key ∉ t.keys) : (t.step ev).Sound := by
  have hkeys := keys_step t ev
  cases ev with
  | enter key kind =>
    have hnew : key ∉ t.keys := hkey key rfl
    refine ⟨?_, forall_mem_append.mpr ⟨forall_mem_map.mpr fun nest hnest => ?_, by simp⟩, ?_⟩
    · rw [hkeys]
      exact h.distinct.append (nodup_singleton key) (disjoint_singleton.mpr hnew)
    · have hinner : nest.inner ⊆ t.keys ++ [key] := subset_append_of_subset_left _ (h.listed nest hnest)
      rw [hkeys]
      unfold Nest.grown
      split
      · exact append_subset.mpr ⟨hinner, subset_append_right _ _⟩
      · exact hinner
    · exact h.stacked.push hnew (fun nest hnest hmem => hnew (h.listed nest hnest hmem)) kind
  | leave => exact ⟨h.distinct, h.listed, h.stacked.tail⟩
  | declare name _ => exact ⟨h.distinct, h.listed, h.stacked.bind name⟩
  | assign name _ | define name _ _ => exact ⟨h.distinct, h.listed, h.stacked.assign name⟩
  | part | read => exact h

theorem Stacked.step (h : Stacked t.nests shape) (hkey : ∀ key ∈ ev.key?, key ∉ t.keys) :
    Stacked (t.step ev).nests shape := by
  cases ev with
  | enter key kind => exact h.enter (hkey key rfl) _ kind
  | _ => exact h

def Fresh (t : Trail) (events : List NameEvent) : Prop := (t.keys ++ events.filterMap (·.key?)).Nodup

theorem Fresh.head (h : t.Fresh (ev :: events)) : ∀ key ∈ ev.key?, key ∉ t.keys := by
  intro key hkey hmem
  rw [Fresh, filterMap_cons_some (Option.mem_def.mp hkey)] at h
  exact disjoint_of_nodup_append h hmem (.head _)

theorem Fresh.run (h : t.Fresh (events ++ more)) : (t.run events).Fresh more := by
  rwa [Fresh, keys_run, append_assoc, ← filterMap_append]

theorem Fresh.tail (h : t.Fresh (ev :: events)) : (t.step ev).Fresh events := by
  have hrun : t.Fresh ([ev] ++ events) := h
  exact hrun.run

theorem Fresh.left (h : t.Fresh (events ++ more)) : t.Fresh events := by
  rw [Fresh, filterMap_append, ← append_assoc] at h
  exact (nodup_append'.mp h).1

theorem Sound.run (h : t.Sound) (hfresh : t.Fresh events) : (t.run events).Sound := by
  induction events generalizing t with
  | nil => exact h
  | cons ev rest ih => exact ih (h.step hfresh.head) hfresh.tail

theorem Stacked.run (h : Stacked t.nests shape) (hfresh : t.Fresh events) : Stacked (t.run events).nests shape := by
  induction events generalizing t with
  | nil => exact h
  | cons ev rest ih => exact ih (h.step hfresh.head) hfresh.tail

def Opens (events : List NameEvent) (nests : List Nest) : Prop :=
  ∀ t : Trail, t.Sound → (t.keys ++ nests.map Nest.key).Nodup →
    (t.run events).scopes = t.scopes ∧
      (t.run events).nests = t.nests.map (Nest.grown t.scopes (nests.map Nest.key)) ++ nests

namespace Opens

theorem sound (h : Opens events nests) (ht : t.Sound) (hnodup : (t.keys ++ nests.map Nest.key).Nodup) :
    (t.run events).Sound ∧ (t.run events).keys = t.keys ++ nests.map Nest.key := by
  obtain ⟨-, hnests⟩ := h t ht hnodup
  have hkeys : (t.run events).keys = t.keys ++ nests.map Nest.key := by
    rw [keys, hnests, map_append, map_map]
    exact congrArg (· ++ _) (map_congr_left fun nest _ => nest.key_grown _ _)
  refine ⟨ht.run ?_, hkeys⟩
  rwa [Fresh, ← keys_run, hkeys]

theorem append (h : Opens events nests) (h' : Opens more others) : Opens (events ++ more) (nests ++ others) := by
  intro t ht hnodup
  rw [map_append, ← append_assoc] at hnodup
  have hfirst := (nodup_append'.mp hnodup).1
  obtain ⟨hscopes, hnests⟩ := h t ht hfirst
  obtain ⟨hsound, hkeys⟩ := h.sound ht hfirst
  obtain ⟨hscopes', hnests'⟩ := h' (t.run events) hsound (by rwa [hkeys])
  refine ⟨by rw [run_append, hscopes', hscopes], ?_⟩
  rw [run_append, hnests', hnests, hscopes, map_append, map_append, map_map, append_assoc]
  refine congr (congrArg _ (map_congr_left fun nest _ => ?_)) (congrArg (· ++ others) ?_)
  · by_cases hopen : nest.key ∈ t.scopes <;> simp [Nest.grown, hopen]
  · refine (map_congr_left fun nest hnest => if_neg fun hopen => ?_).trans (map_id nests)
    exact disjoint_of_nodup_append hfirst (ht.stacked.mem_keys _ hopen) (mem_map_of_mem hnest)

theorem still (h : ∀ ev ∈ events, ev.isBoundary = false) : Opens events [] := by
  intro t ht hnodup
  have hnil : t.nests.map (Nest.grown t.scopes []) = t.nests :=
    (map_congr_left fun nest _ => by simp [Nest.grown]).trans (map_id _)
  rw [map_nil, hnil, append_nil]
  clear hnil ht hnodup
  induction events generalizing t with
  | nil => exact ⟨rfl, rfl⟩
  | cons ev rest ih =>
    obtain ⟨hev, hrest⟩ := forall_mem_cons.mp h
    have hstep : (t.step ev).scopes = t.scopes ∧ (t.step ev).nests = t.nests := by
      cases ev with
      | enter | leave => cases hev
      | declare name _ => exact ⟨FrameShape.scopes_bind name t.opened, rfl⟩
      | assign name _ | define name _ _ => exact ⟨FrameShape.scopes_assign name t.opened, rfl⟩
      | part | read => exact ⟨rfl, rfl⟩
    obtain ⟨hscopes, hnests⟩ := ih hrest (t.step ev)
    exact ⟨hscopes.trans hstep.1, hnests.trans hstep.2⟩

theorem within (h : Opens events nests) (key : Span) (kind : ScopeKind) :
    Opens (NameEvent.within key kind events) (⟨key, kind, nests.map Nest.key⟩ :: nests) := by
  intro t ht hnodup
  have hnew : key ∉ t.keys := fun hmem => disjoint_of_nodup_append hnodup hmem (.head _)
  have hentered : (t.step (.enter key kind)).Sound := ht.step fun other hother => Option.some.inj hother ▸ hnew
  obtain ⟨hscopes, hnests⟩ := h (t.step (.enter key kind)) hentered (by
    rwa [keys_step, append_assoc])
  have hrun : t.run (NameEvent.within key kind events) = ((t.step (.enter key kind)).run events).step .leave := by
    simp [NameEvent.within, run]
  rw [hrun]
  refine ⟨?_, hnests.trans ?_⟩
  · have htail := congrArg List.tail hscopes
    rwa [scopes, ← map_tail] at htail
  · change (t.nests.map (Nest.grown t.scopes [key]) ++ [Nest.mk key kind []]).map (Nest.grown (key :: t.scopes) _) ++ nests = _
    rw [map_append, map_map, append_assoc]
    refine congr (congrArg _ (map_congr_left fun nest hnest => ?_)) ?_
    · have hother : nest.key ≠ key := fun heq => hnew (heq ▸ mem_map_of_mem hnest)
      by_cases hopen : nest.key ∈ t.scopes <;> simp [Nest.grown, hother, hopen]
    · simp [Nest.grown]

end Opens

end Trail

namespace Syntax

open Trail NameEvent

/-- How events belong to the text that they come from: the scopes that they open, the statements that they include, and
the places of the names that they use. -/
inductive Woven : List NameEvent → List Nest → List Stmt → List Span → Prop
  | still {events sites} : (∀ ev ∈ events, ev.isBoundary = false) → AllStand sites events → Woven events [] [] sites
  | append {events more nests others parts parts' sites sites'} : Woven events nests parts sites →
      Woven more others parts' sites' →
        Woven (events ++ more) (nests ++ others) (parts ++ parts') (sites ++ sites')
  | within {events nests parts sites} (key : Span) (kind : ScopeKind) : Woven events nests parts sites →
      Woven (NameEvent.within key kind events) (⟨key, kind, nests.map Nest.key⟩ :: nests) parts sites
  | whole {stmt : Stmt} {nests sites} : Woven stmt.events nests stmt.parts.tail sites →
      Woven stmt.events nests stmt.parts sites
  | mono {events nests parts sites others} : Woven events nests parts sites → (∀ site ∈ sites, site ∈ others) →
      Woven events nests parts others

theorem Stmt.parts_eq (stmt : Stmt) : stmt.parts = stmt :: stmt.parts.tail := by
  cases stmt
  case branch cond onTrue onFalse span => cases onFalse <;> simp [parts]
  all_goals simp [parts]

namespace Woven

variable {events : List NameEvent} {nests : List Nest} {parts : List Stmt} {sites : List Span}

theorem uses (h : AllUse sites events) : Woven events [] [] sites :=
  .still (fun ev hev => not_isBoundary_of_isUse (h.isUse ev hev)) h.allStand

theorem mute (h : ∀ ev ∈ events, ev.isBoundary = false ∧ ev.blamed? = none) : Woven events [] [] [] := by
  refine .still (fun ev hev => (h ev hev).1) fun ev hev site hsite => ?_
  rw [(h ev hev).2] at hsite
  cases hsite

section

variable (h : Woven events nests parts sites)

include h

theorem later (span : Span) : Woven events nests parts (span :: sites) := h.mono fun _ => mem_cons_of_mem _

theorem opens : Opens events nests := by
  induction h with
  | still h => exact .still h
  | append _ _ ih ih' => exact ih.append ih'
  | within key kind _ ih => exact ih.within key kind
  | whole _ ih | mono _ _ ih => exact ih

theorem allStand : AllStand sites events := by
  induction h with
  | still _ h => exact h
  | append _ _ ih ih' =>
    exact forall_mem_append.mpr ⟨fun ev hev site hsite => mem_append_left _ (ih ev hev site hsite),
      fun ev hev site hsite => mem_append_right _ (ih' ev hev site hsite)⟩
  | within key kind _ ih =>
    intro ev hev site hsite
    rcases mem_cons.mp hev with rfl | hev
    · cases hsite
    · rcases mem_append.mp hev with hev | hev
      · exact ih ev hev site hsite
      · cases mem_singleton.mp hev ▸ hsite
  | whole _ ih => exact ih
  | mono _ hsites ih => exact fun ev hev site hsite => hsites site (ih ev hev site hsite)

theorem isInfix_of_mem : ∀ part ∈ parts, part.events <:+: events := by
  induction h with
  | still => exact forall_mem_nil _
  | append _ _ ih ih' =>
    exact forall_mem_append.mpr ⟨fun part hpart => (ih part hpart).trans (prefix_append _ _).isInfix,
      fun part hpart => (ih' part hpart).trans (suffix_append _ _).isInfix⟩
  | within key kind _ ih => exact fun part hpart => (ih part hpart).trans ⟨[_], [_], rfl⟩
  | @whole stmt _ _ _ ih =>
    rw [stmt.parts_eq]
    exact forall_mem_cons.mpr ⟨infix_refl _, ih⟩
  | mono _ _ ih => exact ih

theorem parts_subset : ∀ part ∈ parts, part.parts ⊆ parts := by
  induction h with
  | still => exact forall_mem_nil _
  | append _ _ ih ih' =>
    exact forall_mem_append.mpr ⟨fun part hpart => subset_append_of_subset_left _ (ih part hpart),
      fun part hpart => subset_append_of_subset_right _ (ih' part hpart)⟩
  | @whole stmt _ _ _ ih =>
    intro part hpart
    obtain rfl | hpart := mem_cons.mp (stmt.parts_eq ▸ hpart)
    · exact .refl _
    · exact List.Subset.trans (ih part hpart) (tail_subset _)
  | within _ _ _ ih | mono _ _ ih => exact ih

end

end Woven

theorem Expr.woven (e : Expr) : Woven e.events [] [] e.sites := .uses e.allUse

theorem Target.woven (target : Target) (span : Span) {write : NameEvent} (h : write.isBoundary = false)
    (hsite : ∀ site, write.blamed? = some site → site = span) :
    Woven (target.events write) [] [] (target.sites ++ [span]) := by
  have hwrite : Woven [write] [] [] [span] :=
    .still (forall_mem_singleton.mpr h) (forall_mem_singleton.mpr fun site h => mem_singleton.mpr (hsite site h))
  cases target with
  | path var members => exact hwrite
  | element var index => exact index.woven.append hwrite

theorem Param.woven (params : List Param) :
    Woven (Expr.allEvents (params.filterMap (·.default?))) [] [] (params.flatMap sites) := by
  refine (Woven.uses (Expr.allUseAll _)).mono fun site hsite => ?_
  obtain ⟨e, he, hsite⟩ := Expr.mem_allSites.mp hsite
  obtain ⟨param, hparam, hdefault⟩ := mem_filterMap.mp he
  exact mem_flatMap.mpr ⟨param, hparam, by simp [sites, hdefault, hsite]⟩

mutual

theorem Stmt.woven : ∀ stmt : Stmt, Woven stmt.events stmt.nests stmt.parts.tail stmt.sites
  | .expr value span | .return (some value) span => by
    rw [Stmt.events, Stmt.nests, Stmt.parts, Stmt.sites]
    exact value.woven.later span
  | .assign target value span => by
    rw [Stmt.events, Stmt.nests, Stmt.parts, Stmt.sites]
    refine (value.woven.append (target.woven span (by split <;> rfl) ?_)).mono (by simp +contextual [or_imp])
    split <;> simp [blamed?, eq_comm]
  | .update target _ value span => by
    rw [Stmt.events, Stmt.nests, Stmt.parts, Stmt.sites]
    refine (value.woven.append (target.woven span rfl ?_)).mono (by simp +contextual [or_imp])
    simp [blamed?, eq_comm]
  | .destructure names value span => by
    have hnames : Woven (names.map fun n => .assign n.name span) [] [] [] := .mute (forall_mem_map.mpr fun _ _ => ⟨rfl, rfl⟩)
    rw [Stmt.events, Stmt.nests, Stmt.parts, Stmt.sites]
    exact (value.woven.append hnames).mono (by simp +contextual)
  | .const name value span => by
    have hname : Woven [.define name span true] [] [] [] := .mute (forall_mem_singleton.mpr ⟨rfl, rfl⟩)
    rw [Stmt.events, Stmt.nests, Stmt.parts, Stmt.sites]
    exact (value.woven.append hname).mono (by simp +contextual)
  | .branch cond onTrue none span => by
    rw [Stmt.events, Stmt.nests, Stmt.parts, Stmt.sites]
    exact (cond.woven.append (onTrue.woven .conditional)).later span
  | .branch cond onTrue (some onFalse) span => by
    rw [Stmt.events, Stmt.nests, Stmt.parts, Stmt.sites]
    exact (cond.woven.append ((onTrue.woven .conditional).append (onFalse.woven .conditional))).later span
  | .repeatWhile cond body span => by
    rw [Stmt.events, Stmt.nests, Stmt.parts, Stmt.sites]
    exact (cond.woven.append (body.woven .loop)).later span
  | .forEach var items ⟨stmts, scope⟩ _ => by
    have hvar : Woven [.declare var.name var.span] [] [] [] := .mute (forall_mem_singleton.mpr ⟨rfl, rfl⟩)
    rw [Stmt.events, Stmt.nests, Block.nests, Stmt.parts, Block.parts, Stmt.sites, Block.sites]
    exact (items.woven.append ((hvar.append (Stmt.allWoven stmts)).within scope .loop)).mono
      (by simp +contextual [or_imp])
  | .block body span => by
    rw [Stmt.events, Stmt.nests, Stmt.parts, Stmt.sites]
    exact (body.woven .block).later span
  | .function decl span => by
    have hname : Woven [.define decl.name decl.span false] [] [] [] := .mute (forall_mem_singleton.mpr ⟨rfl, rfl⟩)
    rw [Stmt.events, Stmt.nests, Stmt.parts, Stmt.sites]
    exact (hname.append (decl.woven _)).later span
  | .struct name _ methods body span => by
    have hname : Woven [.define name span false] [] [] [] := .mute (forall_mem_singleton.mpr ⟨rfl, rfl⟩)
    rw [Stmt.events, Stmt.nests, Stmt.parts, Stmt.sites]
    exact (hname.append ((Function.allWoven methods).within body .struct)).mono (by simp +contextual)
  | .return none _ => by
    rw [Stmt.events, Stmt.nests, Stmt.parts]
    exact (Woven.mute (forall_mem_nil _)).mono (forall_mem_nil _)

theorem Block.woven (kind : ScopeKind) : ∀ block : Block,
    Woven (block.events kind) (block.nests kind) block.parts block.sites
  | ⟨stmts, span⟩ => by
    rw [Block.events, Block.nests, Block.parts, Block.sites]
    exact ((Stmt.allWoven stmts).within span kind).later span

theorem Function.woven (kind : ScopeKind) : ∀ decl : Function,
    Woven (decl.events kind) (decl.nests kind) decl.parts decl.sites
  | ⟨_, _, receiver, params, _, ⟨stmts, span⟩, _⟩ => by
    have hbound : Woven (boundEvents receiver params) [] [] [] := .mute (forall_mem_append.mpr
      ⟨forall_mem_map.mpr fun _ _ => ⟨rfl, rfl⟩, forall_mem_map.mpr fun _ _ => ⟨rfl, rfl⟩⟩)
    rw [Function.events, Function.nests, Block.nests, Function.parts, Block.parts, Function.sites, Block.sites]
    exact ((Param.woven params).append ((hbound.append (Stmt.allWoven stmts)).within span kind)).mono
      (by simp +contextual [or_imp])

theorem Function.allWoven : ∀ decls : List Function,
    Woven (Function.allEvents decls) (Function.allNests decls) (Function.allParts decls) (Function.allSites decls)
  | [] => by
    rw [Function.allEvents, Function.allNests, Function.allParts, Function.allSites]
    exact .mute (forall_mem_nil _)
  | decl :: rest => by
    rw [Function.allEvents, Function.allNests, Function.allParts, Function.allSites]
    exact (decl.woven .inlineFunction).append (Function.allWoven rest)

theorem Stmt.allWoven : ∀ stmts : List Stmt,
    Woven (Stmt.allEvents stmts) (Stmt.allNests stmts) (Stmt.allParts stmts) (Stmt.allSites stmts)
  | [] => by
    rw [Stmt.allEvents, Stmt.allNests, Stmt.allParts, Stmt.allSites]
    exact .mute (forall_mem_nil _)
  | stmt :: rest => by
    rw [Stmt.allEvents, Stmt.allNests, Stmt.allParts, Stmt.allSites]
    exact stmt.woven.whole.append (Stmt.allWoven rest)

end

end Syntax

end Datapack
