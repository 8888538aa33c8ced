import Datapack.Proofs.Layout
import Datapack.Proofs.Temporaries.Basic

/-!
What can be told of the code that is compiled: where it stands, that it binds names, and that methods are called on places.
What is told of a piece of code is told of its parts.
-/

namespace Datapack

open List

namespace Syntax

mutual

def Expr.sites : Expr → List Span
  | .int _ span | .decimal _ span | .string _ span | .bool _ span | .null span | .var _ span => [span]
  | .unary _ operand span => span :: operand.sites
  | .binary left _ right span => span :: (left.sites ++ right.sites)
  | .index base subscript span => span :: (base.sites ++ subscript.sites)
  | .member base _ span => span :: base.sites
  | .call callee args span => span :: (callee.sites ++ Expr.allSites args)
  | .array items span => span :: Expr.allSites items

def Expr.allSites : List Expr → List Span
  | [] => []
  | e :: rest => e.sites ++ Expr.allSites rest

end

def Target.sites : Target → List Span
  | .path _ _ => []
  | .element _ index => index.sites

def Param.sites (param : Param) : List Span :=
  param.span :: param.type.span :: (param.default?.map Expr.sites).getD []

mutual

def Stmt.sites : Stmt → List Span
  | .expr value span | .const _ value span => span :: value.sites
  | .assign target value span | .update target _ value span => span :: (target.sites ++ value.sites)
  | .destructure names value span => span :: (names.map (·.span) ++ value.sites)
  | .branch cond onTrue none span => span :: (cond.sites ++ onTrue.sites)
  | .branch cond onTrue (some onFalse) span => span :: (cond.sites ++ (onTrue.sites ++ onFalse.sites))
  | .repeatWhile cond body span => span :: (cond.sites ++ body.sites)
  | .forEach var items body span => span :: var.span :: (items.sites ++ body.sites)
  | .block body span => span :: body.sites
  | .function decl span => span :: decl.sites
  | .struct _ fields methods body span =>
    span :: body :: (fields.map (·.2.span) ++ Function.allSites methods)
  | .return none span => [span]
  | .return (some value) span => span :: value.sites

def Block.sites : Block → List Span
  | ⟨stmts, span⟩ => span :: Stmt.allSites stmts

def Function.sites : Function → List Span
  | ⟨_, _, receiver, params, result, body, span⟩ =>
    span :: (receiver.toList ++ (params.flatMap Param.sites ++ ((result.map (·.span)).toList ++ body.sites)))

def Stmt.allSites : List Stmt → List Span
  | [] => []
  | stmt :: rest => stmt.sites ++ Stmt.allSites rest

def Function.allSites : List Function → List Span
  | [] => []
  | decl :: rest => decl.sites ++ Function.allSites rest

end

def Script.sites (script : Script) : List Span := script.span :: Stmt.allSites script.stmts

theorem Expr.span_mem_sites (e : Expr) : e.span ∈ e.sites := by
  cases e <;> simp [span, sites]

theorem Stmt.span_mem_sites (stmt : Stmt) : stmt.span ∈ stmt.sites := by
  cases stmt
  case branch cond onTrue onFalse span => cases onFalse <;> simp [Stmt.span, Stmt.sites]
  case «return» value span => cases value <;> simp [Stmt.span, Stmt.sites]
  all_goals simp [Stmt.span, Stmt.sites]

theorem Function.span_mem_sites (decl : Function) : decl.span ∈ decl.sites := by
  obtain ⟨name, isInline, receiver, params, result, body, span⟩ := decl
  exact .head _

theorem Function.mem_sites_of_param {decl : Function} {param : Param} (hparam : param ∈ decl.params) :
    param.sites ⊆ decl.sites := by
  obtain ⟨name, isInline, receiver, params, result, body, span⟩ := decl
  intro site hsite
  simp only [sites, mem_cons, mem_append, mem_flatMap]
  exact .inr (.inr (.inl ⟨param, hparam, hsite⟩))

variable {es : List Expr}

theorem Expr.mem_allSites {site : Span} : site ∈ allSites es ↔ ∃ e ∈ es, site ∈ e.sites := by
  induction es with
  | nil => simp [allSites]
  | cons e rest ih => simp [allSites, ih]

theorem Expr.allCallOnPlaces_iff : allCallOnPlaces es = true ↔ ∀ e ∈ es, e.callsOnPlaces = true := by
  induction es with
  | nil => simp [allCallOnPlaces]
  | cons e rest ih => simp [allCallOnPlaces, ih]

def Expr.operands : Expr → List Expr
  | .unary _ operand _ => [operand]
  | .binary left _ right _ => [left, right]
  | .index base subscript _ => [base, subscript]
  | .member base _ _ => [base]
  | .call callee args _ => callee :: args
  | .array items _ => items
  | .int _ _ | .decimal _ _ | .string _ _ | .bool _ _ | .null _ | .var _ _ => []

def Target.subscripts : Target → List Expr
  | .path _ _ => []
  | .element _ index => [index]

def Stmt.values : Stmt → List Expr
  | .expr value _ | .destructure _ value _ | .const _ value _ | .branch value _ _ _ | .repeatWhile value _ _
  | .forEach _ value _ _ => [value]
  | .assign target value _ | .update target _ value _ => value :: target.subscripts
  | .function decl _ => decl.params.filterMap (·.default?)
  | .return value _ => value.toList
  | .block _ _ | .struct _ _ _ _ _ => []

def Stmt.bodies : Stmt → List Block
  | .branch _ onTrue onFalse _ => onTrue :: onFalse.toList
  | .repeatWhile _ body _ | .forEach _ _ body _ | .block body _ => [body]
  | _ => []

theorem Stmt.mem_parts (stmt : Stmt) : stmt ∈ stmt.parts := by
  cases stmt with
  | branch cond onTrue onFalse span => cases onFalse <;> simp [parts]
  | _ => simp [parts]

end Syntax

open Syntax

/-- What is told of the code that is compiled: a property of all its spans, whether what it binds is called by names, and
whether methods are called on places only. -/
structure Terms where
  site : Span → Prop
  named : Prop
  onPlaces : Prop

namespace Terms

structure AllowsExpr (t : Terms) (e : Expr) : Prop where
  sites : ∀ site ∈ e.sites, t.site site
  places : t.onPlaces → e.callsOnPlaces = true

structure Allows (t : Terms) (stmts : List Stmt) : Prop where
  sites : ∀ site ∈ Stmt.allSites stmts, t.site site
  named : t.named → ∀ part ∈ Stmt.allParts stmts, part.Named
  places : t.onPlaces → Stmt.allCallOnPlaces stmts = true

structure AllowsStmt (t : Terms) (stmt : Stmt) : Prop where
  sites : ∀ site ∈ stmt.sites, t.site site
  named : t.named → ∀ part ∈ stmt.parts, part.Named
  places : t.onPlaces → stmt.callsOnPlaces = true

structure AllowsFunction (t : Terms) (decl : Function) : Prop where
  sites : ∀ site ∈ decl.sites, t.site site
  named : t.named → decl.Named ∧ ∀ part ∈ decl.parts, part.Named
  places : t.onPlaces → decl.callsOnPlaces = true

def nothing : Terms := ⟨fun _ => True, False, False⟩

variable {t : Terms} {e : Expr} {stmt : Stmt} {decl : Function}

theorem nothing_allows (stmts : List Stmt) : nothing.Allows stmts := ⟨fun _ _ => trivial, False.elim, False.elim⟩

theorem nothing_allowsExpr (e : Expr) : nothing.AllowsExpr e := ⟨fun _ _ => trivial, False.elim⟩

theorem AllowsExpr.span (h : t.AllowsExpr e) : t.site e.span := h.sites _ e.span_mem_sites

theorem AllowsExpr.operand (h : t.AllowsExpr e) {part : Expr} (hpart : part ∈ e.operands) : t.AllowsExpr part := by
  have hinside : part.sites ⊆ e.sites ∧ (e.callsOnPlaces = true → part.callsOnPlaces = true) := by
    cases e with
    | unary | binary | index | member => grind [Expr.operands, Expr.sites, Expr.callsOnPlaces]
    | call callee args span =>
      rw [Expr.operands, mem_cons] at hpart
      refine ⟨fun site hsite => ?_, fun hcalls => ?_⟩
      · rw [Expr.sites]
        obtain rfl | hpart := hpart
        · simp [hsite]
        · simp [Expr.mem_allSites.mpr ⟨part, hpart, hsite⟩]
      · obtain ⟨hcallee, hargs⟩ : callee.callsOnPlaces = true ∧ Expr.allCallOnPlaces args = true := by
          cases callee <;> simp_all [Expr.callsOnPlaces]
        obtain rfl | hpart := hpart
        · exact hcallee
        · exact Expr.allCallOnPlaces_iff.mp hargs part hpart
    | array items span =>
      rw [Expr.operands] at hpart
      refine ⟨fun site hsite => ?_, fun hcalls => ?_⟩
      · exact .tail _ (Expr.mem_allSites.mpr ⟨part, hpart, hsite⟩)
      · exact Expr.allCallOnPlaces_iff.mp hcalls part hpart
    | _ => cases hpart
  exact ⟨fun site hsite => h.sites site (hinside.1 hsite), fun hp => hinside.2 (h.places hp)⟩

theorem AllowsExpr.object {object : Expr} {name : String} {memberSpan span : Span} {args : List Expr}
    (h : t.AllowsExpr (.call (.member object name memberSpan) args span)) : t.onPlaces → object.isPlace = true := by
  intro hp
  have hcalls := h.places hp
  simp only [Expr.callsOnPlaces, Bool.and_eq_true] at hcalls
  exact hcalls.1.1

theorem Allows.cons {rest : List Stmt} (h : t.Allows (stmt :: rest)) : t.AllowsStmt stmt ∧ t.Allows rest := by
  have hsites := forall_mem_append.mp h.sites
  have hnamed := fun hn => forall_mem_append.mp (h.named hn)
  have hplaces := fun hp => Bool.and_eq_true_iff.mp (h.places hp)
  exact ⟨⟨hsites.1, fun hn => (hnamed hn).1, fun hp => (hplaces hp).1⟩, hsites.2, fun hn => (hnamed hn).2,
    fun hp => (hplaces hp).2⟩

namespace AllowsStmt

section

variable (h : t.AllowsStmt stmt)

include h

theorem span : t.site stmt.span := h.sites _ stmt.span_mem_sites

theorem binds (hn : t.named) : stmt.Named := h.named hn stmt stmt.mem_parts

theorem value (he : e ∈ stmt.values) : t.AllowsExpr e := by
  have hinside : e.sites ⊆ stmt.sites ∧ (stmt.callsOnPlaces = true → e.callsOnPlaces = true) := by
    cases stmt with
    | assign target | update target =>
      cases target <;> grind [Stmt.values, Target.subscripts, Stmt.sites, Target.sites, Stmt.callsOnPlaces,
        Target.callsOnPlaces]
    | branch cond onTrue onFalse span => cases onFalse <;> grind [Stmt.values, Stmt.sites, Stmt.callsOnPlaces]
    | «return» value span => cases value <;> grind [Stmt.values, Stmt.sites, Stmt.callsOnPlaces]
    | function decl span =>
      obtain ⟨name, isInline, receiver, params, result, body, declSpan⟩ := decl
      obtain ⟨param, hparam, hdefault⟩ := mem_filterMap.mp he
      refine ⟨fun site hsite => mem_cons_of_mem _ (Function.mem_sites_of_param hparam ?_), fun hcalls => ?_⟩
      · simp [Param.sites, hdefault, hsite]
      · simp only [Stmt.callsOnPlaces, Function.callsOnPlaces, Bool.and_eq_true] at hcalls
        simpa [Param.callsOnPlaces, hdefault] using all_eq_true.mp hcalls.1 param hparam
    | block | struct => cases he
    | _ => grind [Stmt.values, Stmt.sites, Stmt.callsOnPlaces]
  exact ⟨fun site hsite => h.sites site (hinside.1 hsite), fun hp => hinside.2 (h.places hp)⟩

theorem body (block : Block) (hblock : block ∈ stmt.bodies) : t.Allows block.stmts := by
  obtain ⟨stmts, scope⟩ := block
  have hinside : Stmt.allSites stmts ⊆ stmt.sites ∧ Stmt.allParts stmts ⊆ stmt.parts ∧
      (stmt.callsOnPlaces = true → Stmt.allCallOnPlaces stmts = true) := by
    cases stmt with
    | branch cond onTrue onFalse span =>
      cases onFalse <;> grind [Stmt.bodies, Stmt.sites, Block.sites, Stmt.parts, Block.parts, Stmt.callsOnPlaces,
        Block.callsOnPlaces]
    | repeatWhile | forEach | block =>
      grind [Stmt.bodies, Stmt.sites, Block.sites, Stmt.parts, Block.parts, Stmt.callsOnPlaces, Block.callsOnPlaces]
    | _ => cases hblock
  exact ⟨fun site hsite => h.sites site (hinside.1 hsite), fun hn part hpart => h.named hn part (hinside.2.1 hpart),
    fun hp => hinside.2.2 (h.places hp)⟩

end

theorem function {span : Span} (h : t.AllowsStmt (.function decl span)) : t.AllowsFunction decl :=
  ⟨fun site hsite => h.sites site (.tail _ hsite),
    fun hn => ⟨h.binds hn, fun part hpart => h.named hn part (.tail _ hpart)⟩, h.places⟩

theorem method {name : String} {fields : List (String × Ident)} {methods : List Function} {scope span : Span}
    (h : t.AllowsStmt (.struct name fields methods scope span)) (hdecl : decl ∈ methods) : t.AllowsFunction decl := by
  have hinside : decl.sites ⊆ Function.allSites methods ∧ decl.parts ⊆ Function.allParts methods ∧
      (Function.allCallOnPlaces methods = true → decl.callsOnPlaces = true) := by
    clear h
    induction methods with
    | nil => cases hdecl
    | cons first rest ih =>
      simp only [Function.allSites, Function.allParts, Function.allCallOnPlaces, Bool.and_eq_true]
      obtain rfl | hdecl := mem_cons.mp hdecl
      · exact ⟨subset_append_left _ _, subset_append_left _ _, And.left⟩
      · obtain ⟨hsites, hparts, hcalls⟩ := ih hdecl
        exact ⟨subset_append_of_subset_right _ hsites, subset_append_of_subset_right _ hparts,
          fun h => hcalls h.2⟩
  refine ⟨fun site hsite => h.sites site ?_, fun hn => ⟨(h.binds hn).2.2 decl hdecl, fun part hpart => ?_⟩,
    fun hp => hinside.2.2 (h.places hp)⟩
  · simp [Stmt.sites, hinside.1 hsite]
  · exact h.named hn part (.tail _ (hinside.2.1 hpart))

end AllowsStmt

namespace AllowsFunction

section

variable (h : t.AllowsFunction decl)

include h

theorem span : t.site decl.span := h.sites _ decl.span_mem_sites

theorem body : t.Allows decl.body.stmts := by
  obtain ⟨name, isInline, receiver, params, result, ⟨stmts, scope⟩, declSpan⟩ := decl
  refine ⟨fun site hsite => h.sites site ?_, fun hn => (h.named hn).2, fun hp => ?_⟩
  · simp [Function.sites, Block.sites, show site ∈ Stmt.allSites stmts from hsite]
  · exact (Bool.and_eq_true_iff.mp (h.places hp)).2

theorem param {param : Param} (hparam : param ∈ decl.params) :
    t.site param.span ∧ t.site param.type.span ∧ ∀ value, param.default? = some value → t.AllowsExpr value := by
  have hsites := fun site hsite => h.sites site (Function.mem_sites_of_param hparam hsite)
  rw [Param.sites, forall_mem_cons, forall_mem_cons] at hsites
  refine ⟨hsites.1, hsites.2.1, fun value hvalue => ⟨fun site hsite => hsites.2.2 site ?_, fun hp => ?_⟩⟩
  · simpa [hvalue] using hsite
  · obtain ⟨name, isInline, receiver, params, result, body, declSpan⟩ := decl
    have hcalls := all_eq_true.mp (Bool.and_eq_true_iff.mp (h.places hp)).1 param hparam
    simpa [Param.callsOnPlaces, hvalue] using hcalls

theorem result {type : Ident} (htype : decl.result = some type) : t.site type.span := by
  obtain ⟨name, isInline, receiver, params, result, body, declSpan⟩ := decl
  obtain rfl : result = some type := htype
  exact h.sites _ (by simp [Function.sites])

theorem receiver {site : Span} (hsite : decl.receiver = some site) : t.site site := by
  obtain ⟨name, isInline, receiver, params, result, body, declSpan⟩ := decl
  obtain rfl : receiver = some site := hsite
  exact h.sites _ (by simp [Function.sites])

end

end AllowsFunction

end Terms

end Datapack
