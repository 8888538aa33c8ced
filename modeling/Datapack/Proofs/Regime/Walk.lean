import Datapack.Proofs.Regime.Places

/-!
Compiling by rules. If the steps that read and change the state keep to a regime, so do those that are made of them:
expressions, calls, statements, declarations and expansions, as long as the code that is compiled is as told.
-/

namespace Datapack

open Syntax List

variable {env : Environment} {ι : Type} {i : ι} {expand : Expansion} {span : Span} {v : Value}
  {receiver : Option Receiver} {name : String} {body : Compile Unit}

def Regime.Runs {env : Environment} {ι : Type} (R : Regime env ι) (inside : ι → Prop) (body : Compile Unit) : Prop :=
  ∀ i, inside i → R.Keeps i body fun _ _ => True

/-- A regime with the rules by which all steps of a compilation that read and change the state keep to it. -/
structure StepRules (env : Environment) (ι : Type) extends PlaceRules env ι where
  /-- The points at which a value may be returned. -/
  inside : ι → Prop
  function : ι → FunctionDef → Prop
  routine : ι → String → Prop
  /-- What is known of a condition that is to be tested, and of one that stays as it is. -/
  tested : ι → Condition → Bool → Prop
  stable : ι → Condition → Prop
  inside_of_goes {i j : ι} : goes i j → inside i → inside j
  function_of_goes {i j : ι} {f : FunctionDef} : goes i j → function i f → function j f
  routine_of_goes {i j : ι} {name : String} : goes i j → routine i name → routine j name
  stable_of_goes {i j : ι} {c : Condition} : goes i j → stable i c → stable j c
  truth {i : ι} {cell : Cell} {temporary : Bool} : value i (.bool (.dynamic cell temporary)) →
    tested i (.isTrue cell) temporary
  nonzero {i : ι} {cell : Cell} {temporary : Bool} : value i (.number (.dynamic cell temporary)) →
    tested i ⟨true, .range cell (some 0) (some 0)⟩ false
  negate {i : ι} {c : Condition} : stable i c → stable i c.negated
  registered {i : ι} {id : Nat} {f : FunctionDef} : holds i → (state i).functions[id]? = some f → function i f
  default {i : ι} {f : FunctionDef} : function i f → ∀ p ∈ f.signature.params, ∀ v, p.default? = some v → stored i v
  params {i : ι} {f : FunctionDef} : function i f →
    ∀ param ∈ f.decl.params, terms.site param.span ∧ clean param.name
  receiver {i : ι} {f : FunctionDef} {site : Span} : function i f → f.decl.receiver = some site → terms.site site
  body {i : ι} {f : FunctionDef} : function i f → terms.Allows f.decl.body.stmts
  objectName {i : ι} {r : Receiver} {name : String} : object i r → r.var = some name → clean name
  unary {i : ι} {op : UnaryOp} {v : Value} {span : Span} : terms.site span → value i v →
    toRegime.Keeps i (Compile.tryEmitting span (v.unary op)) value
  binary {i : ι} {op : BinaryOp} {a b : Value} {span : Span} : terms.site span → value i a → value i b →
    toRegime.Keeps i (Compile.tryEmitting span (a.binary op b)) value
  update {i : ι} {op : BinaryOp} {a b : Value} {span : Span} : terms.site span → current i a → value i b →
    toRegime.Keeps i (Compile.tryEmitting span (a.binary op b)) stored
  callBuiltin {i : ι} {builtin : Builtin} {args : List Value} {span : Span} : terms.site span →
    (∀ v ∈ args, value i v) → toRegime.Keeps i (Compile.callBuiltin builtin args span) value
  construct {i : ι} {id : Nat} {args : List Value} {span : Span} : terms.site span →
    (∀ v ∈ args, value i v) → toRegime.Keeps i (Compile.construct id args span) value
  pass {i : ι} {f : FunctionDef} {routine : String} {params : List Slot} {result slot : Slot} {v : Value} {span : Span} :
    terms.site span → function i f → f.form = .plain routine params result → slot ∈ params → stored i v →
      toRegime.Keeps i (Compile.tryEmitting span (v.store slot)) fun _ _ => True
  enter {i : ι} {f : FunctionDef} {routine : String} {params : List Slot} {result : Slot} : function i f →
    f.form = .plain routine params result → toRegime.Keeps i (Compile.emit (.call routine)) fun _ _ => True
  fetch {i : ι} {f : FunctionDef} {routine : String} {params : List Slot} {result : Slot} {v : Value} {span : Span} :
    terms.site span → function i f → f.form = .plain routine params result →
      f.signature.result.atSlot? result = some v → toRegime.Keeps i (Compile.tryEmitting span v.detach) value
  stabilize {i : ι} {c : Condition} {ownCell : Bool} : tested i c ownCell →
    toRegime.Keeps i (Compile.stableCondition c ownCell) stable
  call {i : ι} {name : String} {location : Option Span} : routine i name →
    toRegime.Keeps i (Compile.emitNode { Node.leaf (.call name) with location }) fun _ _ => True
  callIf {i : ι} {name : String} {location : Option Span} {c : Condition} {ownCell : Bool} : routine i name →
    tested i c ownCell →
      toRegime.Keeps i (Compile.emitNode (.guarded [c] [{ Node.leaf (.call name) with location }])) fun _ _ => True
  locate {body : Compile Unit} {span : Span} : toRegime.Runs inside body →
    toRegime.Runs inside (Compile.atLocation span body)
  frame {i : ι} {kind : ScopeKind} {scope : Span} {body : Compile Unit} : inside i ∨ kind.passesResults = false →
    (∀ j, inside j → (∀ v, stored i v → stored j v) → toRegime.Keeps j body fun _ _ => True) →
      toRegime.Keeps i (Compile.inFrame kind scope body) fun _ _ => True
  inline {i : ι} {scope : Span} {body : Compile (Value × Option Value)} :
    (∀ j, inside j → (∀ v, stored i v → stored j v) → (∀ r, object i r → object j r) →
      toRegime.Keeps j body fun k result => result = ((state k).frames.top.returned.getD .null,
        (Ordered.get? Compile.selfName (state k).frames.top.vars).map (·.value))) →
      toRegime.Keeps i (Compile.inFrame .inlineFunction scope body) fun j result => value j result.1 ∧
        ∀ v, result.2 = some v → stored j v
  guard {i : ι} {c : Condition} {body : Compile Unit} : inside i → stable i c → toRegime.Runs inside body →
    toRegime.Keeps i (Compile.emitGuarded c body) fun _ _ => True
  loop {i : ι} {expand : Expansion} {cond : Expr} {body : Compile Unit} {span : Span} :
    (∀ j name, routine j name → toRegime.Keeps j (Compile.callIf expand cond name) fun _ _ => True) →
      toRegime.Runs (fun _ => True) body → toRegime.Keeps i (Compile.loop expand cond body span) fun _ _ => True
  giveBack {i : ι} {v : Value} {span : Span} : inside i → terms.site span → value i v →
    toRegime.Keeps i (Compile.returnValue v span) fun _ _ => True
  register {i : ι} {signature : Signature} {decl : Function} : terms.AllowsFunction decl →
    (∀ p ∈ signature.params, ∀ v, p.default? = some v → stored i v) →
      toRegime.Keeps i (Compile.registerFunction ⟨signature, decl, .inline⟩) fun _ _ => True
  plain {i : ι} {signature : Signature} {decl : Function} {body : Compile Unit} : terms.AllowsFunction decl →
    (∀ p ∈ signature.params, clean p.name ∧ ∀ v, p.default? = some v → stored i v) → toRegime.Runs inside body →
      toRegime.Keeps i (do
        let routine ← Compile.freshRoutineName decl.name
        if decl.name == "init" then modify fun s => { s with userInit := some routine }
        Compile.declarePlain decl signature routine body) fun _ _ => True
  addStruct {i : ι} {name : String} {fields : List (String × Kind)} : (∀ field ∈ fields, clean field.1) →
    toRegime.Keeps i (modifyGet fun s => (s.structs.size, { s with structs := s.structs.push { name, fields } }))
      fun _ _ => True
  addMethod {i : ι} {struct id : Nat} {name : String} :
    toRegime.Keeps i (modify fun s => { s with
      structs := s.structs.modify struct fun d => { d with methods := Ordered.put name id d.methods } })
        fun _ _ => True

namespace StepRules

open Compile PlaceRules

variable {R : StepRules env ι} {args : List Value}

/-- What is known of the value of an expression: something more of a place, and most of a variable. -/
structure Outcome (R : StepRules env ι) (e : Expr) (i : ι) (v : Value) : Prop where
  value : R.value i v
  fixed : e.isPlace = true → R.fixed i v
  reads : ∀ name span, e = .var name span →
    (∀ key var, (R.state i).frames.find? name = some (key, var) → v = var.value) ∧
      ((R.state i).frames.find? name = none → ∃ builtin, v = .builtin builtin)

def Expands (R : StepRules env ι) (expand : Expansion) : Prop :=
  ∀ i f receiver args span, R.terms.site span → R.function i f → (∀ r, receiver = some r → R.object i r) →
    (∀ argument ∈ args, ∀ v ∈ argument.values, R.stored i v) → R.Keeps i (expand f receiver args span) R.value

theorem Outcome.of_value {e : Expr} (h : R.value i v) (he : e.isPlace = false) : R.Outcome e i v :=
  ⟨h, fun hplace => absurd (he.symm.trans hplace) (by decide), fun _ _ heq => by cases heq; cases he⟩

theorem keeps_select {selector : Selector} (hspan : R.terms.site span) {P : ι → Value → Prop}
    (h : ∀ part, v.select selector = .ok part → P i part) : R.Keeps i (orFail span (v.select selector)) P :=
  .orFail h fun _ hfault => R.stop hspan ((Value.isNoPart_of_select hfault).isLink)

theorem keeps_indexWord (hspan : R.terms.site span) : R.Keeps i (indexWord v span) fun _ _ => True := by
  unfold indexWord
  split
  · exact .pure trivial
  · exact keeps_fail hspan rfl
  · exact keeps_fail hspan rfl

theorem keeps_resolveKind {type : Ident} (hspan : R.terms.site type.span) :
    R.Keeps i (resolveKind type) fun _ _ => True := by
  unfold resolveKind
  split
  · exact .pure trivial
  · refine .framesBind ?_
    split
    · exact .pure trivial
    · exact keeps_fail hspan rfl

theorem keeps_matchCall {signature : Signature} (hspan : R.terms.site span) (hargs : ∀ v ∈ args, R.stored i v)
    (hdefault : ∀ p ∈ signature.params, ∀ v, p.default? = some v → R.stored i v) :
    R.Keeps i (matchCall signature args span) fun j matched => ∀ argument ∈ matched, ∀ v ∈ argument.values,
      R.stored j v := by
  unfold matchCall
  split
  next matched hmatched =>
    exact .pure (Signature.forall_of_distribute hmatched hargs hdefault)
  next => exact keeps_fail hspan rfl

theorem keeps_callFunction {id : Nat} (hexpand : R.Expands expand) (hspan : R.terms.site span)
    (hreceiver : ∀ r, receiver = some r → R.object i r) (hargs : ∀ v ∈ args, R.stored i v) :
    R.Keeps i (callFunction expand id receiver args span) R.value := by
  refine .of_holds fun hi => .getBind ?_
  split
  · exact keeps_fail hspan rfl
  next f hf =>
    have hf := R.registered hi hf
    refine .bind (keeps_matchCall hspan hargs (R.default hf)) fun matched j hj hmatched => ?_
    have hf := R.function_of_goes hj hf
    split
    · exact hexpand j f receiver matched span hspan hf (fun r hr => R.object_of_goes hj (hreceiver r hr)) hmatched
    next routine params result hform =>
      refine .bind (.forM fun pair hpair k hk => .forM fun v hv l hl => .discard (Q := fun _ => True) ?_)
        fun _ k hk _ => ?_
      · have hmatched := R.stored_of_goes (R.trans hk hl) (hmatched _ (of_mem_zip hpair).1 v hv)
        exact R.pass hspan (R.function_of_goes (R.trans hk hl) hf) hform (of_mem_zip hpair).2 hmatched
      have hf := R.function_of_goes hk hf
      refine .bind (R.enter hf hform) fun _ l hl _ => ?_
      split
      next v hv => exact R.fetch hspan (R.function_of_goes hl hf) hform hv
      next => exact .pure (R.known trivial rfl)

theorem keeps_callValue {callee : Value} (hexpand : R.Expands expand) (hspan : R.terms.site span)
    (hargs : ∀ v ∈ args, R.value i v) : R.Keeps i (callValue expand callee args span) R.value := by
  unfold callValue
  split
  · exact R.callBuiltin hspan hargs
  · exact keeps_callFunction hexpand hspan (by simp) fun v hv => R.store (hargs v hv)
  · exact R.construct hspan hargs
  · exact keeps_fail hspan rfl

theorem keeps_method? {receiver : Value} {P : ι → Prop} (h : P i) :
    R.Keeps i (method? receiver name) fun j id? => P j ∧ ∀ id, id? = some id → ∀ builtin, receiver ≠ .builtin builtin := by
  unfold method?
  split
  · exact .getBind (.pure ⟨h, nofun⟩)
  · exact .pure ⟨h, nofun⟩

theorem keeps_receiverOf {object : Expr} (hv : R.Outcome object i v) (hbuiltin : ∀ builtin, v ≠ .builtin builtin)
    (hplace : R.terms.onPlaces → object.isPlace = true) : R.Keeps i (receiverOf object v) R.object := by
  refine .of_holds fun hi => ?_
  unfold receiverOf
  split
  next name site =>
    obtain ⟨hvar, hnone⟩ := hv.reads name site rfl
    refine .framesBind (.pure ?_)
    cases hfind : (R.state i).frames.find? name with
    | none =>
      obtain ⟨builtin, heq⟩ := hnone hfind
      exact absurd heq (hbuiltin builtin)
    | some bound =>
      cases hvar bound.1 bound.2 hfind
      exact (R.found hi hfind).2.2.2
  next => exact .pure (R.free hv.value fun h => hv.fixed (hplace h))

theorem keeps_blockId? {base : Expr} {member : String} (hspan : R.terms.site span) :
    R.Keeps i (blockId? base member span) fun _ block => ∀ v, block = some v → v.IsFlat ∧ v.isStatic = true := by
  unfold blockId?
  split
  · refine .framesBind ?_
    split
    · exact .pure nofun
    · refine .readBind ?_
      split
      · exact .failBind (R.stop hspan rfl)
      · exact .pure fun v hv => Option.some.inj hv ▸ ⟨trivial, rfl⟩
  · exact .pure nofun

end StepRules

namespace Syntax

open Compile PlaceRules StepRules

variable {R : StepRules env ι}

mutual

theorem Expr.keeps_compile (hexpand : R.Expands expand) (i : ι) :
    ∀ e : Expr, R.terms.AllowsExpr e → R.Keeps i (e.compile expand) (R.Outcome e)
  | .int _ _, _ | .decimal _ _, _ | .string _ _, _ | .bool _ _, _ | .null _, _ => by
    rw [Expr.compile]
    exact .pure (.of_value (R.known trivial rfl) rfl)
  | .var name span, h => by
    rw [Expr.compile]
    refine .imp (keeps_readName h.span) fun j v _ hv => ⟨hv.1, fun _ => hv.2.1, fun other site heq => ?_⟩
    obtain ⟨rfl, -⟩ := Expr.var.inj heq
    exact hv.2.2
  | .unary op operand span, h => by
    rw [Expr.compile]
    refine .bind (Expr.keeps_compile hexpand i operand (h.operand (by simp [Expr.operands]))) fun a j _ ha => ?_
    exact .imp (R.unary h.span ha.value) fun _ _ _ hv => .of_value hv rfl
  | .binary left op right span, h => by
    rw [Expr.compile]
    refine .bind (Expr.keeps_compile hexpand i left (h.operand (by simp [Expr.operands]))) fun a j _ ha => ?_
    refine .bind (Expr.keeps_compile hexpand j right (h.operand (by simp [Expr.operands]))) fun b k hk hb => ?_
    exact .imp (R.binary h.span (R.value_of_goes hk ha.value) hb.value) fun _ _ _ hv => .of_value hv rfl
  | .index base subscript span, h => by
    have hsubscript : R.terms.AllowsExpr subscript := h.operand (by simp [Expr.operands])
    rw [Expr.compile]
    refine .bind (Expr.keeps_compile hexpand i base (h.operand (by simp [Expr.operands]))) fun v j _ hv => ?_
    refine .bind (Expr.keeps_compile hexpand j subscript hsubscript) fun index k hk _ => ?_
    refine .bind (keeps_indexWord hsubscript.span) fun _ l hl _ => keeps_select h.span fun part hpart => ?_
    have hl := R.trans hk hl
    exact ⟨(R.select hpart).1 (R.value_of_goes hl hv.value), fun hplace =>
      (R.select hpart).2 (R.fixed_of_goes hl (hv.fixed hplace)), nofun⟩
  | .member base name span, h => by
    rw [Expr.compile]
    refine .bind (keeps_blockId? h.span) fun block j _ hblock => ?_
    split
    next v =>
      obtain ⟨hflat, hstatic⟩ := hblock v rfl
      exact .pure ⟨R.known hflat hstatic, fun _ => R.known_fixed hflat hstatic, nofun⟩
    next =>
      refine .bind (Expr.keeps_compile hexpand j base (h.operand (by simp [Expr.operands]))) fun v k _ hv => ?_
      exact keeps_select h.span fun part hpart =>
        ⟨(R.select hpart).1 hv.value, fun hplace => (R.select hpart).2 (hv.fixed hplace), nofun⟩
  | .call callee args span, h => by
    refine Regime.Keeps.imp (P := R.value) ?_ fun _ _ _ hv => .of_value hv rfl
    have hcallee : R.terms.AllowsExpr callee := h.operand (by simp [Expr.operands])
    have hargs := fun i => Expr.keeps_compileAll hexpand i args fun e he => h.operand (by simp [Expr.operands, he])
    cases callee with
    | member object name memberSpan =>
      rw [Expr.compile]
      refine .bind (Expr.keeps_compile hexpand i object (hcallee.operand (by simp [Expr.operands]))) fun v j _ hv => ?_
      refine .bind (keeps_method? (P := fun j => R.Outcome object j v) hv) fun id? k _ hk => ?_
      split
      · refine .bind (keeps_receiverOf hk.1 (hk.2 _ rfl) h.object) fun r l _ hr => .bind (hargs l) fun vs m hm hvs => ?_
        refine keeps_callFunction hexpand h.span (fun other hother => ?_) fun v hv => R.store (hvs v hv)
        exact Option.some.inj hother ▸ R.object_of_goes hm hr
      · refine .bind (keeps_select hcallee.span fun _ _ => trivial) fun callee l _ (_ : True) => ?_
        exact .bind (hargs l) fun vs _ _ hvs => keeps_callValue hexpand h.span hvs
    | _ =>
      rw [Expr.compile_call args span (by simp)]
      refine .bind (Expr.keeps_compile hexpand i _ hcallee) fun callee j _ _ => ?_
      exact .bind (hargs j) fun vs _ _ hvs => keeps_callValue hexpand h.span hvs
  | .array items span, h => by
    rw [Expr.compile]
    refine .bind (Expr.keeps_compileAll hexpand i items fun e he => h.operand (by simp [Expr.operands, he])) ?_
    exact fun vs _ _ hvs => .pure (.of_value (R.array.mpr hvs) rfl)

theorem Expr.keeps_compileAll (hexpand : R.Expands expand) (i : ι) :
    ∀ es : List Expr, (∀ e ∈ es, R.terms.AllowsExpr e) → R.Keeps i (Expr.compileAll expand es) fun j vs =>
      ∀ v ∈ vs, R.value j v
  | [], _ => .pure nofun
  | e :: rest, h => by
    obtain ⟨he, hrest⟩ := forall_mem_cons.mp h
    rw [Expr.compileAll]
    refine .bind (Expr.keeps_compile hexpand i e he) fun v j _ hv => ?_
    refine .bind (Expr.keeps_compileAll hexpand j rest hrest) fun vs k hk hvs => .pure ?_
    exact forall_mem_cons.mpr ⟨R.value_of_goes hk hv.value, hvs⟩

end

end Syntax

namespace StepRules

open Compile PlaceRules

variable {R : StepRules env ι} {decl : Function} {target : Target} {cond : Expr} {expanded : Bool}
  {methods : List Function}

theorem keeps_targetPath (hexpand : R.Expands expand) (h : ∀ e ∈ target.subscripts, R.terms.AllowsExpr e) :
    R.Keeps i (targetPath expand target) fun _ place => place.1 = target.var := by
  cases target with
  | path var members => exact .pure rfl
  | element var index =>
    have hindex := h index (.head _)
    refine .bind (index.keeps_compile hexpand i hindex) fun _ _ _ _ => ?_
    exact .bind (keeps_indexWord hindex.span) fun _ _ _ _ => .pure rfl

theorem keeps_updatePlace {op : BinaryOp} {value : Expr} (hexpand : R.Expands expand) (hspan : R.terms.site span)
    (htarget : ∀ e ∈ target.subscripts, R.terms.AllowsExpr e) (hvalue : R.terms.AllowsExpr value) :
    R.Keeps i (updatePlace expand target op value span) fun _ _ => True := by
  refine .bind (keeps_targetPath hexpand htarget) fun place _ _ _ => ?_
  refine .bind (keeps_readPlace hspan) fun current j _ hcurrent => .of_holds fun hj => ?_
  refine .bind (value.keeps_compile hexpand j hvalue) fun operand k hk hoperand => ?_
  refine .bind (R.update hspan (R.current_of_goes hj hk hcurrent.1) hoperand.value) fun result _ _ hresult => ?_
  exact keeps_assign hspan hcurrent.2 hresult

theorem keeps_itemsFor {count : Nat} (hspan : R.terms.site span) (hv : R.value i v) :
    R.Keeps i (itemsFor count span v) fun j items => ∀ item ∈ items, R.value j item := by
  unfold itemsFor
  split
  · split
    · exact .pure (R.array.mp hv)
    · exact keeps_fail hspan rfl
  · exact keeps_fail hspan rfl

theorem keeps_itemsOf (hspan : R.terms.site span) (hv : R.value i v) :
    R.Keeps i (itemsOf span v) fun j items => ∀ item ∈ items, R.value j item := by
  unfold itemsOf
  split
  · exact .pure (R.array.mp hv)
  · exact keeps_fail hspan rfl

theorem keeps_decide (hexpand : R.Expands expand) (hcond : R.terms.AllowsExpr cond) :
    R.Keeps i (decide expand cond) fun j decision =>
      ∀ c ownCell, decision = .tested c ownCell → R.tested j c ownCell := by
  refine .bind (cond.keeps_compile hexpand i hcond) fun v j _ hv => ?_
  have hv := hv.value
  unfold decisionOf
  split
  · exact .pure nofun
  · exact .pure nofun
  · exact .pure fun c ownCell heq => by cases heq; exact R.truth hv
  · exact .pure fun c ownCell heq => by cases heq; exact R.nonzero hv
  · exact keeps_fail hcond.span rfl

theorem keeps_branch {decision : Decision} {onTrue onFalse : ScopeKind → Compile Unit} {hasElse : Bool}
    (hi : R.inside i) (hdecision : ∀ c ownCell, decision = .tested c ownCell → R.tested i c ownCell)
    (htrue : ∀ kind, R.Runs R.inside (onTrue kind)) (hfalse : ∀ kind, R.Runs R.inside (onFalse kind)) :
    R.Keeps i (branch decision onTrue onFalse hasElse) fun _ _ => True := by
  unfold branch
  split
  · exact htrue _ i hi
  · exact hfalse _ i hi
  next condition ownCell =>
    refine .bind (R.stabilize (hdecision _ _ rfl)) fun c j hj hc => ?_
    have hj := R.inside_of_goes hj hi
    refine .bind (R.guard hj hc (htrue _)) fun _ k hk _ => ?_
    split
    · exact R.guard (R.inside_of_goes hk hj) (R.negate (R.stable_of_goes hk hc)) (hfalse _)
    · exact .pure trivial

theorem keeps_callIf (hexpand : R.Expands expand) (hcond : R.terms.AllowsExpr cond)
    (hname : R.routine i name) : R.Keeps i (Compile.callIf expand cond name) fun _ _ => True := by
  refine .getBind (.bind (keeps_decide hexpand hcond) fun decision j hj hdecision => ?_)
  have hname := R.routine_of_goes hj hname
  split
  · exact .pure trivial
  · exact .bind (R.call hname) fun _ _ _ _ => .pure trivial
  · exact .bind (R.callIf hname (hdecision _ _ rfl)) fun _ _ _ _ => .pure trivial

theorem keeps_parameterOf {param : Param} (hexpand : R.Expands expand)
    (hdecl : R.terms.AllowsFunction decl) (hparam : param ∈ decl.params) :
    R.Keeps i (parameterOf expand expanded param) fun j p =>
      p.name = param.name ∧ ∀ v, p.default? = some v → R.stored j v := by
  obtain ⟨hspan, htype, hdefault⟩ := hdecl.param hparam
  refine .bind (keeps_resolveKind htype) fun kind j _ _ => ?_
  split <;> dsimp only
  · split
    · exact .failBind (R.stop hspan rfl)
    · exact .pure ⟨rfl, nofun⟩
  next value hvalue =>
    split
    · exact .failBind (R.stop hspan rfl)
    · refine .bind (value.keeps_compile hexpand j (hdefault value hvalue)) fun v k _ hv => .pure ⟨rfl, ?_⟩
      exact fun w hw => Option.some.inj hw ▸ R.store hv.value

theorem keeps_resultOf {type : Option Ident} (h : ∀ t, type = some t → R.terms.site t.span) :
    R.Keeps i (resultOf expanded type) fun _ _ => True := by
  unfold resultOf
  split
  next type =>
    refine .bind (keeps_resolveKind (h type rfl)) fun kind _ _ _ => ?_
    split
    · exact .failBind (R.stop (h type rfl) rfl)
    · exact .pure trivial
  next => exact .pure trivial

variable (hexpand : R.Expands expand)

include hexpand

theorem keeps_signatureOf {isMethod : Bool} (hdecl : R.terms.AllowsFunction decl) :
    R.Keeps i (signatureOf expand decl isMethod) fun j signature =>
      ∀ p ∈ signature.params, R.clean p.name ∧ ∀ v, p.default? = some v → R.stored j v := by
  refine .bind (.mapM (Q := fun j p => R.clean p.name ∧ ∀ v, p.default? = some v → R.stored j v) ?_ ?_) ?_
  · exact fun _ _ p hgoes hp => ⟨hp.1, fun v hv => R.stored_of_goes hgoes (hp.2 v hv)⟩
  · intro param hparam j _
    refine .imp (keeps_parameterOf hexpand hdecl hparam) fun _ p _ hp => ⟨hp.1 ▸ clean_param hdecl hparam, hp.2⟩
  · refine fun params j _ hparams => .bind (keeps_resultOf fun t ht => hdecl.result ht) fun _ k hk _ => .pure ?_
    exact fun p hp => ⟨(hparams p hp).1, fun v hv => R.stored_of_goes hk ((hparams p hp).2 v hv)⟩

theorem keeps_declareFunction (hdecl : R.terms.AllowsFunction decl) (hbody : R.Runs R.inside body) :
    R.Keeps i (declareFunction expand decl body) fun _ _ => True := by
  refine .bind (keeps_signatureOf hexpand hdecl) fun signature j _ hsignature => ?_
  split
  · refine .bind (R.register hdecl fun p hp => (hsignature p hp).2) fun id k _ _ => ?_
    exact keeps_declare hdecl.span (clean_name hdecl) (R.store (R.known trivial rfl))
  · exact R.plain hdecl hsignature hbody

theorem keeps_declareMethods {struct : Nat} (h : ∀ decl ∈ methods, R.terms.AllowsFunction decl) :
    R.Keeps i (declareMethods expand struct methods) fun _ _ => True := by
  induction methods generalizing i with
  | nil => exact .pure trivial
  | cons decl rest ih =>
    obtain ⟨hdecl, hrest⟩ := forall_mem_cons.mp h
    rw [declareMethods]
    refine .bind (keeps_signatureOf hexpand hdecl) fun signature j _ hsignature => ?_
    refine .bind (R.register hdecl fun p hp => (hsignature p hp).2) fun id k _ _ => ?_
    exact .bind R.addMethod fun _ _ _ _ => ih hrest

theorem keeps_declareStruct {fields : List (String × Ident)} {scope : Span}
    (h : R.terms.AllowsStmt (.struct name fields methods scope span)) :
    R.Keeps i (declareStruct expand name fields methods span) fun _ _ => True := by
  have hclean : ∀ field ∈ fields, R.clean field.1 := fun field hfield =>
    R.clean_of fun hn => (h.binds hn).2.1 field hfield
  refine .bind (.mapM (Q := fun _ x => R.clean x.1) (fun _ _ _ _ => id) fun field hfield _ _ => ?_) ?_
  · refine .bind (keeps_resolveKind (h.sites _ ?_)) fun _ _ _ _ => .pure (hclean field hfield)
    simp only [Stmt.sites, mem_cons, mem_append, mem_map]
    exact .inr (.inr (.inl ⟨field, hfield, rfl⟩))
  · refine fun kinds j _ hkinds => .bind (R.addStruct hkinds) fun id k _ _ => ?_
    refine .bind (keeps_declare h.span (R.clean_of fun hn => (h.binds hn).1) (R.store (R.known trivial rfl))) ?_
    exact fun _ _ _ _ => keeps_declareMethods hexpand fun decl hdecl => h.method hdecl

end StepRules

namespace Syntax

open Compile PlaceRules StepRules

variable {R : StepRules env ι}

mutual

theorem Stmt.runs_compile (hexpand : R.Expands expand) :
    ∀ stmt : Stmt, R.terms.AllowsStmt stmt → R.Runs R.inside (stmt.compile expand)
  | .expr value span, h => by
    rw [Stmt.compile]
    exact R.locate fun i _ => .discard (value.keeps_compile hexpand i (h.value (by simp [Stmt.values]))).anything
  | .assign target value span, h => by
    rw [Stmt.compile]
    refine R.locate fun i _ => .bind (value.keeps_compile hexpand i (h.value (by simp [Stmt.values]))) fun v j _ hv => ?_
    refine .bind (keeps_targetPath hexpand fun e he => h.value (by simp [Stmt.values, he])) fun place k hk hplace => ?_
    exact keeps_assign h.span (hplace ▸ R.clean_of h.binds) (R.stored_of_goes hk (R.store hv.value))
  | .update target op value span, h => by
    rw [Stmt.compile]
    refine R.locate fun i _ => keeps_updatePlace hexpand h.span (fun e he => ?_) (h.value (by simp [Stmt.values]))
    exact h.value (by simp [Stmt.values, he])
  | .destructure names value span, h => by
    have hvalue : R.terms.AllowsExpr value := h.value (by simp [Stmt.values])
    rw [Stmt.compile]
    refine R.locate fun i _ => .bind (value.keeps_compile hexpand i hvalue) fun v j _ hv => ?_
    refine .bind (keeps_itemsFor hvalue.span hv.value) fun items k _ hitems => .forM fun pair hpair l hl => ?_
    obtain ⟨hname, hitem⟩ := of_mem_zip hpair
    exact keeps_assign h.span (R.clean_of fun hn => h.binds hn _ hname) (R.stored_of_goes hl (R.store (hitems _ hitem)))
  | .const name value span, h => by
    rw [Stmt.compile]
    refine R.locate fun i _ => .bind (value.keeps_compile hexpand i (h.value (by simp [Stmt.values]))) fun v j _ hv => ?_
    split
    · exact .failBind (R.stop h.span rfl)
    · exact keeps_declare h.span (R.clean_of h.binds) (R.store hv.value)
  | .branch cond onTrue none span, h => by
    rw [Stmt.compile]
    refine R.locate fun i hi => .bind (keeps_decide hexpand (h.value (by simp [Stmt.values]))) ?_
    refine fun decision j hj hdecision => keeps_branch (R.inside_of_goes hj hi) hdecision (fun kind => ?_) ?_
    · exact Block.runs_compile hexpand kind onTrue (h.body onTrue (by simp [Stmt.bodies]))
    · exact fun _ _ _ => .pure trivial
  | .branch cond onTrue (some onFalse) span, h => by
    rw [Stmt.compile]
    refine R.locate fun i hi => .bind (keeps_decide hexpand (h.value (by simp [Stmt.values]))) ?_
    refine fun decision j hj hdecision => keeps_branch (R.inside_of_goes hj hi) hdecision (fun kind => ?_) fun kind => ?_
    · exact Block.runs_compile hexpand kind onTrue (h.body onTrue (by simp [Stmt.bodies]))
    · exact Block.runs_compile hexpand kind onFalse (h.body onFalse (by simp [Stmt.bodies]))
  | .repeatWhile cond ⟨stmts, scope⟩ span, h => by
    rw [Stmt.compile]
    have hstmts : R.terms.Allows stmts := h.body ⟨stmts, scope⟩ (by simp [Stmt.bodies])
    refine R.locate fun i _ => R.loop (fun j name hname => ?_) fun j _ => ?_
    · exact keeps_callIf hexpand (h.value (by simp [Stmt.values])) hname
    · rw [Block.compile]
      exact R.frame (.inr rfl) fun k hk _ => Stmt.runs_compileAll hexpand stmts hstmts k hk
  | .forEach var items ⟨stmts, scope⟩ span, h => by
    have hitems : R.terms.AllowsExpr items := h.value (by simp [Stmt.values])
    have hvar : R.terms.site var.span := h.sites _ (by simp [Stmt.sites])
    have hstmts : R.terms.Allows stmts := h.body ⟨stmts, scope⟩ (by simp [Stmt.bodies])
    rw [Stmt.compile]
    refine R.locate fun i hi => .bind (items.keeps_compile hexpand i hitems) fun v j hj hv => ?_
    refine .bind (keeps_itemsOf hitems.span hv.value) fun values k hk hvalues => .forM fun item hitem l hl => ?_
    refine R.frame (.inl (R.inside_of_goes (R.trans hj (R.trans hk hl)) hi)) fun m hm hstored => ?_
    have hitem := hstored item (R.stored_of_goes hl (R.store (hvalues item hitem)))
    refine .bind (keeps_declare hvar (R.clean_of h.binds) hitem) fun _ n hn _ => ?_
    exact Stmt.runs_compileAll hexpand stmts hstmts n (R.inside_of_goes hn hm)
  | .block body span, h => by
    rw [Stmt.compile]
    exact R.locate (Block.runs_compile hexpand .block body (h.body body (by simp [Stmt.bodies])))
  | .function ⟨name, isInline, receiver, params, result, ⟨stmts, scope⟩, declSpan⟩ span, h => by
    rw [Stmt.compile]
    exact R.locate fun i _ => keeps_declareFunction hexpand h.function (Stmt.runs_compileAll hexpand stmts h.function.body)
  | .struct name fields methods scope span, h => by
    rw [Stmt.compile]
    exact R.locate fun i _ => keeps_declareStruct hexpand h
  | .return none span, h => by
    rw [Stmt.compile]
    exact R.locate fun i hi => R.giveBack hi h.span (R.known trivial rfl)
  | .return (some value) span, h => by
    rw [Stmt.compile]
    refine R.locate fun i hi => .bind (value.keeps_compile hexpand i (h.value (by simp [Stmt.values]))) ?_
    exact fun v j hj hv => R.giveBack (R.inside_of_goes hj hi) h.span hv.value

theorem Block.runs_compile (hexpand : R.Expands expand) (kind : ScopeKind) :
    ∀ block : Block, R.terms.Allows block.stmts → R.Runs R.inside (block.compile expand kind)
  | ⟨stmts, scope⟩, h => by
    intro i hi
    rw [Block.compile]
    exact R.frame (.inl hi) fun j hj _ => Stmt.runs_compileAll hexpand stmts h j hj

theorem Stmt.runs_compileAll (hexpand : R.Expands expand) :
    ∀ stmts : List Stmt, R.terms.Allows stmts → R.Runs R.inside (Stmt.compileAll expand stmts)
  | [], _ => fun _ _ => .pure trivial
  | stmt :: rest, h => by
    intro i hi
    rw [Stmt.compileAll]
    refine .bind (Stmt.runs_compile hexpand stmt h.cons.1 i hi) fun _ j hj _ => ?_
    exact Stmt.runs_compileAll hexpand rest h.cons.2 j (R.inside_of_goes hj hi)

end

end Syntax

namespace StepRules

open PlaceRules

theorem keeps_expandBody {R : StepRules env ι} {f : FunctionDef} {args : List Argument} (hspan : R.terms.site span)
    (hf : R.function i f) (hreceiver : ∀ r, receiver = some r → R.object i r)
    (hargs : ∀ argument ∈ args, ∀ v ∈ argument.values, R.stored i v) (hbody : R.Runs R.inside body) :
    R.Keeps i (Compile.expandBody f receiver args span body) R.value := by
  refine .bind (R.inline fun j hj hstored hobject => ?_) fun result j hj hresult => ?_
  · refine keeps_expandedBody (fun site => R.receiver hf) (R.params hf) (fun r hr => hobject r (hreceiver r hr)) ?_ ?_ ?_
    · exact fun argument hargument v hv => hstored v (hargs argument hargument v hv)
    · exact fun k hk => hbody k (R.inside_of_goes hk hj)
    · exact fun _ _ => .framesBind (.pure rfl)
  · obtain ⟨returned, self⟩ := result
    dsimp only
    split
    next before var slot after =>
      split
      · refine .bind (keeps_assign hspan (R.objectName (hreceiver _ rfl) rfl) (hresult.2 after rfl)) fun _ _ hk _ => ?_
        exact .pure (R.value_of_goes hk hresult.1)
      · exact .pure hresult.1
    next => exact .pure hresult.1

theorem expands_expandWithin (R : StepRules env ι) (budget : Nat) : R.Expands (Compile.expandWithin budget) := by
  induction budget with
  | zero => exact fun _ _ _ _ _ hspan _ _ _ => keeps_fail hspan rfl
  | succ budget ih =>
    intro i f receiver args span hspan hf hreceiver hargs
    exact keeps_expandBody hspan hf hreceiver hargs (Stmt.runs_compileAll ih f.decl.body.stmts (R.body hf))

end StepRules

end Datapack
