import Datapack.Proofs.Visit.Call

/-!
What points lead to as far as the text tells. The names that are bound in the open frames at a point depend only on the
parts of the script that were passed on the way there, and on the declarations of the functions that were expanded.
-/

namespace Datapack

open Syntax List FunctionDef

variable {env : Environment} {b : Nat} {s : CompilerState}

/-- The uses of names that an event in an expression stands for. A variable that a method is called on is used before the
call and after it. -/
@[simp] def NameEvent.uses : NameEvent → List (NameUse × String × Span)
  | .read name site => [(.read, name, site), (.receiver, name, site), (.assignBack, name, site)]
  | .part name site => [(.receiver, name, site), (.assignBack, name, site)]
  | _ => []

namespace Syntax

theorem NameEvent.not_write_of_mem_uses {events : List NameEvent} :
    ∀ u ∈ events.flatMap NameEvent.uses, u.1 ≠ .assign ∧ u.1 ≠ .part := by
  intro u hu
  obtain ⟨ev, -, hu⟩ := mem_flatMap.mp hu
  cases ev <;> simp at hu <;> grind

theorem Expr.uses_subset_call (callee : Expr) (args : List Expr) (span : Span) :
    (allEvents args).flatMap NameEvent.uses ⊆ (call callee args span).events.flatMap NameEvent.uses := by
  rw [events.eq_def]
  split <;> simp_all

def Stmt.blocks : Stmt → List (ScopeKind × Block)
  | .branch _ onTrue none _ => [(.block, onTrue), (.conditional, onTrue)]
  | .branch _ onTrue (some onFalse) _ =>
    [(.block, onTrue), (.conditional, onTrue), (.block, onFalse), (.conditional, onFalse)]
  | .repeatWhile _ body _ => [(.loop, body)]
  | .block body _ => [(.block, body)]
  | _ => []

theorem Stmt.mem_blocks_onTrue (cond : Expr) (onTrue : Block) (onFalse : Option Block) (span : Span) :
    (.block, onTrue) ∈ (branch cond onTrue onFalse span).blocks ∧
      (.conditional, onTrue) ∈ (branch cond onTrue onFalse span).blocks := by
  cases onFalse <;> simp [blocks]

theorem Stmt.parts_of_blocks {stmt : Stmt} {kind : ScopeKind} {block : Block} (h : (kind, block) ∈ stmt.blocks) :
    block.parts ⊆ stmt.parts := by
  unfold blocks at h
  split at h <;> simp only [mem_cons, not_mem_nil, or_false, Prod.mk.injEq] at h
  · rw [parts]
    obtain ⟨-, rfl⟩ | ⟨-, rfl⟩ := h <;> exact subset_cons_self _ _
  · rw [parts]
    obtain ⟨-, rfl⟩ | ⟨-, rfl⟩ | ⟨-, rfl⟩ | ⟨-, rfl⟩ := h <;> intro part hpart <;> simp [hpart]
  all_goals
    obtain ⟨-, rfl⟩ := h
    rw [parts]
    exact subset_cons_self _ _

end Syntax

namespace Piece

def uses : Piece → List (NameUse × String × Span)
  | .expr e => e.events.flatMap NameEvent.uses
  | .exprs es => (Expr.allEvents es).flatMap NameEvent.uses
  | .call _ (some ⟨_, some var, _⟩) site _ _ => [(.assignBack, var, site)]
  | .name use var site => [(use, var, site)]
  | _ => []

def isValue : Piece → Bool
  | .expr _ | .exprs _ | .call _ _ _ _ _ | .name _ _ _ => true
  | .stmt _ | .stmts _ | .block _ _ => false

def parts : Piece → List Stmt
  | .stmt code => code.parts
  | .stmts code => Stmt.allParts code
  | .block _ code => code.parts
  | _ => []

inductive Shifts (parts : List Stmt) : Piece → List FrameShape → Piece → List FrameShape → Prop
  | within {p q shape} : p.isValue = true → q.isValue = true → q.uses ⊆ p.uses → Shifts parts p shape q shape
  | value {stmt e shape} : e ∈ stmt.values → Shifts parts (.stmt stmt) shape (.expr e) shape
  | assign {target value span shape} : Shifts parts (.stmt (.assign target value span)) shape
      (.name (if target.isPlain then .assign else .part) target.var span) shape
  | update {target op value span shape} : Shifts parts (.stmt (.update target op value span)) shape
      (.name .part target.var span) shape
  | destructure {before name after value span shape} :
      Shifts parts (.stmt (.destructure (before ++ name :: after) value span)) shape (.name .assign name.name span)
        (before.foldl (fun shape name => FrameShape.assign name.name shape) shape)
  | methodDefault {name fields methods body span decl param value shape} : decl ∈ methods → param ∈ decl.params →
      param.default? = some value → Shifts parts (.stmt (.struct name fields methods body span)) shape (.expr value)
        (FrameShape.bind name shape)
  | block {stmt kind block shape} : (kind, block) ∈ stmt.blocks → Shifts parts (.stmt stmt) shape (.block kind block) shape
  | iteration {var items stmts scope span shape} : Shifts parts (.stmt (.forEach var items ⟨stmts, scope⟩ span)) shape
      (.stmts stmts) (⟨.loop, scope, [var.name]⟩ :: shape)
  | body {decl span shape} : decl.isInline = false → Shifts parts (.stmt (.function decl span)) shape
      (.stmts decl.body.stmts)
      (⟨.function, decl.body.span, decl.params.map (·.name)⟩ :: FrameShape.bind decl.name shape)
  | head {stmt rest shape} : Shifts parts (.stmts (stmt :: rest)) shape (.stmt stmt) shape
  | tail {stmt rest shape} : Shifts parts (.stmts (stmt :: rest)) shape (.stmts rest) (stmt.reshape shape)
  | opened {kind stmts scope shape} : Shifts parts (.block kind ⟨stmts, scope⟩) shape (.stmts stmts)
      (⟨kind, scope, []⟩ :: shape)
  | expansion {f : FunctionDef} {id receiver site args span shape} : f.Fine parts → f.form = .inline →
      (f.signature.isMethod = true → receiver.isSome = true) →
        Shifts parts (.call id receiver site args span) shape (.stmts f.decl.body.stmts)
          (⟨.inlineFunction, f.decl.body.span, Compile.enteredNames f.decl receiver⟩ :: shape)

end Piece

namespace Point

open Compile CompilerState

/-- Whether a call is made as functions are called: methods on an object, with proper values. -/
structure CallSound (s : CompilerState) (id : Nat) (receiver : Option Receiver) (args : List Value) : Prop where
  object : ∀ r, receiver = some r → ReceiverInOrder s r
  values : ∀ v ∈ args, v.Calls s.IsFunction
  method : ∀ f, s.functions[id]? = some f → f.signature.isMethod = true → receiver.isSome = true

structure Sound (env : Environment) (parts : List Stmt) (p : Point) : Prop where
  inOrder : p.state.InOrder env (Fine parts)
  parts : p.piece.parts ⊆ parts
  call : ∀ id receiver site args span, p.piece = .call id receiver site args span → CallSound p.state id receiver args

variable {parts : List Stmt} {id : Nat} {args : List Value}

theorem CallSound.of_isFunction (hid : s.IsFunction id) (hargs : ∀ v ∈ args, v.Calls s.IsFunction) :
    CallSound s id none args := by
  refine ⟨nofun, hargs, fun f hf hmethod => ?_⟩
  obtain ⟨g, hg, hplain⟩ := hid
  rw [hf] at hg
  rw [Option.some.inj hg, hplain] at hmethod
  cases hmethod

theorem parts_of_isValue {p : Piece} (h : p.isValue = true) : p.parts = [] := by
  cases p <;> first | rfl | cases h

variable {p q : Piece} {s1 : CompilerState}

structure Follows (env : Environment) (parts : List Stmt) (p : Piece) (shape : List FrameShape) (q : Point) : Prop where
  sound : q.Sound env parts
  shifts : Piece.Shifts parts p shape q.piece q.state.shape

theorem Follows.within (hs1 : s1.InOrder env (Fine parts)) (hshape : s1.shape = s.shape)
    (hp : p.isValue = true) (hq : q.isValue = true) (huses : q.uses ⊆ p.uses)
    (hcall : ∀ id receiver site args span, q = .call id receiver site args span → CallSound s1 id receiver args) :
    Follows env parts p s.shape ⟨b, q, s1⟩ := by
  refine ⟨⟨hs1, ?_, hcall⟩, ?_⟩
  · rw [parts_of_isValue hq]
    exact nil_subset _
  · rw [hshape]
    exact .within hp hq huses

theorem uses_receiverOf {object : Expr} {member : String} {memberSpan span : Span} {args : List Expr} {v : Value}
    {r : Receiver} {vs : List Value} (h : (receiverOf object v).Yields env s r s1) :
    Piece.uses (.call id (some r) object.span vs span) ⊆
      Piece.uses (.expr (.call (.member object member memberSpan) args span)) := by
  unfold receiverOf at h
  split at h
  · simp only [yields_bind, yields_frames, yields_pure] at h
    obtain ⟨_, _, -, rfl, -⟩ := h
    simp only [Piece.uses, Expr.events, Expr.span]
    split <;> simp
  · obtain ⟨rfl, -⟩ := yields_pure.mp h
    exact nil_subset _

theorem LeadsExpr.follows (hcalls : CallsEnd env parts b) (hs : s.InOrder env (Fine parts)) {e : Expr}
    {q : Point} (h : LeadsExpr env b s e q) : Follows env parts (.expr e) s.shape q := by
  have hcompile := fun {s : CompilerState} (hs : s.InOrder env (Fine parts)) {e : Expr} {v : Value}
    {s1 : CompilerState} (h : (e.compile (expandWithin b)).Yields env s v s1) => (e.ends_compile hcalls s).of_yields hs h
  have hcompileAll := fun {s : CompilerState} (hs : s.InOrder env (Fine parts)) {es : List Expr}
    {vs : List Value} {s1 : CompilerState} (h : (Expr.compileAll (expandWithin b) es).Yields env s vs s1) =>
      (Expr.ends_compileAll hcalls s es).of_yields hs h
  cases h with
  | var | operand | items | left | base => exact .within hs rfl rfl rfl (by simp [Piece.uses, Expr.events]) nofun
  | receiver =>
    refine .within hs rfl rfl rfl ?_ nofun
    simp only [Piece.uses, Expr.events]
    split <;> simp
  | right hv | subscript hv =>
    obtain ⟨hs1, -, hshape, -⟩ := hcompile hs hv
    exact .within hs1 hshape rfl rfl (by simp [Piece.uses, Expr.events]) nofun
  | whole hblock =>
    obtain ⟨hs1, -, hshape, -⟩ := Ends.surely hs hblock ends_blockId?
    exact .within hs1 hshape rfl rfl (by simp [Piece.uses, Expr.events]) nofun
  | @object object member memberSpan args span hvar =>
    refine .within hs rfl rfl rfl ?_ nofun
    simp only [Piece.uses]
    rw [Expr.events_call args span (by rintro _ _ _ _ ⟨⟩; exact hvar _ _ rfl), Expr.events, flatMap_append]
    exact subset_append_right _ _
  | @memberArgs object member memberSpan args span v s1 hv =>
    obtain ⟨hs1, -, hshape, -⟩ := hcompile hs hv
    exact .within hs1 hshape rfl rfl (Expr.uses_subset_call _ args span) nofun
  | @method object member memberSpan args span v id receiver vs s1 s2 hv hmethod hr hvs =>
    obtain ⟨hs1, -, hshape, hvalue⟩ := hcompile hs hv
    obtain ⟨hs2, hregisters, hshape2, hargs⟩ := hcompileAll hs1 hvs
    refine .within hs2 (hshape2.trans hshape) rfl rfl (uses_receiverOf hr) ?_
    rintro _ _ _ _ _ ⟨⟩
    have hobject : ∀ name site, object = .var name site → FrameShape.anyBinds name s1.shape = true := by
      rintro name site rfl
      rw [hshape]
      exact anyBinds_of_readName hv (ne_builtin_of_method? hmethod)
    obtain ⟨-, -, -, -, hr⟩ := Ends.surely hs1 hr (ends_receiverOf hvalue hobject)
    refine ⟨?_, hargs, fun _ _ _ => rfl⟩
    rintro _ ⟨⟩
    exact ⟨hregisters.calls hr.1, fun var hvar => hshape2 ▸ hr.2 var hvar⟩
  | @memberCall object member memberSpan args span v id vs s1 s2 hv hmethod hselect hvs =>
    obtain ⟨hs1, -, hshape, hvalue⟩ := hcompile hs hv
    obtain ⟨hs2, hregisters, hshape2, hargs⟩ := hcompileAll hs1 hvs
    refine .within hs2 (hshape2.trans hshape) rfl rfl (nil_subset _) ?_
    rintro _ _ _ _ _ ⟨⟩
    exact .of_isFunction (hregisters.calls (hvalue.select hselect)) hargs
  | @callee callee args span hmember =>
    refine .within hs rfl rfl rfl ?_ nofun
    simp only [Piece.uses]
    rw [Expr.events_call args span fun _ _ _ _ => hmember _ _ _, flatMap_append]
    exact subset_append_right _ _
  | @args callee args span v s1 hmember hv =>
    obtain ⟨hs1, -, hshape, -⟩ := hcompile hs hv
    exact .within hs1 hshape rfl rfl (Expr.uses_subset_call _ args span) nofun
  | @call callee args span id vs s1 s2 hmember hv hvs =>
    obtain ⟨hs1, -, hshape, hvalue⟩ := hcompile hs hv
    obtain ⟨hs2, hregisters, hshape2, hargs⟩ := hcompileAll hs1 hvs
    refine .within hs2 (hshape2.trans hshape) rfl rfl (nil_subset _) ?_
    rintro _ _ _ _ _ ⟨⟩
    exact .of_isFunction (hregisters.calls hvalue) hargs

theorem surely_enterExpanded (hs : s.InOrder env (Fine parts)) {receiver : Option Receiver}
    (hcall : CallSound s id receiver args) {f : FunctionDef} (hf : s.functions[id]? = some f)
    {matched : List Argument} (hmatched : f.signature.matchArgs args = .ok matched)
    (henter : (enterExpanded f receiver matched).Yields env (opened .inlineFunction f.decl.body.span s) () s1) :
    s1.InOrder env (Fine parts) ∧
      s1.shape = ⟨.inlineFunction, f.decl.body.span, enteredNames f.decl receiver⟩ :: s.shape := by
  obtain ⟨hfine, hdefaults⟩ := hs.functions id f hf
  obtain ⟨values, rfl, hlength⟩ := hfine.exists_of_matchArgs hmatched
  have hvalues : ∀ v ∈ values, v.Calls s.IsFunction := fun v hv =>
    Signature.forall_of_distribute hmatched hcall.values hdefaults _ (mem_map_of_mem hv) v (.head _)
  obtain ⟨hopened, hlook⟩ : (opened .inlineFunction f.decl.body.span s).InOrder env (Fine parts) ∧ _ :=
    Ends.inOrder_opened hs
  obtain ⟨hs1, -, hshape, -⟩ := Ends.surely hopened henter (ends_enterExpanded hlength (scope_top_opened hs)
    (kind_top_opened hs) (fun r hr => (hcall.object r hr).1) hvalues)
  rw [hlook, FrameShape.bindAll_cons] at hshape
  exact ⟨hs1, hshape⟩

section

variable {stmt : Stmt} {e : Expr}

theorem Follows.value (hs1 : s1.InOrder env (Fine parts)) (hshape : s1.shape = s.shape)
    (he : e ∈ stmt.values) : Follows env parts (.stmt stmt) s.shape ⟨b, .expr e, s1⟩ := by
  refine ⟨⟨hs1, nil_subset _, nofun⟩, ?_⟩
  rw [hshape]
  exact .value he

theorem Follows.block {kind : ScopeKind} {block : Block} (hs1 : s1.InOrder env (Fine parts))
    (hshape : s1.shape = s.shape) (hparts : stmt.parts ⊆ parts) (hblock : (kind, block) ∈ stmt.blocks) :
    Follows env parts (.stmt stmt) s.shape ⟨b, .block kind block, s1⟩ := by
  refine ⟨⟨hs1, List.Subset.trans (Stmt.parts_of_blocks hblock) hparts, nofun⟩, ?_⟩
  rw [hshape]
  exact .block hblock

section

variable (hcalls : CallsEnd env parts b) (hs : s.InOrder env (Fine parts))

include hcalls hs

theorem surely_parameters {expanded : Bool} {params : List Param} {ps : List Parameter}
    (h : (params.mapM (parameterOf (expandWithin b) expanded)).Yields env s ps s1) :
    s1.InOrder env (Fine parts) ∧ s1.shape = s.shape := by
  obtain ⟨hs1, -, hshape, -⟩ := Ends.surely hs h (.mapM (fun _ _ _ => True) (fun _ _ _ _ _ => id)
    fun before param after bs s' _ _ hshape => by
      rw [← hshape]
      exact (ends_parameterOf hcalls fun _ _ _ => trivial).anything)
  exact ⟨hs1, hshape⟩

theorem surely_firstCheck {cond : Expr} {routine : String} {again : Bool}
    (h : (inPrevious (callIf (expandWithin b) cond routine)).Yields env { s with draft := s.draft.push } again s1) :
    s1.InOrder env (Fine parts) ∧ s1.shape = s.shape := by
  have hpushed : CompilerState.InOrder env (Fine parts) { s with draft := s.draft.push } := hs.congr rfl rfl
  obtain ⟨hs1, -, hshape, -⟩ := (Ends.inPrevious (P := fun _ _ => True) (ends_callIf hcalls)).of_yields hpushed h
  exact ⟨hs1, hshape⟩

theorem LeadsStmt.follows (hparts : stmt.parts ⊆ parts) {q : Point} (h : LeadsStmt env b s stmt q) :
    Follows env parts (.stmt stmt) s.shape q := by
  have hcompile := fun {s : CompilerState} (hs : s.InOrder env (Fine parts)) {e : Expr} {v : Value}
    {s1 : CompilerState} (h : (e.compile (expandWithin b)).Yields env s v s1) => (e.ends_compile hcalls s).of_yields hs h
  cases h with
  | expr | assignValue | destructureValue | const | cond | items | «return» =>
    exact .value hs rfl (by simp [Stmt.values])
  | updateIndex => exact .value hs rfl (by simp [Stmt.values, Target.subscripts])
  | assignIndex hv =>
    obtain ⟨hs1, -, hshape, -⟩ := hcompile hs hv
    exact .value hs1 hshape (by simp [Stmt.values, Target.subscripts])
  | assign hv hplace =>
    obtain ⟨hs1, -, hshape, -⟩ := hcompile hs hv
    obtain ⟨hs2, -, hshape2, hvar, -⟩ := Ends.surely hs1 hplace (ends_targetPath hcalls fun _ _ _ _ => trivial)
    refine ⟨⟨hs2, nil_subset _, by simp⟩, ?_⟩
    dsimp only at hvar ⊢
    rw [hshape2, hshape, hvar]
    exact .assign
  | updateFrom hplace =>
    obtain ⟨hs1, -, hshape, hvar, -⟩ := Ends.surely hs hplace (ends_targetPath hcalls fun _ _ _ _ => trivial)
    refine ⟨⟨hs1, nil_subset _, by simp⟩, ?_⟩
    dsimp only at hvar ⊢
    rw [hshape, hvar]
    exact .update
  | updateValue hplace =>
    obtain ⟨hs1, -, hshape, hvar, -⟩ := Ends.surely hs hplace (ends_targetPath hcalls fun _ _ _ _ => trivial)
    exact .value hs1 hshape (by simp [Stmt.values])
  | update hplace hcurrent hoperand hresult =>
    obtain ⟨hs1, -, hshape, hvar, -⟩ := Ends.surely hs hplace (ends_targetPath hcalls fun _ _ _ _ => trivial)
    obtain ⟨hs2, -, hshape2, -⟩ := hcompile hs1 hoperand
    obtain ⟨hs3, -, hshape3, -⟩ := Ends.surely (P := fun _ _ => True) hs2 hresult (.tryEmitting fun _ _ _ => trivial)
    refine ⟨⟨hs3, nil_subset _, by simp⟩, ?_⟩
    dsimp only at hvar ⊢
    rw [hshape3, hshape2, hshape, hvar]
    exact .update
  | @destructure names value span v items before name item after s1 s2 hv hitems hsplit hbefore =>
    obtain ⟨hs1, -, hshape, hcall⟩ := hcompile hs hv
    obtain ⟨-, -, -, -, hlength, hitem⟩ := Ends.surely hs1 hitems (ends_itemsFor hcall)
    have hnames : names = before.map (·.1) ++ name :: after.map (·.1) := by
      rw [← map_fst_zip hlength.ge, hsplit, map_append, map_cons]
    obtain ⟨hs2, -, hshape2, -⟩ := Ends.surely hs1 hbefore
      (.forM (fun before => before.foldl (fun shape x => FrameShape.assign x.1.name shape) s1.shape) rfl
        fun earlier x later s' hsplit' _ hregisters hshape' => by
          obtain ⟨other, v⟩ := x
          have hmem : (other, v) ∈ names.zip items := by simp [hsplit, hsplit']
          rw [foldl_append, ← hshape']
          exact ((ends_assign (hregisters.calls (hitem v (of_mem_zip hmem).2))).weaken fun _ => trivial).anything)
    have hlook : before.foldl (fun shape x => FrameShape.assign x.1.name shape) s1.shape =
        (before.map (·.1)).foldl (fun shape name => FrameShape.assign name.name shape) s1.shape := by
      rw [foldl_map]
    refine ⟨⟨hs2, nil_subset _, by simp⟩, ?_⟩
    dsimp only
    rw [hshape2, hlook, hshape, hnames]
    exact .destructure
  | chosenTrue hdecision =>
    obtain ⟨hs1, -, hshape, -⟩ := (ends_decide hcalls).of_yields hs hdecision
    exact .block hs1 hshape hparts (Stmt.mem_blocks_onTrue _ _ _ _).1
  | chosenFalse hdecision =>
    obtain ⟨hs1, -, hshape, -⟩ := (ends_decide hcalls).of_yields hs hdecision
    exact .block hs1 hshape hparts (by simp [Stmt.blocks])
  | onTrue hdecision hstable =>
    obtain ⟨hs1, -, hshape, -⟩ := (ends_decide hcalls).of_yields hs hdecision
    obtain ⟨hs2, -, hshape2, -⟩ := Ends.surely hs1 hstable ends_stableCondition
    exact .block (hs2.congr rfl rfl) (hshape2.trans hshape) hparts (Stmt.mem_blocks_onTrue _ _ _ _).2
  | @onFalse cond onTrue onFalse span condition ownCell stable s1 s2 s3 hdecision hstable hguarded =>
    obtain ⟨hs1, -, hshape, -⟩ := (ends_decide hcalls).of_yields hs hdecision
    obtain ⟨hs2, -, hshape2, -⟩ := Ends.surely hs1 hstable ends_stableCondition
    have honTrue : onTrue.parts ⊆ parts :=
      List.Subset.trans (Stmt.parts_of_blocks (Stmt.mem_blocks_onTrue _ _ _ _).2) hparts
    obtain ⟨hs3, -, hshape3, -⟩ := (Ends.emitGuarded
      (Block.ends_compile hcalls .conditional onTrue _ honTrue)).of_yields hs2 hguarded
    refine .block (hs3.congr rfl rfl) ?_ hparts (by simp [Stmt.blocks])
    exact (hshape3.trans hshape2).trans hshape
  | firstCheck hroutine =>
    obtain ⟨hs1, -, hshape, -⟩ := Ends.surely hs hroutine ends_loopRoutine
    exact .value (hs1.congr rfl rfl) hshape (by simp [Stmt.values])
  | loopBody hroutine hagain =>
    obtain ⟨hs1, -, hshape, -⟩ := Ends.surely hs hroutine ends_loopRoutine
    obtain ⟨hs2, hshape2⟩ := surely_firstCheck hcalls hs1 hagain
    exact .block hs2 (hshape2.trans hshape) hparts (by simp [Stmt.blocks])
  | @nextCheck cond body span routine s1 s2 s3 hroutine hagain hdone =>
    obtain ⟨hs1, -, hshape, -⟩ := Ends.surely hs hroutine ends_loopRoutine
    obtain ⟨hs2, hshape2⟩ := surely_firstCheck hcalls hs1 hagain
    have hmem : (.loop, body) ∈ (Stmt.repeatWhile cond body span).blocks := by simp [Stmt.blocks]
    have hbody : body.parts ⊆ parts := List.Subset.trans (Stmt.parts_of_blocks hmem) hparts
    obtain ⟨hs3, -, hshape3, -⟩ := (Block.ends_compile hcalls .loop body s2 hbody).of_yields hs2 hdone
    exact .value hs3 ((hshape3.trans hshape2).trans hshape) (by simp [Stmt.values])
  | @iteration var items stmts scope span v before item after s1 s2 s3 hv hvalues hbefore hdeclare =>
    obtain ⟨hs1, -, hshape, hcall⟩ := hcompile hs hv
    obtain ⟨-, -, -, -, hitems⟩ := Ends.surely hs1 hvalues (ends_itemsOf hcall)
    rw [Stmt.parts, Block.parts] at hparts
    have hstmts := subset_of_cons_subset hparts
    obtain ⟨hs2, hregisters, hshape2, -⟩ := Ends.surely hs1 hbefore (.forM (fun _ => s1.shape) rfl
      fun earlier other later s' hsplit _ hregisters hshape' => by
        obtain ⟨names, hnames⟩ := Stmt.exists_reshapeAll stmts ⟨.loop, scope, [var.name]⟩ s'.shape
        rw [← hshape']
        refine ends_iteration ⟨.loop, scope, names⟩ (hregisters.calls (hitems other ?_)) fun s'' _ hshape'' => ?_
        · simp [hsplit]
        · refine ((Stmt.ends_compileAll hcalls stmts s'' hstmts).weaken fun _ => trivial).shaped ?_
          rw [hshape'']
          exact hnames)
    obtain ⟨hopened, hlook⟩ : (opened .loop scope s2).InOrder env (Fine parts) ∧ _ :=
      Ends.inOrder_opened hs2
    have hitem := hregisters.calls (hitems item (by simp))
    obtain ⟨hs3, -, hshape3, -⟩ := Ends.surely hopened hdeclare (ends_declare hitem)
    refine ⟨⟨hs3, hstmts, by simp⟩, ?_⟩
    dsimp only
    rw [hshape3, hlook, hshape2, hshape]
    exact .iteration
  | block => exact .block hs rfl hparts (by simp [Stmt.blocks])
  | default hparams hbefore hvalue =>
    obtain ⟨hs1, hshape⟩ := surely_parameters hcalls hs hbefore
    exact .value hs1 hshape (by simp [Stmt.values, hparams, hvalue])
  | @body decl span signature routine frameId s1 s2 hplain hregister henter =>
    have hpart := hparts (.head _)
    obtain ⟨hs1, -, hshape, hfits⟩ := Ends.surely hs hregister (ends_registerPlain hcalls hpart hplain
      fun _ _ _ _ _ _ _ _ _ _ => trivial)
    have hpushed : CompilerState.InOrder env (Pending parts decl) { s1 with draft := s1.draft.push } :=
      hs1.congr rfl rfl
    obtain ⟨hopened, hlook⟩ : (opened .function decl.body.span { s1 with draft := s1.draft.push }).InOrder env
      (Pending parts decl) ∧ _ := Ends.inOrder_opened hpushed
    obtain ⟨hs2, -, hshape2, hnodup⟩ := Ends.surely hopened henter (ends_enterPlain hfits (scope_top_opened hpushed))
    refine ⟨⟨hs2.imp fun _ _ _ h => h hnodup, ?_, by simp⟩, ?_⟩
    · rw [Stmt.parts, Function.parts_eq] at hparts
      exact subset_of_cons_subset hparts
    · rw [hlook, FrameShape.bindAll_cons] at hshape2
      have hlooks : s2.shape = ⟨.function, decl.body.span, decl.params.map (·.name)⟩ :: s1.shape := hshape2
      dsimp only
      rw [hlooks, hshape]
      exact .body hplain
  | @methodDefault name fields methods body span id earlier decl later before param after value params s1 s2 s3 hid
      hmethods hearlier hparams hbefore hvalue =>
      obtain ⟨hs1, -, hshape, -⟩ := Ends.surely hs hid ends_registerStruct
      have hpart := hparts (.head _)
      obtain ⟨hs2, -, hshape2, -⟩ := Ends.surely hs1 hearlier (ends_declareMethods hcalls
        (fun other hother => ⟨_, _, _, _, _, hpart, by simp [hmethods, hother]⟩)
        fun _ _ _ _ _ _ _ _ _ _ _ _ _ _ _ _ => trivial)
      obtain ⟨hs3, hshape3⟩ := surely_parameters hcalls hs2 hbefore
      refine ⟨⟨hs3, nil_subset _, by simp⟩, ?_⟩
      dsimp only
      rw [hshape3, hshape2, hshape]
      have hdecl : decl ∈ methods := by simp [hmethods]
      have hparam : param ∈ decl.params := by simp [hparams]
      exact .methodDefault hdecl hparam hvalue

end

end

section

variable (hclosed : ∀ part ∈ parts, part.parts ⊆ parts)

include hclosed

theorem Leads.follows {p q : Point} (h : Leads env p q)
    (hp : p.Sound env parts) : Follows env parts p.piece p.state.shape q := by
  have hs := hp.inOrder
  have hcalls : ∀ b, CallsEnd env parts b := callsEnd hclosed
  cases h with
  | expr h => exact h.follows (hcalls _) hs
  | first => exact .within hs rfl rfl rfl (by simp [Piece.uses, Expr.allEvents]) nofun
  | rest hv =>
    obtain ⟨hs1, -, hshape, -⟩ := (Expr.ends_compile (hcalls _) _ _).of_yields hs hv
    exact .within hs1 hshape rfl rfl (by simp [Piece.uses, Expr.allEvents]) nofun
  | @stmt b s stmt q h =>
    have hlocated : CompilerState.InOrder env (Fine parts) { s with location := stmt.span } :=
      hs.congr rfl rfl
    exact h.follows (hcalls b) hlocated hp.parts
  | head =>
    have hparts := hp.parts
    rw [Piece.parts, Stmt.allParts, append_subset] at hparts
    exact ⟨⟨hs, hparts.1, nofun⟩, .head⟩
  | tail hstmt =>
    have hparts := hp.parts
    rw [Piece.parts, Stmt.allParts, append_subset] at hparts
    obtain ⟨hs1, -, hshape, -⟩ := (Stmt.ends_compile (hcalls _) _ _ hparts.1).of_yields hs hstmt
    refine ⟨⟨hs1, hparts.2, nofun⟩, ?_⟩
    dsimp only
    rw [hshape]
    exact .tail
  | block =>
    have hparts := hp.parts
    rw [Piece.parts, Block.parts] at hparts
    refine ⟨⟨(Ends.inOrder_opened hs).1, hparts, nofun⟩, ?_⟩
    dsimp only
    rw [(Ends.inOrder_opened hs).2]
    exact .opened
  | @expansion b s id receiver site args span f matched s1 hf hform hmatched henter =>
    have hcall := hp.call _ _ _ _ _ rfl
    obtain ⟨hs1, hshape⟩ := surely_enterExpanded hs hcall hf hmatched henter
    have hfine := (hs.functions id f hf).1
    refine ⟨⟨hs1, hfine.body_subset hclosed, nofun⟩, ?_⟩
    dsimp only
    rw [hshape]
    exact .expansion hfine hform (hcall.method f hf)
  | @assignBack b s id before var slot site args span f matched self s1 s2 hf hform hmatched henter hdone hself hchanged =>
    have hcall := hp.call _ _ _ _ _ rfl
    obtain ⟨hs1, hshape⟩ := surely_enterExpanded hs hcall hf hmatched henter
    have hfine := (hs.functions id f hf).1
    obtain ⟨hs2, -, hshape2, -⟩ := (Stmt.ends_compileAll (hcalls b) _ s1 (hfine.body_subset hclosed)).of_yields hs1 hdone
    obtain ⟨names, hnames⟩ := Stmt.exists_reshapeAll f.decl.body.stmts
      ⟨.inlineFunction, f.decl.body.span, enteredNames f.decl (some ⟨before, some var, slot⟩)⟩ s.shape
    obtain ⟨rest, hrest⟩ := Ends.shape_top hs
    rw [hshape, hnames, hrest] at hshape2
    obtain ⟨hpopped, hlook⟩ := Ends.inOrder_popped hs2 hshape2
    exact .within hpopped (hlook.trans hrest.symm) rfl rfl (List.Subset.refl _) nofun

theorem Sound.reaches {p q : Point} (hp : p.Sound env parts) (h : p.Reaches env q) : q.Sound env parts := by
  induction h with
  | refl => exact hp
  | tail _ hstep ih => exact (hstep.follows hclosed ih).sound

end

end Point

theorem Syntax.Script.sound_start (env : Environment) (script : Script) :
    script.start.Sound env (Stmt.allParts script.stmts) :=
  ⟨CompilerState.inOrder_start env _, List.Subset.refl _, nofun⟩

namespace Compile

variable {α : Type}

theorem yields_of_fst {step : Compile α} {a : α}
    (h : ((step env).run s).1 = .ok a) : step.Yields env s a ((step env).run s).2 := Prod.ext h rfl

theorem exists_yields {step : Compile α} (h : ((step env).run s).1.isOk = true) : ∃ a s', step.Yields env s a s' := by
  cases hstep : ((step env).run s).1 with
  | ok a => exact ⟨a, _, yields_of_fst hstep⟩
  | error error =>
    rw [hstep] at h
    cases h

end Compile

namespace Point

open Compile

theorem reaches_append {before : List Stmt} (after : List Stmt) {s' : CompilerState}
    (h : (Stmt.compileAll (expandWithin b) before).Yields env s () s') :
    Reaches env ⟨b, .stmts (before ++ after), s⟩ ⟨b, .stmts after, s'⟩ := by
  induction before generalizing s with
  | nil =>
    rw [Stmt.compileAll] at h
    obtain ⟨-, rfl⟩ := yields_pure.mp h
    exact .refl
  | cons stmt rest ih =>
    rw [Stmt.compileAll] at h
    obtain ⟨_, s1, hstmt, hrest⟩ := yields_bind.mp h
    exact .head (.tail hstmt) (ih hrest)

theorem reaches_drop (env : Environment) (script : Script) (n : Nat)
    (h : ((Stmt.compileAll (expandWithin expansionDepth) (script.stmts.take n) env).run .start).1 = .ok ()) :
    script.start.Reaches env ⟨expansionDepth, .stmts (script.stmts.drop n),
      ((Stmt.compileAll (expandWithin expansionDepth) (script.stmts.take n) env).run .start).2⟩ := by
  have hreach := reaches_append (script.stmts.drop n) (yields_of_fst h)
  rwa [take_append_drop] at hreach

end Point

end Datapack
