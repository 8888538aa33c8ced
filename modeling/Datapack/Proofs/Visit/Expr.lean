import Datapack.Proofs.Visit.Point

/-!
Expressions leave the open frames as they look, and only an assignment that is refused at a point they lead to makes
them fail as a refused assignment.
-/

namespace Datapack

open Syntax Value Expr

variable {env : Environment} {parts : List Stmt} {b : Nat}

/-- Whether a registered function comes from a declaration among given statements and fits it. Plain functions have
parameters of different names, of types that live in one place each. -/
structure FunctionDef.Fine (parts : List Stmt) (f : FunctionDef) : Prop where
  declared : f.signature.isMethod = false ∧ (∃ span, Stmt.function f.decl span ∈ parts) ∨
    f.signature.isMethod = true ∧
      ∃ name fields methods body span, Stmt.struct name fields methods body span ∈ parts ∧ f.decl ∈ methods
  expanded : f.form = .inline → f.decl.isInline = true ∨ f.signature.isMethod = true
  names : f.signature.params.map (·.name) = f.decl.params.map (·.name)
  arity : ∀ p ∈ f.signature.params, p.arity = .one ∧ p.accepts = .any
  plain : ∀ routine slots result, f.form = .plain routine slots result →
    (∃ frame, slots = f.signature.params.map (fun p => Slot.ofVariable frame p.name) ∧
      result = Slot.ofVariable frame Compile.returnName) ∧
    (f.decl.params.map (·.name)).Nodup ∧ ∀ p ∈ f.signature.params, p.kind.isSimple = true

def CallRules.calling (env : Environment) (P : Nat → Prop) : CallRules env :=
  .free env (Calls P) (fun v hflat hfunction => by
    cases v with
    | function id => exact absurd rfl (hfunction id)
    | struct _ _ _ | array _ => exact hflat.elim
    | _ => trivial) (fun _ => itemsCall_iff) fun _ _ _ => fieldsCall_iff.mp

namespace Compile

open CompilerState Point

variable {s : CompilerState} {fine : FunctionDef → Prop} {stuck : Prop} {span : Span} {args : List Value}
  {s' : CompilerState}

theorem ends_matchCall {signature : Signature} {P : Value → Prop} (hargs : ∀ v ∈ args, P v)
    (hdefault : ∀ p ∈ signature.params, ∀ v, p.default? = some v → P v) :
    Stays env fine s (matchCall signature args span) (fun matched s' => s' = s ∧
      signature.matchArgs args = .ok matched ∧ ∀ argument ∈ matched, ∀ v ∈ argument.values, P v) stuck := by
  unfold matchCall
  split
  next matched hmatched =>
    exact .pure ⟨rfl, hmatched, Signature.forall_of_distribute hmatched hargs hdefault⟩
  next => exact .fail nofun

theorem ends_value {step : Compile Value}
    (h : Adds (.calling env s.IsFunction) span s step (CallRules.calling env s.IsFunction).value) :
    Stays env fine s step (fun v s' => v.Calls s'.IsFunction) stuck := by
  intro hs
  have hadds := h (Nat.zero_le _)
  split
  next hrun =>
    rw [hrun] at hadds
    obtain ⟨e, -, rfl, hv⟩ := hadds
    exact ⟨hs.congr rfl rfl, fun _ _ => id, rfl, hv⟩
  next hrun =>
    rw [hrun] at hadds
    exact fun hfault => absurd (hadds.2.2.1.symm.trans hfault) (by decide)

def ReceiverInOrder (s : CompilerState) (r : Receiver) : Prop :=
  r.value.Calls s.IsFunction ∧ ∀ var, r.var = some var → FrameShape.anyBinds var s.shape = true

def CallsEnd (env : Environment) (parts : List Stmt) (b : Nat) : Prop :=
  ∀ (s : CompilerState) (id : Nat) (receiver : Option Receiver) (site : Span) (args : List Value) (span : Span),
    (∀ r, receiver = some r → ReceiverInOrder s r) → (∀ v ∈ args, v.Calls s.IsFunction) →
      Stays env (FunctionDef.Fine parts) s (callFunction (expandWithin b) id receiver args span)
        (fun v s' => v.Calls s'.IsFunction) (Stuck env ⟨b, .call id receiver site args span, s⟩)

variable {value : Value} {name : String}

theorem ends_blockId? {base : Expr} {member : String} :
    Stays env fine s (blockId? base member span) (fun block s' => s' = s ∧
      ∀ v, block = some v → v.Calls s.IsFunction) stuck := by
  unfold blockId?
  split
  · refine .framesBind ?_
    split
    · exact .pure ⟨rfl, by simp⟩
    · refine .readBind ?_
      split
      · exact .failBind nofun
      · exact .pure ⟨rfl, fun _ h => Option.some.inj h ▸ trivial⟩
  · exact .pure ⟨rfl, by simp⟩

theorem ends_indexWord : Stays env fine s (indexWord value span) (fun _ s' => s' = s) stuck := by
  unfold indexWord
  split
  · exact .pure rfl
  · exact .fail nofun
  · exact .fail nofun

theorem ends_readName : Stays env fine s (readName name span) (fun v s' => v.Calls s'.IsFunction) stuck := by
  refine .of_inOrder fun hs => .framesBind ?_
  split
  next key var hfind => exact .pure (calls_of_find? hs hfind)
  · split
    · exact .pure trivial
    · exact .fail nofun

theorem ends_method? : Stays env fine s (method? value name) (fun _ s' => s' = s) stuck := by
  unfold method?
  split
  · exact .getBind (.pure rfl)
  · exact .pure rfl

theorem anyBinds_of_readName (h : (readName name span).Yields env s value s')
    (hvalue : ∀ builtin, value ≠ .builtin builtin) : FrameShape.anyBinds name s.shape = true := by
  obtain ⟨fs, s1, hfs, h⟩ := yields_bind.mp h
  obtain ⟨rfl, rfl⟩ := yields_frames.mp hfs
  rw [← isSome_find?]
  split at h
  next found hfound => rw [hfound]; rfl
  · split at h
    next builtin _ => exact absurd (yields_pure.mp h).1.symm (hvalue builtin)
    · exact absurd h not_yields_fail

theorem ne_builtin_of_method? {id : Nat} (h : (method? value name).Yields env s (some id) s')
    (builtin : Builtin) : value ≠ .builtin builtin := by
  rintro rfl
  cases (yields_pure.mp h).1

theorem ends_receiverOf {object : Expr} (hvalue : value.Calls s.IsFunction)
    (hobject : ∀ name site, object = .var name site → FrameShape.anyBinds name s.shape = true) :
    Stays env fine s (receiverOf object value) (fun r s' => s' = s ∧ ReceiverInOrder s r) stuck := by
  unfold receiverOf
  split
  next name site =>
    exact .framesBind (.pure ⟨rfl, hvalue, fun var hvar => Option.some.inj hvar ▸ hobject name site rfl⟩)
  · exact .pure ⟨rfl, hvalue, fun var hvar => by cases hvar⟩

theorem ends_callValue {callee : Value} (hcallee : callee.Calls s.IsFunction) (hargs : ∀ v ∈ args, v.Calls s.IsFunction)
    (hcall : ∀ id, callee = .function id →
      Stays env fine s (callFunction (expandWithin b) id none args span)
        (fun v s' => v.Calls s'.IsFunction) stuck) :
    Stays env fine s (callValue (expandWithin b) callee args span) (fun v s' => v.Calls s'.IsFunction)
      stuck := by
  unfold callValue
  split
  · exact ends_value (adds_callBuiltin (fun _ => trivial) hargs)
  next id => exact hcall id rfl
  · exact ends_value (adds_construct hargs fun _ _ _ _ hfields => fieldsCall_iff.mpr fun x hx => (hfields x hx).2)
  · exact .fail nofun

end Compile

namespace Syntax

open Compile Point

mutual

theorem Expr.ends_compile (hcalls : CallsEnd env parts b) (s : CompilerState) : ∀ e : Expr,
    Stays env (FunctionDef.Fine parts) s (e.compile (expandWithin b))
      (fun v s' => v.Calls s'.IsFunction) (Stuck env ⟨b, .expr e, s⟩)
  | .int _ _ | .decimal _ _ | .string _ _ | .bool _ _ | .null _ => .pure trivial
  | .var name site => ends_readName
  | .unary op operand span => by
    rw [Expr.compile]
    refine .bind ((ends_compile hcalls s operand).weaken (.step (.expr .operand))) ?_
    intro a s1 _ _ _ hshape _
    exact .shaped (.tryEmitting fun _ _ h => calls_unary h) hshape
  | .binary left op right span => by
    rw [Expr.compile]
    refine .bind ((ends_compile hcalls s left).weaken (.step (.expr .left))) fun a s1 ha _ _ hshape _ => ?_
    rw [← hshape]
    refine .bind ((ends_compile hcalls s1 right).weaken (.step (.expr (.right ha)))) ?_
    intro b s2 _ _ _ hshape2 _
    exact .shaped (.tryEmitting fun _ _ h => calls_binary h) hshape2
  | .index base subscript span => by
    rw [Expr.compile]
    refine .bind ((ends_compile hcalls s base).weaken (.step (.expr .base))) fun a s1 ha _ _ hshape hvalue => ?_
    rw [← hshape]
    refine .bind ((ends_compile hcalls s1 subscript).weaken (.step (.expr (.subscript ha)))) ?_
    intro index s2 _ _ hregisters hshape2 _
    rw [← hshape2]
    refine .bind ends_indexWord ?_
    rintro position _ - - - - rfl
    exact .orFail (fun part hpart => (hregisters.calls hvalue).select hpart) fun _ h => (isNoPart_of_select h).isStaticWrite
  | .member base name span => by
    rw [Expr.compile]
    refine .bind ends_blockId? ?_
    rintro block s1 hyields - - - ⟨rfl, hblock⟩
    split
    next value => exact .pure (hblock value rfl)
    next =>
      refine .bind ((ends_compile hcalls _ base).weaken (.step (.expr (.whole hyields)))) ?_
      intro value s2 _ _ _ hshape hvalue
      exact .shaped (.orFail (fun part hpart => hvalue.select hpart) fun _ h => (isNoPart_of_select h).isStaticWrite) hshape
  | .call callee args span => by
    have hargs := fun s1 => ends_compileAll hcalls s1 args
    have hplain : (∀ object member memberSpan, callee ≠ .member object member memberSpan) →
        Stays env (FunctionDef.Fine parts) s
          ((Expr.call callee args span).compile (expandWithin b)) (fun v s' => v.Calls s'.IsFunction)
          (Stuck env ⟨b, .expr (.call callee args span), s⟩) := by
      intro hmember
      rw [compile_call args span hmember]
      refine .bind ((ends_compile hcalls s callee).weaken (.step (.expr (.callee hmember)))) ?_
      intro v s1 hv _ _ hshape hvalue
      rw [← hshape]
      refine .andThen ((hargs s1).weaken (.step (.expr (.args hmember hv)))) fun vs s2 hvs hregisters hcall => ?_
      refine ends_callValue (hregisters.calls hvalue) hcall ?_
      rintro id rfl
      exact (hcalls s2 id none callee.span vs span (by simp) hcall).weaken
        (.step (.expr (.call hmember hv hvs)))
    cases callee with
    | member object name memberSpan =>
      rw [Expr.compile]
      have hobject : Stays env (FunctionDef.Fine parts) s (object.compile (expandWithin b)) (fun v s' => v.Calls s'.IsFunction)
          (Stuck env ⟨b, .expr (.call (.member object name memberSpan) args span), s⟩) := by
        by_cases hvar : ∃ name site, object = .var name site
        · obtain ⟨name, site, rfl⟩ := hvar
          exact ends_readName
        · refine (ends_compile hcalls s object).weaken (.step (.expr (.object ?_)))
          exact fun name site heq => hvar ⟨name, site, heq⟩
      refine .bind hobject fun v s1 hv _ _ hshape hvalue => .bind ends_method? ?_
      rintro id? s2 hmethod - - - rfl
      rw [← hshape]
      split
      · refine .bind (ends_receiverOf hvalue ?_) ?_
        · rintro name site rfl
          rw [hshape]
          exact anyBinds_of_readName hv (ne_builtin_of_method? hmethod)
        rintro r _ hr - - - ⟨rfl, hreceiver⟩
        refine .bind ((hargs _).weaken (.step (.expr (.memberArgs hv)))) fun vs s3 hvs _ hregisters hshape3 hcall => ?_
        rw [← hshape3]
        refine (hcalls s3 _ (some r) object.span vs span ?_ hcall).weaken (.step (.expr (.method hv hmethod hr hvs)))
        rintro _ ⟨⟩
        exact ⟨hregisters.calls hreceiver.1, fun var hvar => hshape3 ▸ hreceiver.2 var hvar⟩
      · refine .bind (P := fun callee s' => s' = _ ∧ v.select (.field name) = .ok callee)
          (.orFail (fun callee hcallee => ⟨rfl, hcallee⟩) fun _ h => (isNoPart_of_select h).isStaticWrite) ?_
        rintro callee _ - - - - ⟨rfl, hselect⟩
        refine .andThen ((hargs _).weaken (.step (.expr (.memberArgs hv)))) fun vs s3 hvs hregisters hcall => ?_
        refine ends_callValue (hregisters.calls (hvalue.select hselect)) hcall ?_
        rintro id rfl
        exact (hcalls s3 id none object.span vs span (by simp) hcall).weaken
          (.step (.expr (.memberCall hv hmethod hselect hvs)))
    | _ => exact hplain (by simp)
  | .array items span => by
    rw [Expr.compile]
    refine .bind ((ends_compileAll hcalls s items).weaken (.step (.expr .items))) ?_
    intro vs s1 _ _ _ hshape hvs
    exact .shaped (.pure (itemsCall_iff.mpr hvs)) hshape

theorem Expr.ends_compileAll (hcalls : CallsEnd env parts b) (s : CompilerState) : ∀ es : List Expr,
    Stays env (FunctionDef.Fine parts) s (Expr.compileAll (expandWithin b) es)
      (fun vs s' => ∀ v ∈ vs, v.Calls s'.IsFunction) (Stuck env ⟨b, .exprs es, s⟩)
  | [] => .pure nofun
  | e :: rest => by
    rw [Expr.compileAll]
    refine .andThen ((ends_compile hcalls s e).weaken (.step .first)) fun v s1 hv _ hcall => ?_
    refine .bind ((ends_compileAll hcalls s1 rest).weaken (.step (.rest hv))) ?_
    intro vs s2 _ _ hregisters hshape2 hvs
    refine .shaped (.pure ?_) hshape2
    exact List.forall_mem_cons.mpr ⟨hregisters.calls hcall, hvs⟩

end

end Syntax

end Datapack
