import Datapack.Proofs.Visit.Expr

/-!
Statements change the look of the open frames only by the names that they bind in the innermost one.
-/

namespace Datapack

open Syntax List FunctionDef

variable {expanded isMethod : Bool} {P : Nat → Prop} {decl : Function} {signature : Signature} {env : Environment}
  {b : Nat} {parts : List Stmt} {cond : Expr}

def FunctionDef.Pending (parts : List Stmt) (decl : Function) (f : FunctionDef) : Prop :=
  (decl.params.map (·.name)).Nodup → f.Fine parts

/-- Whether a parameter is the declared one. Only expanded functions take values that do not live in one place. -/
structure Parameter.Fits (expanded : Bool) (P : Nat → Prop) (param : Param) (p : Parameter) : Prop where
  name : p.name = param.name
  arity : p.arity = .one ∧ p.accepts = .any
  simple : expanded = false → p.kind.isSimple = true
  default : ∀ v, p.default? = some v → v.Calls P

structure Signature.Fits (decl : Function) (isMethod : Bool) (P : Nat → Prop) (signature : Signature) : Prop where
  method : signature.isMethod = isMethod
  params : List.Forall₂ (Parameter.Fits (decl.isInline || isMethod) P) decl.params signature.params

theorem Parameter.names_eq_of_fits {params : List Param} {ps : List Parameter}
    (h : List.Forall₂ (Parameter.Fits expanded P) params ps) : ps.map (·.name) = params.map (·.name) := by
  induction h with
  | nil => rfl
  | cons hp _ ih => rw [map_cons, map_cons, hp.name, ih]

theorem Signature.Fits.mono {Q : Nat → Prop} (hPQ : ∀ id, P id → Q id) (h : signature.Fits decl isMethod P) :
    signature.Fits decl isMethod Q :=
  ⟨h.method, h.params.imp fun _ _ hp => ⟨hp.name, hp.arity, hp.simple, fun v hv => (hp.default v hv).mono hPQ⟩⟩

theorem Signature.Fits.of_mem (h : signature.Fits decl isMethod P) {p : Parameter} (hp : p ∈ signature.params) :
    ∃ param, p.Fits (decl.isInline || isMethod) P param := by
  obtain ⟨i, hi, rfl⟩ := mem_iff_getElem.mp hp
  exact ⟨_, h.params.get (h.params.length_eq ▸ hi) hi⟩

namespace Compile

open CompilerState Point

variable {α β : Type} {s : CompilerState} {fine : FunctionDef → Prop} {stuck : Prop} {span : Span}
  {target : List FrameShape} {f : α → Compile PUnit} {s' : CompilerState} {name : String} {value : Value} {scope : Span}
  {frame : Frame} {kind : ScopeKind} {before : List α} {item : α} {s1 s2 : CompilerState} {items : List α}
  {path : List Selector}

theorem yields_forM_nil {u : PUnit} : (([] : List α).forM f).Yields env s u s' ↔ s = s' := by
  change Yields (pure PUnit.unit) env s u s' ↔ _
  rw [yields_pure]
  exact and_iff_right rfl

theorem yields_forM_concat (h : (before.forM f).Yields env s ⟨⟩ s1) (hitem : (f item).Yields env s1 ⟨⟩ s2) :
    ((before ++ [item]).forM f).Yields env s ⟨⟩ s2 := by
  induction before generalizing s with
  | nil =>
    cases yields_forM_nil.mp h
    exact yields_bind.mpr ⟨⟨⟩, s2, hitem, yields_pure.mpr ⟨rfl, rfl⟩⟩
  | cons first rest ih =>
    obtain ⟨_, s', hfirst, hrest⟩ := yields_bind.mp h
    exact yields_bind.mpr ⟨_, s', hfirst, ih hrest⟩

theorem yields_mapM_concat {f : α → Compile β} {bs : List β} {b : β} (h : (before.mapM f).Yields env s bs s1)
    (hitem : (f item).Yields env s1 b s2) : ((before ++ [item]).mapM f).Yields env s (bs ++ [b]) s2 := by
  rw [mapM_append, yields_bind]
  refine ⟨bs, s1, h, ?_⟩
  simp only [mapM_cons, mapM_nil, yields_bind, yields_pure]
  exact ⟨[b], s2, ⟨b, s2, hitem, [], s2, ⟨rfl, rfl⟩, rfl, rfl⟩, rfl, rfl⟩

theorem Ends.forM (look : List α → List FrameShape) (hlook : look [] = s.shape)
    (h : ∀ before item after s', items = before ++ item :: after → (before.forM f).Yields env s ⟨⟩ s' →
      s.Registers s' → s'.shape = look before →
        Ends env fine fine s' (f item) (look (before ++ [item])) (fun _ _ => True) stuck) :
    Ends env fine fine s (items.forM f) (look items) (fun _ _ => True) stuck := by
  suffices hsuffix : ∀ (rest before : List α) (s' : CompilerState), items = before ++ rest →
      (before.forM f).Yields env s ⟨⟩ s' → s.Registers s' → s'.shape = look before →
        Ends env fine fine s' (rest.forM f) (look items) (fun _ _ => True) stuck by
    exact hsuffix items [] s rfl (yields_forM_nil.mpr rfl) (.refl s) hlook.symm
  intro rest
  induction rest with
  | nil =>
    intro before s' hitems _ _ hshape
    rw [append_nil] at hitems
    exact .shaped (.pure trivial) (hitems ▸ hshape)
  | cons item rest ih =>
    intro before s' hitems hbefore hregisters hshape
    refine .bind (h before item rest s' hitems hbefore hregisters hshape) fun _ s'' hitem _ hmore hshape' _ => ?_
    refine ih (before ++ [item]) s'' (by simp [hitems]) (yields_forM_concat hbefore hitem) ?_ hshape'
    exact hregisters.trans hmore

theorem Ends.mapM {f : α → Compile β} (R : CompilerState → α → β → Prop)
    (hR : ∀ (s s' : CompilerState) item b, s.Registers s' → R s item b → R s' item b)
    (h : ∀ before item after bs s', items = before ++ item :: after → (before.mapM f).Yields env s bs s' →
      s'.shape = s.shape → Ends env fine fine s' (f item) s.shape (fun b s'' => R s'' item b) stuck) :
    Stays env fine s (items.mapM f) (fun bs s' => List.Forall₂ (R s') items bs) stuck := by
  suffices hsuffix : ∀ (rest before : List α) (bs : List β) (s' : CompilerState), items = before ++ rest →
      (before.mapM f).Yields env s bs s' → s'.shape = s.shape →
        Ends env fine fine s' (rest.mapM f) s.shape (fun bs s' => List.Forall₂ (R s') rest bs) stuck by
    refine hsuffix items [] [] s rfl ?_ rfl
    rw [mapM_nil]
    exact yields_pure.mpr ⟨rfl, rfl⟩
  intro rest
  induction rest with
  | nil =>
    intro before bs s' _ _ hshape
    rw [mapM_nil]
    exact .shaped (.pure .nil) hshape
  | cons item rest ih =>
    intro before bs s' hitems hbefore hshape
    rw [mapM_cons]
    refine .bind (h before item rest bs s' hitems hbefore hshape) fun b s1 hitem _ _ hshape1 hb => ?_
    refine .bind (ih (before ++ [item]) (bs ++ [b]) s1 (by simp [hitems]) (yields_mapM_concat hbefore hitem) hshape1) ?_
    intro more s2 _ _ hregisters hshape2 hmore
    exact .shaped (.pure (.cons (hR s1 s2 item b hregisters hb) hmore)) hshape2

theorem ends_resolveKind {type : Ident} : Stays env fine s (resolveKind type) (fun _ s' => s' = s) stuck := by
  unfold resolveKind
  split
  · exact .pure rfl
  · refine .framesBind ?_
    split
    · exact .pure rfl
    · exact .fail nofun

theorem ends_readPlace : Stays env fine s (readPlace name path span) (fun v s' => s' = s ∧ v.Calls s.IsFunction ∧
      FrameShape.anyBinds name s.shape = true) stuck := by
  refine .of_inOrder fun hs => .framesBind ?_
  split
  · exact .fail nofun
  next key var hfind =>
    refine .bind (P := fun part s' => s' = s ∧ var.value.selectPath path = .ok part)
      (.orFail (fun part hpart => ⟨rfl, hpart⟩) fun _ h => (Value.isNoPart_of_selectPath h).isStaticWrite) ?_
    rintro part _ - - - - ⟨rfl, hpart⟩
    have hcalls := Value.leafwise_calls.selectPath (calls_of_find? hs hfind) hpart
    refine .pure ⟨rfl, ?_, by rw [← isSome_find?, hfind]; rfl⟩
    split
    · exact hcalls.mark
    · exact hcalls

section

variable (hvalue : value.Calls s.IsFunction)

include hvalue

theorem ends_assignBound (hbound : path ≠ [] ∨ FrameShape.anyBinds name s.shape = true) :
    Stays env fine s (assign name path value span) (fun _ s' => s'.functions = s.functions)
      (s.Refuses name) := by
  cases hfound : FrameShape.anyBinds name s.shape with
  | true => exact (ends_assign hvalue).shaped (by simp [FrameShape.assign, hfound])
  | false =>
    have hnone : s.frames.find? name = none := by
      rw [← Option.not_isSome_iff_eq_none, isSome_find?, hfound]
      exact Bool.false_ne_true
    refine .framesBind ?_
    rw [hnone]
    have hpath : path.isEmpty = false := by simpa [hfound] using hbound
    simp only [hpath, Bool.false_eq_true, if_false]
    exact .fail (by rintro ⟨⟩)

theorem ends_itemsFor {count : Nat} :
    Stays env fine s (itemsFor count span value) (fun items s' => s' = s ∧ items.length = count ∧
      ∀ v ∈ items, v.Calls s.IsFunction) stuck := by
  unfold itemsFor
  split
  · split
    next hlength => exact .pure ⟨rfl, hlength, Value.itemsCall_iff.mp hvalue⟩
    · exact .fail nofun
  · exact .fail nofun

theorem ends_itemsOf :
    Stays env fine s (itemsOf span value) (fun items s' => s' = s ∧
      ∀ v ∈ items, v.Calls s.IsFunction) stuck := by
  unfold itemsOf
  split
  · exact .pure ⟨rfl, Value.itemsCall_iff.mp hvalue⟩
  · exact .fail nofun

end

theorem ends_decisionOf : Stays env fine s (decisionOf value span) (fun _ s' => s' = s) stuck := by
  unfold decisionOf
  split
  case h_5 => exact .fail nofun
  all_goals exact .pure rfl

theorem ends_stableCondition {condition : Condition} {ownCell : Bool} :
    Stays env fine s (stableCondition condition ownCell) (fun _ _ => True) stuck := by
  unfold stableCondition
  split
  · exact .pure trivial
  · refine .andThen (P := fun _ _ => True) (.emitting fun _ _ _ => trivial) fun target s1 _ _ _ => ?_
    exact .andThen .emitNode fun _ _ _ _ _ => .pure trivial

section

variable (hcalls : CallsEnd env parts b)

include hcalls

theorem ends_targetPath {target : Target} (hindex : ∀ var index, target = .element var index →
    Stuck env ⟨b, .expr index, s⟩ → stuck) :
    Stays env (Fine parts) s (targetPath (expandWithin b) target)
      (fun place _ => place.1 = target.var ∧ (place.2 = [] ↔ target.isPlain = true)) stuck := by
  cases target with
  | path var members => exact .pure ⟨rfl, by cases members <;> simp [Target.isPlain]⟩
  | element var index =>
    refine .andThen ((index.ends_compile hcalls s).weaken (hindex var index rfl)) fun v s1 _ _ _ => ?_
    refine .bind ends_indexWord ?_
    rintro position _ - - - - rfl
    exact .pure ⟨rfl, by simp [Target.isPlain]⟩

theorem ends_decide : Stays env (Fine parts) s (decide (expandWithin b) cond)
      (fun _ _ => True) (Stuck env ⟨b, .expr cond, s⟩) :=
  .bind (cond.ends_compile hcalls s) fun _ _ _ _ _ hshape _ => .shaped ends_decisionOf.anything hshape

theorem ends_callIf {routine : String} : Stays env (Fine parts) s (callIf (expandWithin b) cond routine)
      (fun _ _ => True) (Stuck env ⟨b, .expr cond, s⟩) := by
  refine .getBind (.andThen (ends_decide hcalls) fun decision s1 _ _ _ => ?_)
  split
  · exact .pure trivial
  · exact .andThen .emitNode fun _ _ _ _ _ => .pure trivial
  · exact .andThen .emitNode fun _ _ _ _ _ => .pure trivial

theorem ends_parameterOf {param : Param}
    (hdefault : ∀ value, param.default? = some value → Stuck env ⟨b, .expr value, s⟩ → stuck) :
    Stays env (Fine parts) s (parameterOf (expandWithin b) expanded param)
      (fun p s' => p.Fits expanded s'.IsFunction param) stuck := by
  refine .bind ends_resolveKind ?_
  rintro kind _ - - - - rfl
  split
  all_goals dsimp only; split
  · exact .failBind nofun
  next hkind => exact .pure ⟨rfl, ⟨rfl, rfl⟩, by rintro rfl; simpa using hkind, by simp⟩
  · exact .failBind nofun
  next value hvalue hkind =>
    refine .bind ((value.ends_compile hcalls _).weaken (hdefault value hvalue)) fun v s1 _ _ _ hshape hv => ?_
    refine .shaped (.pure ⟨rfl, ⟨rfl, rfl⟩, by rintro rfl; simpa using hkind, ?_⟩) hshape
    exact fun other hother => Option.some.inj hother ▸ hv

end

theorem ends_resultOf {type : Option Ident} : Stays env fine s (resultOf expanded type) (fun _ s' => s' = s) stuck := by
  unfold resultOf
  split
  · refine .bind ends_resolveKind ?_
    rintro kind _ - - - - rfl
    split
    · exact .failBind nofun
    · exact .pure rfl
  · exact .pure rfl

variable {fine' : FunctionDef → Prop} {body : Compile Unit}

theorem ends_signatureOf (hcalls : CallsEnd env parts b)
    (hdefault : ∀ before param after params s' value, decl.params = before ++ param :: after →
      (before.mapM (parameterOf (expandWithin b) (decl.isInline || isMethod))).Yields env s params s' →
        param.default? = some value → Stuck env ⟨b, .expr value, s'⟩ → stuck) :
    Stays env (Fine parts) s (signatureOf (expandWithin b) decl isMethod)
      (fun signature s' => signature.Fits decl isMethod s'.IsFunction) stuck := by
  refine .bind (.mapM (fun s' param p => p.Fits (decl.isInline || isMethod) s'.IsFunction param) ?_ ?_) ?_
  · intro s s' param p hregisters hp
    exact ⟨hp.name, hp.arity, hp.simple, fun v hv => hregisters.calls (hp.default v hv)⟩
  · intro before param after params s' hparams hbefore hshape
    rw [← hshape]
    refine ends_parameterOf hcalls fun value hvalue => ?_
    exact hdefault before param after params s' value hparams hbefore hvalue
  · intro params s1 _ _ _ hshape hparams
    rw [← hshape]
    refine .bind ends_resultOf ?_
    rintro result _ - - - - rfl
    exact .pure ⟨rfl, hparams⟩

theorem shape_top_bind (hs : s.InOrder env fine) (hs' : s'.InOrder env fine')
    (h : s'.shape = FrameShape.bind name s.shape) :
    s'.frames.top.shape = { s.frames.top.shape with names := s.frames.top.shape.names ++ [name] } := by
  obtain ⟨rest, hrest⟩ := Ends.shape_top hs
  obtain ⟨rest', hrest'⟩ := Ends.shape_top hs'
  rw [hrest, hrest', FrameShape.bind] at h
  exact (List.cons.inj h).1

theorem ends_bindParams {params : List (Param × Slot × Parameter)} (hscope : s.frames.top.scope = scope) :
    Ends env fine fine s (bindParams scope params) (FrameShape.bindAll (params.map (·.1.name)) s.shape)
      (fun _ s' => s'.functions = s.functions ∧ (params.map (·.1.name)).Nodup ∧
        ∀ name ∈ params.map (·.1.name), name ∉ s.frames.top.shape.names) stuck := by
  induction params generalizing s with
  | nil => exact .pure ⟨rfl, .nil, by simp⟩
  | cons first rest ih =>
    obtain ⟨param, slot, formal⟩ := first
    rw [bindParams]
    split
    · exact .fail (by rintro ⟨⟩)
    next value hvalue =>
      refine .of_inOrder fun hs => .bind (ends_bindNew hscope.symm (by simp) (Value.Kind.calls_atSlot? hvalue)) ?_
      rintro _ s' - hs' - hshape ⟨hnew, rfl⟩
      have htop := shape_top_bind hs hs' hshape
      have hrest := ih (s := _) ((congrArg FrameShape.scope htop).trans hscope)
      rw [hshape] at hrest
      refine hrest.imp (fun _ s'' _ _ _ h => ?_) id
      obtain ⟨hfunctions, hnodup, hfresh⟩ := h
      rw [congrArg FrameShape.names htop] at hfresh
      simp only [mem_append, mem_singleton, not_or] at hfresh
      refine ⟨hfunctions, nodup_cons.mpr ⟨fun hmem => (hfresh _ hmem).2 rfl, hnodup⟩, ?_⟩
      refine forall_mem_cons.mpr ⟨fun hmem => ?_, fun name hname => (hfresh name hname).1⟩
      exact Bool.eq_false_iff.mp hnew (contains_iff_mem.mpr hmem)

theorem shape_top_eq (hs : s.InOrder env fine) (hs' : s'.InOrder env fine')
    (h : s'.shape = s.shape) : s'.frames.top.shape = s.frames.top.shape := by
  obtain ⟨rest, hrest⟩ := Ends.shape_top hs
  obtain ⟨rest', hrest'⟩ := Ends.shape_top hs'
  rw [hrest, hrest'] at h
  exact (List.cons.inj h).1

theorem Param.names_zip {params : List Param} {values : List α} (h : params.length ≤ values.length) :
    (params.zip values).map (·.1.name) = params.map (·.name) := by
  refine (map_map (f := Prod.fst) (g := Param.name)).symm.trans ?_
  rw [map_fst_zip h]

theorem ends_enterPlain {frameId : Nat} (hsignature : signature.Fits decl false P)
    (hscope : s.frames.top.scope = decl.body.span) :
    Ends env fine fine s (enterPlain decl signature frameId)
      (FrameShape.bindAll (decl.params.map (·.name)) s.shape)
      (fun _ _ => (decl.params.map (·.name)).Nodup) stuck := by
  have hlength := hsignature.params.length_eq
  have hnames : (decl.params.zip ((signature.params.map fun p => Slot.ofVariable frameId p.name).zip signature.params)).map
      (·.1.name) = decl.params.map (·.name) := Param.names_zip (by simp [hlength])
  refine .of_inOrder fun hs => .bind (.changeFrame rfl (fun _ => ⟨rfl, rfl, rfl⟩) ?_) ?_
  · exact fun f _ hf => ⟨hf.scope, hf.storage, hf.values, hf.returned⟩
  · intro _ s' _ hs' _ hshape _
    rw [← hshape, ← hnames]
    refine (ends_bindParams ?_).imp (fun _ _ _ _ _ h => h.2.1) id
    exact (congrArg FrameShape.scope (shape_top_eq hs hs' hshape)).trans hscope

/-- Registering a plain function binds its name. That its parameters have different names is known only when they are
bound. -/
theorem ends_registerPlain (hcalls : CallsEnd env parts b) (hpart : Stmt.function decl span ∈ parts)
    (hplain : decl.isInline = false)
    (hdefault : ∀ before param after params s' value, decl.params = before ++ param :: after →
      (before.mapM (parameterOf (expandWithin b) decl.isInline)).Yields env s params s' →
        param.default? = some value → Stuck env ⟨b, .expr value, s'⟩ → stuck) :
    Ends env (Fine parts) (Pending parts decl) s
      (registerPlain (expandWithin b) decl) (FrameShape.bind decl.name s.shape)
      (fun registered s' => registered.1.Fits decl false s'.IsFunction) stuck := by
  unfold registerPlain
  rw [← Bool.or_false decl.isInline] at hdefault
  refine .bind (ends_signatureOf hcalls hdefault) fun signature s1 _ _ _ hshape hsignature => ?_
  rw [← hshape]
  refine .bind (P := fun _ _ => True) (.modifyGet rfl rfl trivial) fun routine s2 _ _ hregisters hshape2 _ => ?_
  rw [← hshape2]
  have hregister : ∀ s3 : CompilerState, s1.Registers s3 → s3.shape = s2.shape →
      Ends env (Fine parts) (Pending parts decl) s3 (do
        let frameId ← modifyGet fun s => (s.frames.takeId.1, { s with frames := s.frames.takeId.2 })
        let paramSlots := signature.params.map fun p => Slot.ofVariable frameId p.name
        let id ← registerFunction ⟨signature, decl, .plain routine paramSlots (Slot.ofVariable frameId returnName)⟩
        declare decl.name (.function id) decl.span false
        return (signature, routine, frameId)) (FrameShape.bind decl.name s2.shape)
        (fun registered s' => registered.1.Fits decl false s'.IsFunction) stuck := by
    intro s3 hregisters3 hshape3
    rw [← hshape3]
    refine .bind .takeId fun frameId s4 _ _ hregisters4 hshape4 _ => ?_
    rw [← hshape4]
    have hfits := hsignature.mono fun _ => (hregisters3.trans hregisters4).isFunction
    refine .bind (.registerFunction (show ∀ g : FunctionDef, g.Fine parts → g.Pending parts decl from fun g hg _ => hg)
      (fun hnodup => ?_) ?_) ?_
    · refine ⟨.inl ⟨hfits.method, span, hpart⟩, nofun, Parameter.names_eq_of_fits hfits.params, ?_, ?_⟩
      · exact fun p hp => (hfits.of_mem hp).elim fun _ h => h.arity
      · rintro _ _ _ ⟨⟩
        refine ⟨⟨frameId, rfl, rfl⟩, hnodup, fun p hp => ?_⟩
        exact (hfits.of_mem hp).elim fun _ h => h.simple (by simp [hplain])
    · exact fun p hp => (hfits.of_mem hp).elim fun _ h => h.default
    · rintro id s5 - - hregisters5 hshape5 ⟨rfl, hs5⟩
      rw [← hshape5]
      refine .bind (ends_declare ⟨_, by rw [hs5]; exact Array.getElem?_push_size, hfits.method⟩) ?_
      intro _ s6 _ _ hregisters6 hshape6 _
      exact .shaped (.pure (hfits.mono fun _ => (hregisters5.trans hregisters6).isFunction)) hshape6
  split
  · refine .bind (P := fun _ _ => True) (.change rfl rfl trivial) fun _ s3 _ _ hregisters3 hshape3 _ => ?_
    exact hregister s3 (hregisters.trans hregisters3) hshape3
  · exact hregister s2 hregisters rfl

theorem ends_checkResult : Stays env fine s (checkResult frame value span) (fun _ s' => s' = s) stuck := by
  unfold checkResult
  split
  · split
    · exact .pure rfl
    · exact .fail nofun
  · exact .pure rfl

theorem ends_storeEarlier {slot : Slot} :
    Stays env fine s (storeEarlier frame slot span)
      (fun _ s' => s'.frames = s.frames ∧ s'.functions = s.functions) stuck := by
  unfold storeEarlier
  split
  · split
    · refine .bind (.inBuffer (R := fun s' => s'.frames = s.frames ∧ s'.functions = s.functions)
        (.discard (ends_store.imp (fun _ _ _ _ _ h => h.2) id))) ?_
      exact fun _ _ _ _ _ hshape h => .shaped (.change rfl rfl h) hshape
    · exact .pure ⟨rfl, rfl⟩
  · exact .pure ⟨rfl, rfl⟩

theorem ends_keptResult {dynamic : Bool} (hvalue : value.Calls s.IsFunction) :
    Stays env fine s (keptResult frame dynamic value span) (fun kept s' =>
      kept.Calls s.IsFunction ∧ s'.frames = s.frames ∧ s'.functions = s.functions) stuck := by
  unfold keptResult
  dsimp only
  split
  · split
    · exact .pure ⟨hvalue, rfl, rfl⟩
    · exact ends_store
  · split
    · refine .andThen ends_storeEarlier fun _ s' _ _ h => ?_
      refine ends_store.imp (fun kept s'' _ _ _ hstored => ?_) id
      rw [isFunction_congr h.2] at hstored
      exact ⟨hstored.1, hstored.2.1.trans h.1, hstored.2.2.trans h.2⟩
    · split
      · exact ends_store
      · exact .pure ⟨hvalue, rfl, rfl⟩

theorem ends_returnValue (hvalue : value.Calls s.IsFunction) :
    Stays env fine s (returnValue value span) (fun _ _ => True) stuck := by
  refine .framesBind ?_
  split
  · exact .fail nofun
  · split
    · exact .fail nofun
    next key _ _ frame hframe =>
      refine .bind ends_checkResult ?_
      rintro _ _ - - - - rfl
      refine .bind (ends_keptResult hvalue) fun kept s1 _ _ _ hshape hkept => ?_
      obtain ⟨hcalls, hframes, hfunctions⟩ := hkept
      refine .shaped (.anything (.changeFrame rfl (fun _ => ⟨rfl, rfl, rfl⟩) ?_)) hshape
      rw [isFunction_congr hfunctions]
      exact fun f _ hf => ⟨hf.scope, hf.storage, hf.values, fun v hv => Option.some.inj hv ▸ hcalls⟩

theorem ends_branch {decision : Decision} {onTrue onFalse : ScopeKind → Compile Unit} {hasElse : Bool}
    (htrue : decision = .known true → Stays env fine s (onTrue .block) (fun _ _ => True) stuck)
    (hfalse : decision = .known false → Stays env fine s (onFalse .block) (fun _ _ => True) stuck)
    (hthen : ∀ condition ownCell stable s1, decision = .tested condition ownCell →
      (stableCondition condition ownCell).Yields env s stable s1 →
        Ends env fine fine { s1 with draft := s1.draft.push } (onTrue .conditional) s1.shape (fun _ _ => True) stuck)
    (helse : ∀ condition ownCell stable s1 s2, hasElse = true → decision = .tested condition ownCell →
      (stableCondition condition ownCell).Yields env s stable s1 →
        (emitGuarded stable (onTrue .conditional)).Yields env s1 () s2 →
          Ends env fine fine { s2 with draft := s2.draft.push } (onFalse .conditional) s2.shape (fun _ _ => True) stuck) :
    Stays env fine s (branch decision onTrue onFalse hasElse) (fun _ _ => True) stuck := by
  unfold branch
  split
  · exact htrue rfl
  · exact hfalse rfl
  next condition ownCell =>
    refine .andThen ends_stableCondition fun stable s1 hstable _ _ => ?_
    refine .andThen (.emitGuarded (hthen condition ownCell stable s1 rfl hstable)) fun _ s2 hguarded _ _ => ?_
    split
    next hasElse => exact .emitGuarded (helse condition ownCell stable s1 s2 hasElse rfl hstable hguarded)
    · exact .pure trivial

theorem ends_registerInline
    (hfits : signature.Fits decl isMethod s.IsFunction) (hexpanded : decl.isInline = true ∨ isMethod = true)
    (hdeclared : isMethod = false ∧ (∃ span, Stmt.function decl span ∈ parts) ∨ isMethod = true ∧
      ∃ name fields methods body span, Stmt.struct name fields methods body span ∈ parts ∧ decl ∈ methods) :
    Stays env (Fine parts) s (registerFunction ⟨signature, decl, .inline⟩)
      (fun id s' => s'.functions[id]? = some ⟨signature, decl, .inline⟩) stuck := by
  have hfine : Fine parts ⟨signature, decl, .inline⟩ := by
    refine ⟨?_, fun _ => ?_, Parameter.names_eq_of_fits hfits.params, fun p hp => ?_, nofun⟩
    · rw [hfits.method]
      exact hdeclared
    · rw [hfits.method]
      exact hexpanded
    · exact (hfits.of_mem hp).elim fun _ h => h.arity
  refine (Ends.registerFunction (fun _ => id) hfine fun p hp => ?_).imp (fun id s' _ _ _ h => ?_) id
  · exact (hfits.of_mem hp).elim fun _ h => h.default
  · rw [h.1, h.2]
    exact Array.getElem?_push_size

section

variable (hs : s.InOrder env fine)

include hs

theorem shape_top_opened : (opened kind scope s).frames.top.shape = ⟨kind, scope, []⟩ := by
  obtain ⟨hopened, hshape⟩ : (opened kind scope s).InOrder env fine ∧ _ := Ends.inOrder_opened hs
  obtain ⟨rest, hrest⟩ := Ends.shape_top hopened
  exact (List.cons.inj (hrest.symm.trans hshape)).1

theorem scope_top_opened :
    (opened kind scope s).frames.top.scope = scope := congrArg FrameShape.scope (shape_top_opened hs)

theorem kind_top_opened : (opened kind scope s).frames.top.kind = kind := congrArg FrameShape.kind (shape_top_opened hs)

end

theorem ends_declareFunction (hcalls : CallsEnd env parts b) (inner : FrameShape)
    (hpart : Stmt.function decl span ∈ parts)
    (hdefault : ∀ before param after params s' value, decl.params = before ++ param :: after →
      (before.mapM (parameterOf (expandWithin b) decl.isInline)).Yields env s params s' →
        param.default? = some value → Stuck env ⟨b, .expr value, s'⟩ → stuck)
    (hbody : ∀ signature routine frameId s1 s2, decl.isInline = false →
      (registerPlain (expandWithin b) decl).Yields env s (signature, routine, frameId) s1 →
        (enterPlain decl signature frameId).Yields env
            (opened .function decl.body.span { s1 with draft := s1.draft.push }) () s2 →
          s1.shape = FrameShape.bind decl.name s.shape →
            s2.shape = ⟨.function, decl.body.span, decl.params.map (·.name)⟩ :: s1.shape →
              Ends env (Fine parts) (Fine parts) s2 body (inner :: s1.shape)
                (fun _ _ => True) stuck) :
    Ends env (Fine parts) (Fine parts) s (declareFunction (expandWithin b) decl body)
      (FrameShape.bind decl.name s.shape) (fun _ _ => True) stuck := by
  cases hinline : decl.isInline with
  | true =>
    rw [declareFunction]
    rw [← Bool.or_false decl.isInline] at hdefault
    refine .bind (ends_signatureOf hcalls hdefault) fun signature s1 _ _ _ hshape hfits => ?_
    simp only [hinline, if_true]
    rw [← hshape]
    refine .bind (ends_registerInline hfits (.inl hinline) (.inl ⟨rfl, span, hpart⟩)) ?_
    intro id s2 _ _ _ hshape2 hid
    rw [← hshape2]
    have hvalue : (Value.function id).Calls s2.IsFunction := ⟨_, hid, hfits.method⟩
    exact (ends_declare hvalue).anything
  | false =>
    rw [declareFunction_plain hinline]
    refine .bind (ends_registerPlain hcalls hpart hinline hdefault) ?_
    rintro ⟨signature, routine, frameId⟩ s1 hregister hs1 _ hshape hfits
    rw [← hshape]
    have hpushed : CompilerState.InOrder env (Pending parts decl) { s1 with draft := s1.draft.push } :=
      hs1.congr rfl rfl
    refine .inRoutine (.inFrame inner (.bind (ends_enterPlain hfits (scope_top_opened hpushed)) ?_))
    intro _ s2 henter hs2 _ hshape2 hnodup _
    rw [(Ends.inOrder_opened hpushed).2, FrameShape.bindAll_cons] at hshape2
    refine hbody signature routine frameId s1 s2 hinline hregister henter hshape hshape2 ?_
    exact hs2.imp fun _ _ _ h => h hnodup

theorem ends_declareMethods {id : Nat} (hcalls : CallsEnd env parts b) {methods : List Function}
    (hdeclared : ∀ decl ∈ methods, ∃ name fields methods body span,
      Stmt.struct name fields methods body span ∈ parts ∧ decl ∈ methods)
    (hdefault : ∀ earlier decl later before param after params s' s'' value, methods = earlier ++ decl :: later →
      (declareMethods (expandWithin b) id earlier).Yields env s () s' → decl.params = before ++ param :: after →
        (before.mapM (parameterOf (expandWithin b) true)).Yields env s' params s'' →
          param.default? = some value → Stuck env ⟨b, .expr value, s''⟩ → stuck) :
    Stays env (Fine parts) s (declareMethods (expandWithin b) id methods)
      (fun _ _ => True) stuck := by
  induction methods generalizing s with
  | nil => exact .pure trivial
  | cons decl rest ih =>
    rw [declareMethods]
    refine .bind (ends_signatureOf hcalls fun before param after params s' value hparams hbefore => ?_) ?_
    · rw [Bool.or_true] at hbefore
      exact hdefault [] decl rest before param after params s s' value rfl (yields_pure.mpr ⟨rfl, rfl⟩) hparams hbefore
    · intro signature s1 hsignature _ _ hshape hfits
      rw [← hshape]
      refine .bind (ends_registerInline hfits (.inr rfl) (.inr ⟨rfl, hdeclared decl (.head _)⟩)) ?_
      intro method s2 hmethod _ _ hshape2 _
      rw [← hshape2]
      refine .andThen (P := fun _ _ => True) (.change rfl rfl trivial) fun _ s3 hs3 _ _ => ?_
      refine ih (fun other hother => hdeclared other (.tail _ hother)) ?_
      intro earlier other later before param after params s' s'' value hrest hearlier
      refine hdefault (decl :: earlier) other later before param after params s' s'' value (by rw [hrest]; rfl) ?_
      simp only [declareMethods, yields_bind]
      exact ⟨signature, s1, hsignature, method, s2, hmethod, (), s3, hs3, hearlier⟩

theorem ends_registerStruct {fields : List (String × Ident)} :
    Ends env fine fine s (registerStruct name fields span) (FrameShape.bind name s.shape) (fun _ _ => True) stuck := by
  unfold registerStruct
  refine .bind (.mapM (fun _ _ _ => True) (fun _ _ _ _ _ => id) ?_) fun fields' s1 _ _ _ hshape _ => ?_
  · intro before field after bs s' _ _ hshape
    rw [← hshape]
    exact .andThen ends_resolveKind fun _ _ _ _ _ => .pure trivial
  · rw [← hshape]
    refine .bind (P := fun _ _ => True) (.modifyGet rfl rfl trivial) fun id s2 _ _ _ hshape2 _ => ?_
    rw [← hshape2]
    exact .bind (ends_declare trivial) fun _ _ _ _ _ hshape3 _ => .shaped (.pure trivial) hshape3

theorem ends_loopRoutine : Stays env fine s loopRoutine (fun _ _ => True) stuck := by
  refine .getBind (.andThen (P := fun _ _ => True) (.modifyGet rfl rfl trivial) fun routine s1 _ _ _ => ?_)
  exact .andThen (P := fun _ _ => True) (.change rfl rfl trivial) fun _ _ _ _ _ => .pure trivial

theorem ends_iteration {expand : Expansion} {var : Ident} {stmts : List Stmt} {item : Value} (inner : FrameShape)
    (hitem : item.Calls s.IsFunction)
    (hbody : ∀ s1, (declare var.name item var.span false).Yields env (opened .loop scope s) () s1 →
      s1.shape = ⟨.loop, scope, [var.name]⟩ :: s.shape →
        Ends env fine fine s1 (Stmt.compileAll expand stmts) (inner :: s.shape) (fun _ _ => True) stuck) :
    Stays env fine s (iteration expand var stmts scope item) (fun _ _ => True) stuck := by
  refine .of_inOrder fun hs => .inFrame inner (.bind (ends_declare hitem) fun _ s1 hdeclare _ _ hshape _ => ?_)
  rw [(Ends.inOrder_opened hs).2] at hshape
  exact hbody s1 hdeclare hshape

theorem ends_loop (hcalls : CallsEnd env parts b)
    (hfirst : ∀ routine s1, loopRoutine.Yields env s routine s1 →
      Stuck env ⟨b, .expr cond, { s1 with draft := s1.draft.push.hide }⟩ → stuck)
    (hbody : ∀ routine s1 s2, loopRoutine.Yields env s routine s1 →
      (inPrevious (callIf (expandWithin b) cond routine)).Yields env { s1 with draft := s1.draft.push } true s2 →
        Stays env (Fine parts) s2 body (fun _ _ => True) stuck)
    (hnext : ∀ routine s1 s2 s3, loopRoutine.Yields env s routine s1 →
      (inPrevious (callIf (expandWithin b) cond routine)).Yields env { s1 with draft := s1.draft.push } true s2 →
        body.Yields env s2 () s3 → Stuck env ⟨b, .expr cond, s3⟩ → stuck) :
    Stays env (Fine parts) s (loop (expandWithin b) cond body span)
      (fun _ _ => True) stuck := by
  rw [loop_eq]
  refine .andThen ends_loopRoutine fun routine s1 hroutine _ _ => ?_
  refine .inRoutine (.bind (.inPrevious (P := fun _ _ => True)
    ((ends_callIf hcalls).weaken (hfirst routine s1 hroutine))) ?_)
  intro again s2 hagain _ _ hshape2 _
  rw [show s1.shape = s2.shape from hshape2.symm]
  split
  next hcalled =>
    subst hcalled
    refine .andThen (hbody routine s1 s2 hroutine hagain) fun _ s3 hdone _ _ => ?_
    refine .bind ((ends_callIf hcalls).weaken (hnext routine s1 s2 s3 hroutine hagain hdone)) ?_
    exact fun _ _ _ _ _ hshape4 _ => .shaped (.pure trivial) hshape4
  · exact .pure trivial

end Compile

namespace Syntax

open Compile Point

def Stmt.reshape : Stmt → List FrameShape → List FrameShape
  | .assign (.path var []) _ _, shape => FrameShape.assign var shape
  | .destructure names _ _, shape => names.foldl (fun shape name => FrameShape.assign name.name shape) shape
  | .const name _ _, shape => FrameShape.bind name shape
  | .function decl _, shape => FrameShape.bind decl.name shape
  | .struct name _ _ _ _, shape => FrameShape.bind name shape
  | _, shape => shape

def Stmt.reshapeAll (stmts : List Stmt) (shape : List FrameShape) : List FrameShape :=
  stmts.foldl (fun shape stmt => stmt.reshape shape) shape

theorem Stmt.exists_reshape (stmt : Stmt) (f : FrameShape) (rest : List FrameShape) :
    ∃ names, stmt.reshape (f :: rest) = { f with names } :: rest := by
  unfold reshape
  split
  · exact FrameShape.exists_assign _ f rest
  next names _ _ =>
    induction names generalizing f with
    | nil => exact ⟨f.names, rfl⟩
    | cons name names ih =>
      obtain ⟨bound, hbound⟩ := FrameShape.exists_assign name.name f rest
      rw [foldl_cons, hbound]
      exact ih { f with names := bound }
  · exact ⟨_, rfl⟩
  · exact ⟨_, rfl⟩
  · exact ⟨_, rfl⟩
  · exact ⟨f.names, rfl⟩

theorem Stmt.exists_reshapeAll (stmts : List Stmt) (f : FrameShape) (rest : List FrameShape) :
    ∃ names, reshapeAll stmts (f :: rest) = { f with names } :: rest := by
  induction stmts generalizing f with
  | nil => exact ⟨f.names, rfl⟩
  | cons stmt stmts ih =>
    obtain ⟨names, hnames⟩ := stmt.exists_reshape f rest
    rw [reshapeAll, foldl_cons, hnames]
    exact ih { f with names }

mutual

theorem Stmt.ends_compile (hcalls : CallsEnd env parts b) : ∀ (stmt : Stmt) (s : CompilerState), stmt.parts ⊆ parts →
    Ends env (Fine parts) (Fine parts) s (stmt.compile (expandWithin b)) (stmt.reshape s.shape)
      (fun _ _ => True) (Stuck env ⟨b, .stmt stmt, s⟩)
  | .expr value span, s, _ => by
    rw [Stmt.compile]
    refine .atLocation (.discard (R := fun _ => True) ?_)
    exact ((value.ends_compile hcalls _).weaken (.step (.stmt .expr))).anything
  | .assign target value span, s, _ => by
    rw [Stmt.compile]
    refine .atLocation (.bind ((value.ends_compile hcalls _).weaken (.step (.stmt .assignValue))) ?_)
    intro v s1 hv _ _ hshape hvalue
    refine .bind (ends_targetPath hcalls ?_) ?_
    · rintro var index rfl
      exact .step (.stmt (.assignIndex hv))
    · rintro ⟨_, path⟩ s2 hplace _ hregisters hshape2 ⟨rfl, hpath⟩
      have hstuck : s2.Refuses target.var → Stuck env ⟨b, .stmt (.assign target value span), s⟩ := fun h =>
        .step (.stmt (.assign hv hplace)) ⟨_, _, _, _, _, .refl, by split <;> rfl, h⟩
      have hshape3 : s2.shape = s.shape := hshape2.trans hshape
      cases hplain : target.isPlain with
      | true =>
        obtain ⟨var, rfl⟩ : ∃ var, target = .path var [] := by
          cases target with
          | path var members => cases members <;> simp_all [Target.isPlain]
          | element _ _ => cases hplain
        rw [Stmt.reshape, ← hshape3]
        exact ((ends_assign (hregisters.calls hvalue)).weaken hstuck).anything
      | false =>
        refine .shaped (((ends_assignBound (hregisters.calls hvalue) (.inl ?_)).weaken hstuck).anything) ?_
        · simpa [hplain] using hpath
        · cases target with
          | path var members => cases members <;> simp_all [Target.isPlain, Stmt.reshape]
          | element _ _ => exact hshape3
  | .update target op value span, s, _ => by
    rw [Stmt.compile, updatePlace]
    refine .atLocation (.bind (ends_targetPath hcalls ?_) ?_)
    · rintro var index rfl
      exact .step (.stmt .updateIndex)
    · rintro ⟨_, path⟩ s1 hplace _ _ hshape ⟨rfl, -⟩
      refine .bind ends_readPlace ?_
      rintro current s1' hcurrent - - - ⟨rfl, -, hbound⟩
      refine .bind ((value.ends_compile hcalls s1').weaken (.step (.stmt (.updateValue hplace)))) ?_
      intro operand s2 hoperand _ _ hshape2 _
      refine .bind (P := fun result s3 => result.Calls s3.IsFunction)
        (.tryEmitting fun _ _ h => Value.calls_binary h) ?_
      intro result s3 hresult _ _ hshape3 hvalue
      have hsame : s3.shape = s1'.shape := hshape3.trans hshape2
      refine .shaped (((ends_assignBound hvalue (.inr (hsame ▸ hbound))).weaken fun h => ?_).anything)
        (hsame.trans hshape)
      exact .step (.stmt (.update hplace hcurrent hoperand hresult)) ⟨_, _, _, _, _, .refl, rfl, h⟩
  | .destructure names value span, s, _ => by
    rw [Stmt.compile]
    refine .atLocation (.bind ((value.ends_compile hcalls _).weaken (.step (.stmt .destructureValue))) ?_)
    intro v s1 hv _ _ hshape hvalue
    refine .bind (ends_itemsFor hvalue) ?_
    rintro items s1 hitems - - - ⟨rfl, hlength, hcall⟩
    refine .shaped (.forM (fun before => before.foldl (fun shape x => FrameShape.assign x.1.name shape) s1.shape) rfl ?_)
      ?_
    · intro before x after s2 hsplit hbefore hregisters hshape2
      obtain ⟨name, item⟩ := x
      have hitem : item ∈ items := (of_mem_zip (hsplit ▸ by simp : (name, item) ∈ names.zip items)).2
      rw [foldl_append, ← hshape2]
      refine ((ends_assign (hregisters.calls (hcall item hitem))).weaken fun h => ?_).anything
      exact .step (.stmt (.destructure hv hitems hsplit hbefore)) ⟨_, _, _, _, _, .refl, rfl, h⟩
    · have hnames : (names.zip items).map Prod.fst = names := map_fst_zip hlength.ge
      rw [hshape, Stmt.reshape, ← congrArg (List.foldl _ _) hnames, foldl_map]
      rfl
  | .const name value span, s, _ => by
    rw [Stmt.compile]
    refine .atLocation (.bind ((value.ends_compile hcalls _).weaken (.step (.stmt .const))) ?_)
    intro v s1 hv _ _ hshape hvalue
    split
    · exact .failBind nofun
    · exact .shaped (ends_declare hvalue).anything (congrArg (FrameShape.bind name) hshape)
  | .branch cond onTrue none span, s, hparts => by
    rw [Stmt.compile]
    rw [Stmt.parts] at hparts
    have hblock := fun kind s' => Block.ends_compile hcalls kind onTrue s' (subset_of_cons_subset hparts)
    refine .atLocation (.bind ((ends_decide hcalls).weaken (.step (.stmt .cond))) ?_)
    intro decision s1 hdecision _ _ hshape _
    refine .shaped (ends_branch ?_ ?_ ?_ (fun _ _ _ _ _ h => by cases h)) hshape
    · rintro rfl
      exact (hblock .block s1).weaken (.step (.stmt (.chosenTrue hdecision)))
    · exact fun _ => .pure trivial
    · rintro condition ownCell stable s2 rfl hstable
      exact (hblock .conditional _).weaken (.step (.stmt (.onTrue hdecision hstable)))
  | .branch cond onTrue (some onFalse) span, s, hparts => by
    rw [Stmt.compile]
    rw [Stmt.parts] at hparts
    have hparts' := append_subset.mp (subset_of_cons_subset hparts)
    have htrue := fun kind s' => Block.ends_compile hcalls kind onTrue s' hparts'.1
    have hfalse := fun kind s' => Block.ends_compile hcalls kind onFalse s' hparts'.2
    refine .atLocation (.bind ((ends_decide hcalls).weaken (.step (.stmt .cond))) ?_)
    intro decision s1 hdecision _ _ hshape _
    refine .shaped (ends_branch ?_ ?_ ?_ ?_) hshape
    · rintro rfl
      exact (htrue .block s1).weaken (.step (.stmt (.chosenTrue hdecision)))
    · rintro rfl
      exact (hfalse .block s1).weaken (.step (.stmt (.chosenFalse hdecision)))
    · rintro condition ownCell stable s2 rfl hstable
      exact (htrue .conditional _).weaken (.step (.stmt (.onTrue hdecision hstable)))
    · rintro condition ownCell stable s2 s3 - rfl hstable hguarded
      exact (hfalse .conditional _).weaken (.step (.stmt (.onFalse hdecision hstable hguarded)))
  | .repeatWhile cond body span, s, hparts => by
    rw [Stmt.compile]
    rw [Stmt.parts] at hparts
    refine .atLocation (ends_loop hcalls ?_ ?_ ?_)
    · exact fun routine s1 hroutine => .step (.stmt (.firstCheck hroutine))
    · intro routine s1 s2 hroutine hagain
      refine (Block.ends_compile hcalls .loop body s2 (subset_of_cons_subset hparts)).weaken ?_
      exact .step (.stmt (.loopBody hroutine hagain))
    · exact fun routine s1 s2 s3 hroutine hagain hdone => .step (.stmt (.nextCheck hroutine hagain hdone))
  | .forEach var items ⟨stmts, scope⟩ span, s, hparts => by
    rw [Stmt.compile]
    rw [Stmt.parts, Block.parts] at hparts
    refine .atLocation (.bind ((items.ends_compile hcalls _).weaken (.step (.stmt .items))) ?_)
    intro v s1 hv _ _ hshape hvalue
    refine .bind (ends_itemsOf hvalue) ?_
    rintro values _ hvalues - - - ⟨rfl, hitems⟩
    refine .shaped (.forM (fun _ => _) rfl ?_) hshape
    intro before item after s2 hsplit hbefore hregisters hshape2
    subst hsplit
    obtain ⟨names, hnames⟩ := Stmt.exists_reshapeAll stmts ⟨.loop, scope, [var.name]⟩ s2.shape
    rw [← hshape2]
    refine ends_iteration ⟨.loop, scope, names⟩ (hregisters.calls (hitems item (by simp))) ?_
    intro s3 hdeclare hshape3
    refine .shaped ((Stmt.ends_compileAll hcalls stmts s3 (subset_of_cons_subset hparts)).weaken ?_) ?_
    · exact .step (.stmt (.iteration hv hvalues hbefore hdeclare))
    · rw [hshape3]
      exact hnames
  | .block body span, s, hparts => by
    rw [Stmt.compile]
    rw [Stmt.parts] at hparts
    refine .atLocation ?_
    exact (Block.ends_compile hcalls .block body _ (subset_of_cons_subset hparts)).weaken (.step (.stmt .block))
  | .function ⟨name, isInline, receiver, params, result, ⟨stmts, scope⟩, declSpan⟩ span, s, hparts => by
    rw [Stmt.compile]
    rw [Stmt.parts, Function.parts, Block.parts] at hparts
    obtain ⟨names, hnames⟩ := Stmt.exists_reshapeAll stmts ⟨.function, scope, params.map (·.name)⟩
      (FrameShape.bind name s.shape)
    refine .atLocation (ends_declareFunction hcalls ⟨.function, scope, names⟩ (hparts (.head _)) ?_ ?_)
    · intro before param after params' s' value hparams hbefore hvalue
      exact .step (.stmt (.default hparams hbefore hvalue))
    · intro signature routine frameId s1 s2 hplain hregister henter hshape hshape2
      refine .shaped ((Stmt.ends_compileAll hcalls stmts s2 (subset_of_cons_subset hparts)).weaken ?_) ?_
      · exact .step (.stmt (.body hplain hregister henter))
      · rw [hshape2, hshape]
        exact hnames
  | .struct name fields methods body span, s, hparts => by
    rw [Stmt.compile, declareStruct_eq]
    rw [Stmt.parts] at hparts
    refine .atLocation (.bind ends_registerStruct fun id s1 hid _ _ hshape _ => ?_)
    refine .shaped (ends_declareMethods hcalls ?_ ?_) hshape
    · exact fun decl hdecl => ⟨_, _, _, _, _, hparts (.head _), hdecl⟩
    · intro earlier decl later before param after params s2 s3 value hmethods hearlier hparams hbefore hvalue
      exact .step (.stmt (.methodDefault hid hmethods hearlier hparams hbefore hvalue))
  | .return none span, s, _ => by
    rw [Stmt.compile]
    exact .atLocation (ends_returnValue trivial)
  | .return (some value) span, s, _ => by
    rw [Stmt.compile]
    refine .atLocation (.bind ((value.ends_compile hcalls _).weaken (.step (.stmt .return))) ?_)
    intro v s1 _ _ _ hshape hv
    exact .shaped (ends_returnValue hv) hshape

theorem Block.ends_compile (hcalls : CallsEnd env parts b) (kind : ScopeKind) : ∀ (block : Block) (s : CompilerState),
    block.parts ⊆ parts →
    Stays env (Fine parts) s (block.compile (expandWithin b) kind)
      (fun _ _ => True) (Stuck env ⟨b, .block kind block, s⟩)
  | ⟨stmts, scope⟩, s, hparts => by
    rw [Block.compile]
    rw [Block.parts] at hparts
    obtain ⟨names, hnames⟩ := Stmt.exists_reshapeAll stmts ⟨kind, scope, []⟩ s.shape
    refine .of_inOrder fun hs => .inFrame ⟨kind, scope, names⟩ (.shaped
      ((Stmt.ends_compileAll hcalls stmts _ hparts).weaken (.step .block)) ?_)
    rw [(Ends.inOrder_opened hs).2]
    exact hnames

theorem Stmt.ends_compileAll (hcalls : CallsEnd env parts b) : ∀ (stmts : List Stmt) (s : CompilerState),
    Stmt.allParts stmts ⊆ parts →
    Ends env (Fine parts) (Fine parts) s (Stmt.compileAll (expandWithin b) stmts)
      (Stmt.reshapeAll stmts s.shape) (fun _ _ => True) (Stuck env ⟨b, .stmts stmts, s⟩)
  | [], s, _ => .pure trivial
  | stmt :: rest, s, hparts => by
    rw [Stmt.compileAll]
    rw [Stmt.allParts, append_subset] at hparts
    refine .bind ((Stmt.ends_compile hcalls stmt s hparts.1).weaken (.step .head)) fun _ s1 hstmt _ _ hshape _ => ?_
    rw [Stmt.reshapeAll, foldl_cons, ← hshape]
    exact (Stmt.ends_compileAll hcalls rest s1 hparts.2).weaken (.step (.tail hstmt))

end

end Syntax

end Datapack
