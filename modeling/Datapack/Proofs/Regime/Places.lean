import Datapack.Proofs.Builtin
import Datapack.Proofs.Regime.Basic
import Datapack.Proofs.Regime.Terms

/-!
Places by rules. If values can be stored, bound and replaced within a regime, names and places can be read, variables
can be declared and assigned to, and functions can be entered.
-/

namespace Datapack

open Syntax List

/-- A regime with what is known of values and variables, and the rules by which they are bound. -/
structure PlaceRules (env : Environment) (ι : Type) extends Regime env ι where
  /-- What is told of the code. -/
  terms : Terms
  /-- The names that may be bound. -/
  clean : String → Prop
  /-- What is known of the value of an expression, of one that is kept in a place, and of one that is read from a
  place to be updated there. -/
  value : ι → Value → Prop
  stored : ι → Value → Prop
  current : ι → Value → Prop
  /-- What is known besides of the value of a place. -/
  fixed : ι → Value → Prop
  object : ι → Receiver → Prop
  bindable : ι → String → Variable → Prop
  value_of_goes {i j : ι} {v : Value} : goes i j → value i v → value j v
  stored_of_goes {i j : ι} {v : Value} : goes i j → stored i v → stored j v
  current_of_goes {i j : ι} {v : Value} : holds i → goes i j → current i v → current j v
  fixed_of_goes {i j : ι} {v : Value} : goes i j → fixed i v → fixed j v
  object_of_goes {i j : ι} {r : Receiver} : goes i j → object i r → object j r
  stop {i : ι} {fault : CompileFault} {span : Span} : terms.site span → fault.isLink = false →
    stops i (state i) ⟨fault, span⟩
  clean_of {name : String} : (terms.named → IsName name) → clean name
  known {i : ι} {v : Value} : v.IsFlat → v.isStatic = true → value i v
  known_fixed {i : ι} {v : Value} : v.IsFlat → v.isStatic = true → fixed i v
  array {i : ι} {items : List Value} : value i (.array items) ↔ ∀ v ∈ items, value i v
  store {i : ι} {v : Value} : value i v → stored i v
  select {i : ι} {v part : Value} {selector : Selector} : v.select selector = .ok part →
    (value i v → value i part) ∧ (fixed i v → fixed i part)
  found {i : ι} {name : String} {key : Nat} {var : Variable} : holds i →
    (state i).frames.find? name = some (key, var) →
      value i var.value ∧ fixed i var.value ∧ clean name ∧ object i ⟨var.value, some name, var.slot⟩
  part {i : ι} {name : String} {key : Nat} {var : Variable} {path : List Selector} {v : Value} : holds i →
    (state i).frames.find? name = some (key, var) → var.value.selectPath path = .ok v →
      current i (if var.slot.isSome then v.inPlace else v)
  free {i : ι} {v : Value} : value i v → (terms.onPlaces → fixed i v) → object i ⟨v, none, none⟩
  hold {i : ι} {name : String} {v : Value} {scope site : Span} {constant : Bool} : clean name → stored i v →
    bindable i name ⟨v.pinned, scope, site, none, constant⟩
  receive {i : ι} {r : Receiver} {scope site : Span} {constant : Bool} : object i r →
    bindable i Compile.selfName ⟨r.value, scope, site, r.slot, constant⟩
  parameter {i : ι} {frameId : Nat} {name formal : String} {kind : Kind} {v : Value} {scope site : Span}
    {constant : Bool} : clean name → clean formal → kind.atSlot? (.ofVariable frameId formal) = some v →
      bindable i name ⟨v, scope, site, some (.ofVariable frameId formal), constant⟩
  bind {i : ι} {name : String} {var : Variable} {span : Span} : terms.site span → bindable i name var →
    toRegime.Keeps i (Compile.bindNew name var span) fun _ _ => True
  storeNew {i : ι} {name : String} {v : Value} {span : Span} : terms.site span → clean name → stored i v →
    toRegime.Keeps i (Compile.tryEmitting span (v.store ((state i).frames.top.slotFor name))) fun j held =>
      ∀ scope site constant,
        bindable j name ⟨held.pinned, scope, site, some ((state i).frames.top.slotFor name), constant⟩
  detachNew {i : ι} {name : String} {v : Value} {span : Span} : terms.site span → clean name → stored i v →
    toRegime.Keeps i (Compile.tryEmitting span v.detach) fun j held =>
      ∀ scope site constant, bindable j name ⟨held.pinned, scope, site, none, constant⟩
  overwrite {i : ι} {name : String} {key : Nat} {var : Variable} {path : List Selector} {v : Value} {span : Span} :
    terms.site span → holds i → (state i).frames.find? name = some (key, var) →
      (var.slot = none → (state i).frames.isDynamicBelow key = false) → stored i v →
        toRegime.Keeps i (do
          let updated ← Compile.replace v span path var.value var.slot
          match (← Compile.frames).rebind name updated.pinned with
          | .ok frames => Compile.modifyFrames fun _ => frames
          | .error _ => Compile.fail (.internal "variable disappeared during assignment") span) fun _ _ => True
  returnTo {i : ι} {frameId : Nat} {kind : Kind} :
    toRegime.Keeps i (Compile.modifyFrames (·.modifyTop fun f => { f with
      returnSlot := some (Slot.ofVariable frameId Compile.returnName), returnKind := some kind })) fun _ _ => True
  returnKind {i : ι} {kind : Kind} :
    toRegime.Keeps i (Compile.modifyFrames (·.modifyTop fun f => { f with returnKind := some kind })) fun _ _ => True

namespace PlaceRules

open Compile

variable {env : Environment} {ι : Type} {R : PlaceRules env ι} {i : ι} {span : Span} {decl : Function} {v : Value}
  {name : String}

theorem keeps_fail {α : Type} {P : ι → α → Prop} {fault : CompileFault} (hspan : R.terms.site span)
    (hfault : fault.isLink = false) : R.Keeps i (Compile.fail fault span) P := .fail (R.stop hspan hfault)

theorem clean_param (hdecl : R.terms.AllowsFunction decl) {param : Param} (hparam : param ∈ decl.params) :
    R.clean param.name :=
  R.clean_of fun hn => (hdecl.named hn).1.2 param hparam

theorem clean_name (hdecl : R.terms.AllowsFunction decl) : R.clean decl.name :=
  R.clean_of fun hn => (hdecl.named hn).1.1

section

variable (hspan : R.terms.site span) {path : List Selector}

include hspan

theorem keeps_checkResult {frame : Frame} : R.Keeps i (checkResult frame v span) fun j _ => j = i := by
  unfold checkResult
  split
  · split
    · exact .pure rfl
    · exact keeps_fail hspan rfl
  · exact .pure rfl

theorem keeps_returnValue (hresult : ∀ key frame, (R.state i).frames.enclosingFunction? = some key →
    (R.state i).frames.get? key = some frame →
      R.Keeps i (keptResult frame ((R.state i).frames.isDynamicBelow key) v span) fun j kept =>
        R.Keeps j (modifyFrames (·.modify key fun f => { f with returned := some kept })) fun _ _ => True) :
    R.Keeps i (returnValue v span) fun _ _ => True := by
  refine .framesBind ?_
  split
  · exact keeps_fail hspan rfl
  next key hkey =>
    split
    · exact keeps_fail hspan rfl
    next frame hframe =>
      refine .bind (keeps_checkResult hspan) fun _ j _ hsame => ?_
      subst hsame
      exact .bind (hresult key frame hkey hframe) fun _ _ _ => id

theorem keeps_readName : R.Keeps i (readName name span) fun j v => R.value j v ∧ R.fixed j v ∧
      (∀ key var, (R.state j).frames.find? name = some (key, var) → v = var.value) ∧
        ((R.state j).frames.find? name = none → ∃ builtin, v = .builtin builtin) := by
  refine .of_holds fun hi => .framesBind ?_
  split
  next key var hfind =>
    obtain ⟨hvalue, hfixed, -⟩ := R.found hi hfind
    refine .pure ⟨hvalue, hfixed, fun key' var' hfind' => ?_, fun hnone => ?_⟩
    · rw [hfind] at hfind'
      rw [(Prod.mk.inj (Option.some.inj hfind')).2]
    · rw [hfind] at hnone
      cases hnone
  next hnone =>
    split
    next builtin _ =>
      refine .pure ⟨R.known trivial rfl, R.known_fixed trivial rfl, fun key var hfind => ?_, fun _ => ⟨builtin, rfl⟩⟩
      rw [hnone] at hfind
      cases hfind
    next => exact keeps_fail hspan rfl

theorem keeps_readPlace : R.Keeps i (readPlace name path span) fun j v => R.current j v ∧ R.clean name := by
  refine .of_holds fun hi => .framesBind ?_
  split
  · exact keeps_fail hspan rfl
  next key var hfind =>
    refine .bind (P := fun j v => j = i ∧ var.value.selectPath path = .ok v) (.orFail (fun v hv => ⟨rfl, hv⟩) ?_) ?_
    · exact fun _ hfault => R.stop hspan ((Value.isNoPart_of_selectPath hfault).isLink)
    · rintro v _ - ⟨rfl, hv⟩
      exact .pure ⟨R.part hi hfind hv, (R.found hi hfind).2.2.1⟩

theorem keeps_declare {constant : Bool} (hname : R.clean name) (hv : R.stored i v) :
    R.Keeps i (declare name v span constant) fun _ _ => True := by
  refine .framesBind (.readBind ?_)
  split
  · exact .bind (R.storeNew hspan hname hv) fun held _ _ hheld => R.bind hspan (hheld _ _ _)
  · exact .bind (R.detachNew hspan hname hv) fun held _ _ hheld => R.bind hspan (hheld _ _ _)

theorem keeps_assign (hname : R.clean name) (hv : R.stored i v) :
    R.Keeps i (assign name path v span) fun _ _ => True := by
  refine .of_holds fun hi => .framesBind ?_
  split
  · split
    · exact keeps_declare hspan hname hv
    · exact keeps_fail hspan rfl
  next key var hfind =>
    split
    · exact .failBind (R.stop hspan rfl)
    · refine .framesBind ?_
      split
      · exact .failBind (R.stop hspan rfl)
      next hstatic => exact R.overwrite hspan hi hfind (fun hnone => by simpa [hnone] using hstatic) hv

end

variable {receiver : Option Receiver} {scope : Span} {frameId : Nat} {params : List Param} {body : Compile Unit}

theorem keeps_bindReceiver (hspan : ∀ site, decl.receiver = some site → R.terms.site site)
    (hreceiver : ∀ r, receiver = some r → R.object i r) : R.Keeps i (bindReceiver decl receiver) fun _ _ => True := by
  unfold bindReceiver
  split
  next r site hsite => exact R.bind (hspan site hsite) (R.receive (hreceiver r rfl))
  next => exact .pure trivial

theorem keeps_bindArguments {args : List (Param × Argument)}
    (hargs : ∀ x ∈ args, R.terms.site x.1.span ∧ R.clean x.1.name ∧ ∀ v ∈ x.2.values, R.stored i v) :
    R.Keeps i (bindArguments scope args) fun _ _ => True := by
  induction args generalizing i with
  | nil => exact .pure trivial
  | cons first rest ih =>
    obtain ⟨param, argument⟩ := first
    obtain ⟨⟨hspan, hname, hvalues⟩, hrest⟩ := forall_mem_cons.mp hargs
    have hrest : ∀ j, R.goes i j → R.Keeps j (bindArguments scope rest) fun _ _ => True := fun j hj =>
      ih fun x hx => ⟨(hrest x hx).1, (hrest x hx).2.1, fun v hv => R.stored_of_goes hj ((hrest x hx).2.2 v hv)⟩
    cases argument with
    | many values => exact keeps_fail hspan rfl
    | one value =>
      have hvalue : R.stored i value := hvalues value (.head _)
      refine .framesBind (.readBind ?_)
      split
      · refine .bind (R.storeNew hspan hname hvalue) fun held j hj hheld => ?_
        exact .bind (R.bind hspan (hheld _ _ _)) fun _ k hk _ => hrest k (R.trans hj hk)
      · exact .bind (R.bind hspan (R.hold hname hvalue)) fun _ j hj _ => hrest j hj

section

variable (hparams : ∀ param ∈ params, R.terms.site param.span ∧ R.clean param.name)

include hparams

theorem keeps_bindParams {formals : List Parameter} (hformals : ∀ formal ∈ formals, R.clean formal.name) :
    R.Keeps i (bindParams scope (params.zip ((formals.map fun p => Slot.ofVariable frameId p.name).zip formals)))
      fun _ _ => True := by
  induction params generalizing i formals with
  | nil => exact .pure trivial
  | cons param rest ih =>
    cases formals with
    | nil => exact .pure trivial
    | cons formal others =>
      obtain ⟨hparam, hrest⟩ := forall_mem_cons.mp hparams
      obtain ⟨hformal, hothers⟩ := forall_mem_cons.mp hformals
      rw [map_cons, zip_cons_cons, zip_cons_cons, bindParams]
      split
      · exact keeps_fail hparam.1 rfl
      next v hv =>
        exact .bind (R.bind hparam.1 (R.parameter hparam.2 hformal hv)) fun _ _ _ _ => ih hrest hothers

theorem keeps_plainBody {signature : Signature} (hformals : ∀ formal ∈ signature.params, R.clean formal.name)
    (hbody : ∀ j, R.goes i j → R.Keeps j body fun _ _ => True) :
    R.Keeps i (do
      modifyFrames (·.modifyTop fun f => { f with
        returnSlot := some (Slot.ofVariable frameId returnName), returnKind := some signature.result })
      bindParams scope
        (params.zip ((signature.params.map fun p => Slot.ofVariable frameId p.name).zip signature.params))
      body) fun _ _ => True :=
  .bind R.returnTo fun _ _ hj _ => .bind (keeps_bindParams hparams hformals) fun _ _ hk _ => hbody _ (R.trans hj hk)

end

theorem keeps_expandedBody {α : Type} {P : ι → α → Prop} {kind : Kind} {args : List Argument} {result : Compile α}
    (hspan : ∀ site, decl.receiver = some site → R.terms.site site)
    (hparams : ∀ param ∈ decl.params, R.terms.site param.span ∧ R.clean param.name)
    (hreceiver : ∀ r, receiver = some r → R.object i r) (hargs : ∀ argument ∈ args, ∀ v ∈ argument.values, R.stored i v)
    (hbody : ∀ j, R.goes i j → R.Keeps j body fun _ _ => True) (hresult : ∀ j, R.goes i j → R.Keeps j result P) :
    R.Keeps i (do
      modifyFrames (·.modifyTop fun f => { f with returnKind := some kind })
      bindReceiver decl receiver
      bindArguments scope (decl.params.zip args)
      body
      result) P := by
  refine .bind R.returnKind fun _ j hj _ => ?_
  refine .bind (keeps_bindReceiver hspan fun r hr => R.object_of_goes hj (hreceiver r hr)) fun _ k hk _ => ?_
  have hk := R.trans hj hk
  refine .bind (keeps_bindArguments fun x hx => ?_) fun _ l hl _ => ?_
  · obtain ⟨hparam, hargument⟩ := of_mem_zip hx
    exact ⟨(hparams _ hparam).1, (hparams _ hparam).2, fun v hv => R.stored_of_goes hk (hargs _ hargument v hv)⟩
  · have hl := R.trans hk hl
    exact .bind (hbody l hl) fun _ m hm _ => hresult m (R.trans hl hm)

end PlaceRules

end Datapack
