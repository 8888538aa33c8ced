import Datapack.Proofs.Report.Parse
import Datapack.Proofs.Storing
import Datapack.Proofs.Defaults
import Datapack.Proofs.Visit.Shift

/-!
How a plain function gets its arguments. They are stored at the slots of its parameters one after the other; so an
argument that is kept in the slot of an earlier parameter is read after that slot has changed, and all others arrive as
they were.
-/

namespace Datapack

open Syntax List

variable {value v held : Value} {slot result : Slot} {i : Nat} {f : FunctionDef} {routine : String} {slots : List Slot}
  {args values : List Value}

def Value.Apart (slot : Slot) : Value → Prop
  | .number (.dynamic cell _) | .fixed (.dynamic cell _) | .bool (.dynamic cell _) => ¬ cell.PartOf slot.cell
  | .string (.dynamic path _) => ¬ path.Overlaps slot.path
  | _ => True

section

variable {World : Type} {engine : Engine World} {data : World → Path → String}

theorem Value.Apart.avoids {place : Slot} (h : value.Apart slot) (hplace : place.PartOf slot) :
    value.Avoids Path.Overlaps place := by
  match value, h with
  | .number (.dynamic _ _), h | .fixed (.dynamic _ _), h | .bool (.dynamic _ _), h => exact fun heq => h (heq ▸ hplace.1)
  | .string (.dynamic _ _), h => exact fun hover => h (hover.elim (fun hin => .inl (hin.trans hplace.2)) (·.overlaps hplace.2))
  | .number (.static _), _ | .fixed (.static _), _ | .bool (.static _), _ | .string (.static _), _ | .null, _
  | .structType _ _, _ | .struct _ _ _, _ | .array _, _ | .builtin _, _ | .function _, _ => trivial

def storingAll (pairs : List (Value × Slot)) : List (List Instr) := pairs.map fun pair => pair.1.storing pair.2

section Storing

variable {pairs : List (Value × Slot)} (hengine : engine.Keeps data Path.Overlaps)

include hengine

theorem content_of_apart (hvalue : ∀ pair ∈ pairs, value.Apart pair.2) (m : Machine World) :
    value.content? data (engine.steps m (storingAll pairs).flatten) = value.content? data m := by
  induction pairs generalizing m with
  | nil => rfl
  | cons pair pairs ih =>
    obtain ⟨hfirst, hrest⟩ := forall_mem_cons.mp hvalue
    rw [storingAll, map_cons, flatten_cons, Engine.steps_append]
    refine (ih hrest _).trans (Value.content_of_avoids hengine fun leaf hleaf => ?_)
    exact hfirst.avoids (Value.mem_leavesAt.mp hleaf).partOf

theorem content_storing (hheld : v.kind.atSlot? slot = some held) (m : Machine World) :
    held.content? data (engine.steps m (v.storing slot)) = v.content? data m := by
  have hplaced : v.IsFlat ∧ held = v.placed slot := by
    cases v <;> cases hheld <;> exact ⟨trivial, rfl⟩
  obtain ⟨hflat, rfl⟩ := hplaced
  rw [Value.storing, Value.leavesAt_of_isFlat hflat, Value.moving, flatMap_singleton]
  exact Value.content_movesTo hengine

theorem content_of_stored (hi : pairs[i]? = some (value, slot)) (hheld : value.kind.atSlot? slot = some held)
    (hlater : ∀ j pair, i < j → pairs[j]? = some pair → held.Apart pair.2) (m : Machine World) :
    held.content? data (engine.steps m (storingAll pairs).flatten) =
      value.content? data (engine.steps m ((storingAll pairs).take i).flatten) := by
  induction pairs generalizing i m with
  | nil => cases hi
  | cons pair pairs ih =>
    rw [storingAll, map_cons, flatten_cons, Engine.steps_append]
    cases i with
    | zero =>
      cases hi
      have hkept : ∀ pair ∈ pairs, held.Apart pair.2 := by
        intro pair hpair
        obtain ⟨j, hj⟩ := mem_iff_getElem?.mp hpair
        exact hlater (j + 1) pair (Nat.succ_pos j) hj
      exact (content_of_apart hengine hkept _).trans (content_storing hengine hheld m)
    | succ i =>
      rw [take_succ_cons, flatten_cons, Engine.steps_append]
      exact ih hi (fun j pair hj hpair => hlater (j + 1) pair (Nat.succ_lt_succ hj) hpair) _

end Storing

end

variable {frame : Nat} {x y : String} {kind : Kind} {p : Parameter} {parts : List Stmt}

theorem Kind.apart_atSlot? (h : kind.atSlot? (Slot.ofVariable frame x) = some held)
    (hx : '.' ∉ x.toList) (hy : '.' ∉ y.toList) (hne : x ≠ y) : held.Apart (Slot.ofVariable frame y) := by
  cases kind <;> simp only [atSlot?, Option.some.injEq, reduceCtorEq] at h <;> subst h
  case number | fixed | bool => exact (Slot.Apart.ofVariable hx hy hne).not_partOf
  case string => exact (Slot.Apart.ofVariable hx hy hne).not_overlaps
  case null => trivial

theorem Syntax.IsName.dot_notMem {name : String} (h : IsName name) : '.' ∉ name.toList := fun hdot =>
  absurd (h.2 _ hdot) (by decide)

theorem FunctionDef.Fine.isName (h : f.Fine parts)
    (hnamed : ∀ stmt ∈ parts, stmt.Named) (hp : p ∈ f.signature.params) : IsName p.name := by
  have hdecl : f.decl.Named := by
    obtain ⟨-, span, hpart⟩ | ⟨-, name, fields, methods, body, span, hpart, hmethod⟩ := h.declared
    · exact hnamed _ hpart
    · exact (hnamed _ hpart).2.2 f.decl hmethod
  have hname : p.name ∈ f.decl.params.map (·.name) := h.names ▸ mem_map_of_mem hp
  obtain ⟨param, hparam, heq⟩ := mem_map.mp hname
  exact heq ▸ hdecl.2 param hparam

theorem FunctionDef.Fine.apart_atSlot? (h : f.Fine parts) (hnamed : ∀ stmt ∈ parts, stmt.Named)
    (hform : f.form = .plain routine slots result) {j : Nat} {other : Slot} (hi : slots[i]? = some slot)
    (hj : slots[j]? = some other) (hne : i ≠ j) (hheld : kind.atSlot? slot = some held) : held.Apart other := by
  obtain ⟨⟨frame, rfl, -⟩, hnodup, -⟩ := h.plain routine slots result hform
  rw [← h.names] at hnodup
  rw [getElem?_map, Option.map_eq_some_iff] at hi hj
  obtain ⟨p, hp, rfl⟩ := hi
  obtain ⟨q, hq, rfl⟩ := hj
  refine Kind.apart_atSlot? hheld (h.isName hnamed (mem_of_getElem? hp)).dot_notMem
    (h.isName hnamed (mem_of_getElem? hq)).dot_notMem fun heq => hne ?_
  have hlt : i < (f.signature.params.map (·.name)).length := by
    rw [length_map]
    exact (List.getElem?_eq_some_iff.mp hp).1
  refine (getElem?_inj hlt hnodup).mp ?_
  rw [getElem?_map, getElem?_map, hp, hq, Option.map_some, Option.map_some, heq]

theorem Signature.check_of_distribute {total found : Nat} {params : List Parameter}
    (hparams : ∀ p ∈ params, p.arity = .one) (h : distribute total found params args = .ok (values.map .one))
    (hi : i < args.length) (hvalue : values[i]? = some value) (hp : params[i]? = some p) : p.check value = .ok () := by
  induction params generalizing args values i with
  | nil => cases hp
  | cons first params ih =>
    obtain ⟨v, rest, later, hmatched, hlater, hfrom⟩ := of_distribute_one (hparams first (.head _)) h
    obtain ⟨w, values, rfl, hw, rfl⟩ := map_eq_cons_iff.mp hmatched
    cases hw
    obtain ⟨rfl, hcheck⟩ | ⟨rfl, -⟩ := hfrom
    · cases i with
      | zero =>
        cases hvalue
        cases hp
        exact hcheck
      | succ i =>
        exact ih (fun q hq => hparams q (.tail _ hq)) hlater (Nat.lt_of_succ_lt_succ hi) hvalue hp
    · exact absurd hi (Nat.not_lt_zero i)

namespace Compile

variable {env : Environment} {s s' : CompilerState} {span : Span}

theorem draft_of_storeAll {u : Unit}
    (h : (storeArguments (values.map .one) slots span).Yields env s u s') :
    s'.location = s.location ∧ s'.draft = s.draft.appendAll
      ((storingAll (values.zip slots)).flatten.map fun i => { Node.leaf i with location := some s.location }) := by
  induction values generalizing slots s with
  | nil =>
    obtain ⟨-, rfl⟩ := yields_pure.mp h
    exact ⟨rfl, rfl⟩
  | cons value values ih =>
    cases slots with
    | nil =>
      obtain ⟨-, rfl⟩ := yields_pure.mp h
      exact ⟨rfl, rfl⟩
    | cons slot slots =>
      obtain ⟨_, s1, hfirst, hrest⟩ := yields_bind.mp h
      obtain ⟨_, s2, hdiscard, hpure⟩ := yields_bind.mp hfirst
      obtain ⟨-, rfl⟩ := yields_pure.mp hpure
      obtain ⟨stored, hemit⟩ := yields_discard.mp hdiscard
      obtain ⟨e, hstore, rfl⟩ := yields_tryEmitting.mp hemit
      obtain ⟨-, -, rfl⟩ := Value.yields_store.mp hstore
      obtain ⟨hlocation, hdraft⟩ := ih hrest
      refine ⟨hlocation, ?_⟩
      rw [hdraft, absorb_adding, zip_cons_cons]
      simp [storingAll, Draft.appendAll]

end Compile

/-- Every call of a plain function stores its arguments in the order of the parameters and calls the routine right
after that. Supplied arguments are of the types of their parameters. When the routine is called, the slot of a parameter
holds what its argument stood for after the stores of the parameters before it; this is what the argument stood for
before all stores unless the argument is kept inside the slot of one of those. -/
theorem Syntax.Script.arguments_arrive {source : Source} {script : Script} {env : Environment}
    (hparse : Script.parse source = .ok script) {b id : Nat} {receiver : Option Receiver} {site span : Span}
    {args : List Value} {s s' : CompilerState}
    (hreach : script.start.Reaches env ⟨b, .call id receiver site args span, s⟩) {f : FunctionDef} {routine : String}
    {slots : List Slot} {result : Slot} {v : Value} (hf : s.functions[id]? = some f)
    (hform : f.form = .plain routine slots result)
    (hcall : (Compile.callFunction (Compile.expandWithin b) id receiver args span).Yields env s v s') :
    ∃ (values : List Value) (batches : List (List Instr)) (rest : List Instr),
      f.signature.matchArgs args = .ok (values.map .one) ∧ values.length = slots.length ∧
      slots.length = f.signature.params.length ∧ batches.length = slots.length ∧
      s'.draft = s.draft.appendAll ((batches.flatten ++ .call routine :: rest).map fun i =>
        { Node.leaf i with location := some s.location }) ∧
      ∀ {World : Type} (engine : Engine World) (data : World → Path → String), engine.Keeps data Path.Overlaps →
        ∀ (m : Machine World) (i : Nat) (value : Value) (p : Parameter) (slot : Slot), values[i]? = some value →
          f.signature.params[i]? = some p → slots[i]? = some slot →
            (i < args.length → value.kind = p.kind) ∧ p.kind.isSimple = true ∧
              ∀ held, value.kind.atSlot? slot = some held →
                held.content? data (engine.steps m batches.flatten) =
                    value.content? data (engine.steps m (batches.take i).flatten) ∧
                  ((∀ j earlier, j < i → slots[j]? = some earlier → value.Apart earlier) →
                    held.content? data (engine.steps m batches.flatten) = value.content? data m) := by
  obtain ⟨_, hlaid⟩ := Script.laid hparse
  have hsound := (script.sound_start env).reaches (Stmt.allWoven script.stmts).parts_subset hreach
  have hfine := (hsound.inOrder.functions id f hf).1
  obtain ⟨⟨frame, hslots, -⟩, -, hsimple⟩ := hfine.plain routine slots result hform
  obtain ⟨f', matched, hf', hmatched, -, hplain⟩ := Compile.of_callFunction hcall
  cases hf.symm.trans hf'
  obtain ⟨s1, rest, hstores, hdraft⟩ := hplain routine slots result hform
  obtain ⟨values, rfl, hlength⟩ := hfine.exists_of_matchArgs hmatched
  obtain ⟨hlocation, hdraft1⟩ := Compile.draft_of_storeAll hstores
  have hslotsLength : slots.length = f.signature.params.length := by
    rw [hslots, List.length_map]
  have hvaluesLength : values.length = slots.length := by
    rw [hlength, hslotsLength]
    simpa using (congrArg List.length hfine.names).symm
  refine ⟨values, storingAll (values.zip slots), rest, hmatched, hvaluesLength, hslotsLength, ?_, ?_, ?_⟩
  · rw [storingAll, List.length_map, List.length_zip, hvaluesLength, Nat.min_self]
  · rw [hdraft, hdraft1, hlocation, List.map_append]
    exact List.foldl_append.symm
  intro World engine data hengine m i value p slot hvalue hp hslot
  have hkind := hsimple p (List.mem_of_getElem? hp)
  refine ⟨fun hi => ?_, hkind, fun held hheld => ?_⟩
  · exact Parameter.kind_of_check hkind
      (Signature.check_of_distribute (fun q hq => (hfine.arity q hq).1) hmatched hi hvalue hp)
  have hstored : held.content? data (engine.steps m (storingAll (values.zip slots)).flatten) =
      value.content? data (engine.steps m ((storingAll (values.zip slots)).take i).flatten) := by
    refine content_of_stored hengine (List.getElem?_zip_eq_some.mpr ⟨hvalue, hslot⟩) hheld ?_ m
    intro j pair hj hpair
    exact hfine.apart_atSlot? hlaid.named hform hslot (List.getElem?_zip_eq_some.mp hpair).2 (Nat.ne_of_lt hj) hheld
  refine ⟨hstored, fun hapart => hstored.trans ?_⟩
  rw [storingAll, ← List.map_take]
  refine content_of_apart hengine (fun pair hpair => ?_) m
  obtain ⟨j, hj⟩ := List.mem_iff_getElem?.mp hpair
  rw [List.getElem?_take] at hj
  split at hj
  next hlt => exact hapart j pair.2 hlt (List.getElem?_zip_eq_some.mp hj).2
  next => cases hj

section

open Compile Point

def Source.dropping : Source where
  name := "dropping"
  code := "fun f(n: Number, s: String) { f(n - 1, s) }"

def Syntax.dropper : Function :=
  ⟨"f", false, none, [⟨"n", ⟨"Number", ⟨9, 15⟩⟩, none, ⟨6, 15⟩⟩, ⟨"s", ⟨"String", ⟨20, 26⟩⟩, none, ⟨17, 26⟩⟩], none,
    ⟨[.expr (.call (.var "f" ⟨30, 31⟩) [.binary (.var "n" ⟨32, 33⟩) .sub (.int 1 ⟨36, 37⟩) ⟨32, 37⟩, .var "s" ⟨39, 40⟩]
      ⟨30, 41⟩) ⟨30, 41⟩], ⟨28, 43⟩⟩, ⟨0, 43⟩⟩

def Syntax.dropping : Script where
  stmts := [.function dropper ⟨0, 43⟩]
  span := ⟨0, 43⟩

theorem Syntax.parse_dropping : Script.parse Source.dropping = .ok dropping := by
  cbv

def Environment.dropping : Environment := ⟨Source.dropping, {}, {}, (Analysis.of Syntax.dropping).scopes⟩

def Value.dropped : List Value := [.number (.dynamic ⟨".tmp0"⟩ true), .string (.dynamic ⟨"1_s"⟩ false)]

theorem Syntax.reaches_dropping : ∃ s f, dropping.start.Reaches Environment.dropping
    ⟨32, .call 0 none ⟨30, 31⟩ Value.dropped ⟨30, 41⟩, s⟩ ∧ s.functions[0]? = some f ∧
      f.form = .plain "f" [Slot.ofVariable 1 "n", Slot.ofVariable 1 "s"] (Slot.ofVariable 1 returnName) ∧
      f.signature.matchArgs Value.dropped = .ok (Value.dropped.map .one) ∧
      ∃ v s', (callFunction (expandWithin 32) 0 none Value.dropped ⟨30, 41⟩).Yields Environment.dropping s v s' := by
  have hstart : dropping.start.Reaches Environment.dropping dropping.start := .refl
  have hbody := (hstart.tail .head).tail (.stmt (.body rfl (yields_of_fst rfl) (yields_of_fst rfl)))
  have hcall := (hbody.tail .head).tail (.stmt .expr)
  have hcalled := hcall.tail (.expr (.call (by simp) (yields_of_fst rfl) (yields_of_fst rfl)))
  refine ⟨_, _, hcalled, rfl, rfl, rfl, exists_yields ?_⟩
  decide +kernel

/-- When the function calls itself, its parameters get a new number and the text they had. -/
theorem Syntax.Script.arguments_arrive_dropping : ∃ (s s' : CompilerState) (v : Value) (batches : List (List Instr))
    (rest : List Instr), Syntax.dropping.start.Reaches Environment.dropping
        ⟨32, .call 0 none ⟨30, 31⟩ Value.dropped ⟨30, 41⟩, s⟩ ∧
      (callFunction (expandWithin 32) 0 none Value.dropped ⟨30, 41⟩).Yields Environment.dropping s v s' ∧
      s'.draft = s.draft.appendAll ((batches.flatten ++ .call "f" :: rest).map fun i =>
        { Node.leaf i with location := some s.location }) ∧
      ∀ m : Machine (Path → String), (Engine.notebook.steps m batches.flatten).cells ⟨".exp1_n"⟩ = m.cells ⟨".tmp0"⟩ ∧
        (Engine.notebook.steps m batches.flatten).world ⟨"1_s"⟩ = m.world ⟨"1_s"⟩ := by
  obtain ⟨s, f, hreach, hf, hform, hmatched, v, s', hcall⟩ := reaches_dropping
  obtain ⟨values, batches, rest, hvalues, -, hparams, -, hdraft, harrive⟩ :=
    arguments_arrive parse_dropping hreach hf hform hcall
  obtain rfl : values = Value.dropped := by
    have hsame := Except.ok.inj (hvalues.symm.trans hmatched)
    exact List.map_injective_iff.mpr (fun _ _ => Argument.one.inj) hsame
  refine ⟨s, s', v, batches, rest, hreach, hcall, hdraft, fun m => ⟨?_, ?_⟩⟩
  · obtain ⟨p, hp⟩ : ∃ p, f.signature.params[0]? = some p := ⟨_, List.getElem?_eq_getElem (by rw [← hparams]; decide)⟩
    have harrived := ((harrive Engine.notebook id Engine.keeps_overlaps_notebook m 0 _ p _ rfl hp rfl).2.2 _ rfl).2 nofun
    exact Content.word.inj (Option.some.inj harrived)
  · obtain ⟨p, hp⟩ : ∃ p, f.signature.params[1]? = some p := ⟨_, List.getElem?_eq_getElem (by rw [← hparams]; decide)⟩
    have harrived := ((harrive Engine.notebook id Engine.keeps_overlaps_notebook m 1 _ p _ rfl hp rfl).2.2 _ rfl).2 ?_
    · exact Content.text.inj (Option.some.inj harrived)
    · intro j earlier hj hearlier
      obtain rfl := Nat.lt_one_iff.mp hj
      obtain rfl := Option.some.inj hearlier
      show ¬ (Slot.ofVariable 1 "s").path.Overlaps (Slot.ofVariable 1 "n").path
      exact (Slot.Apart.ofVariable (by decide) (by decide) (by decide)).not_overlaps

/-- The function that calls itself stores its arguments at the slots of its parameters. -/
theorem Compile.calls_suit_dropping : ∃ s s1 s' v rest,
    (callFunction (expandWithin 32) 0 none Value.dropped ⟨30, 41⟩).Yields Environment.dropping s v s' ∧
      (storeArguments (Value.dropped.map .one) [Slot.ofVariable 1 "n", Slot.ofVariable 1 "s"] ⟨30, 41⟩).Yields
        Environment.dropping s () s1 ∧
      s'.draft = s1.draft.appendAll ((.call "f" :: rest).map fun i => { Node.leaf i with location := some s1.location }) := by
  obtain ⟨s, f, -, hf, hform, hmatched, v, s', hcall⟩ := reaches_dropping
  obtain ⟨f', matched, hf', hmatched', -, hplain, -⟩ := (calls_suit _ _ _ _ _ s s' v).1 none hcall
  cases hf.symm.trans hf'
  cases hmatched.symm.trans hmatched'
  obtain ⟨s1, rest, hstores, hdraft⟩ := hplain _ _ _ hform
  exact ⟨s, s1, s', v, rest, hcall, hstores, hdraft⟩

def Source.swapping : Source where
  name := "swapping"
  code := "fun f(a: Number, b: Number) { if (a >= 2) { print(a, b) } else { f(b, a) } } f(1, 2)"

def Source.shows (source : Source) (depth : Nat) : Option (List (Option String)) := do
  let a ← (Analyzed.of source).toOption
  let p ← (a.program source {} {}).toOption
  let m ← p.run Engine.still depth "main" Machine.blank
  return m.events.map (Event.text? {})

/-- The second parameter gets what has just been stored for the first one. -/
theorem Source.swapping_shows_twice : Source.swapping.shows 3 = some [some "22"] := by
  decide +kernel

end

end Datapack
