import Datapack.Proofs.Matching
import Datapack.Proofs.Temporaries.Place

/-!
Steps that only add instructions: calls of built-in functions, the making of structs, and the steps around them.
Whatever rules there are for values and instructions, such a step keeps to them if the values that it is given do.
-/

namespace Datapack

open Syntax List

variable {fault : CompileFault} {builtin : Builtin} {v : Value} {values : List Value} {s' : CompilerState}

def CompileFault.isLink : CompileFault → Bool
  | .link _ => true
  | _ => false

def CompileFault.isStaticWrite : CompileFault → Bool
  | .staticWrite _ => true
  | _ => false

theorem CompileFault.IsNoPart.isLink (h : fault.IsNoPart) : fault.isLink = false := by
  cases fault <;> first | rfl | exact h.elim

theorem CompileFault.IsNoPart.isStaticWrite (h : fault.IsNoPart) : fault.isStaticWrite = false := by
  cases fault <;> first | rfl | exact h.elim

theorem Builtin.known_default {p : Parameter} (hp : p ∈ builtin.signature.params)
    (hv : p.default? = some v) : v = .null ∨ ∃ n, v = .number (.static n) := by
  cases builtin <;> simp [signature, shape, optional, known] at hp <;>
    rcases hp with rfl | rfl | rfl | rfl <;> simp at hv <;> subst hv <;> simp

namespace Compile

theorem known_of_progression {stop step : Int} {limit : Nat} {start : Int} {items : List Value}
    (h : progression? stop step limit start = some items) : ∀ item ∈ items, ∃ n, item = .number (.static n) := by
  fun_induction progression? stop step limit start generalizing items with
  | case1 => cases h
  | case2 start _ limit ih =>
    obtain ⟨rest, hrest, rfl⟩ := Option.map_eq_some_iff.mp h
    intro item hitem
    cases mem_cons.mp hitem with
    | inl heq => exact ⟨_, heq⟩
    | inr hitem => exact ih hrest item hitem
  | case3 =>
    cases h
    exact fun _ hitem => by cases hitem

variable {stop step first : Value} {range : Value}

section

variable (h : rangeItems first stop step = .ok range)

include h

theorem progression_of_rangeItems :
    ∃ start last items, (stop = .null ∧ start = 0 ∧ last = (knownWord? first).getD 0 ∨
        knownWord? stop = some last ∧ start = (knownWord? first).getD 0) ∧
      (knownWord? step).getD 1 ≠ 0 ∧
      progression? last.toInt ((knownWord? step).getD 1).toInt rangeLimit start.toInt = some items ∧
      range = .array items := by
  unfold rangeItems at h
  dsimp only at h
  -- the two ways to read the bounds go on in the same way
  split at h
  case h_3 => cases h
  all_goals
    obtain ⟨bounds, hbounds, h⟩ := Signature.bind_eq_ok.mp h
    cases hbounds
    dsimp only at h
    split at h
    · cases h
    next hstep =>
      split at h
      next items hitems =>
        refine ⟨_, _, items, ?_, hstep, hitems, (Except.ok.inj h).symm⟩
        first
        | exact .inl ⟨rfl, rfl, rfl⟩
        | exact .inr ⟨by assumption, rfl⟩
      next => cases h

theorem known_of_rangeItems : ∃ items, range = .array items ∧ ∀ item ∈ items, ∃ n, item = .number (.static n) := by
  obtain ⟨_, _, items, -, -, hitems, rfl⟩ := progression_of_rangeItems h
  exact ⟨items, rfl, known_of_progression hitems⟩

end

theorem fault_of_rangeItems (h : rangeItems first stop step = .error fault) :
    fault.isLink = false ∧ fault.isStaticWrite = false := by
  unfold rangeItems at h
  dsimp only at h
  split at h
  all_goals
    simp only [bind, Except.bind] at h
    first
    | cases h; exact ⟨rfl, rfl⟩
    | split at h
      · cases h
        exact ⟨rfl, rfl⟩
      · split at h <;> cases h
        exact ⟨rfl, rfl⟩

end Compile

def Environment.Tests (env : Environment) (name : String) : Prop :=
  name = "weather/raining" ∨ name = "weather/thundering" ∨
    ∃ feature, env.catalogue.hasFeature feature = true ∧ name = "feature/" ++ feature

/-- Rules for the values that built-in functions are called with and give, next to those for their cells. Raw commands
may be forbidden. -/
structure CallRules (env : Environment) extends Discipline where
  value : Nat → Value → Prop
  raw : Prop
  value_mono {n m : Nat} {v : Value} : n ≤ m → value n v → value m v
  number {n : Nat} {d : Datum Int32 Cell} : value n (.number d) ↔ d.Places (place n)
  fixed {n : Nat} {d : Datum Int32 Cell} : value n (.fixed d) ↔ d.Places (place n)
  bool {n : Nat} {d : Datum Bool Cell} : value n (.bool d) ↔ d.Places (place n)
  text {n : Nat} {text : String} : value n (.string (.static text))
  null {n : Nat} : value n .null
  array {n : Nat} {items : List Value} : value n (.array items) ↔ ∀ v ∈ items, value n v
  parts {n id : Nat} {name : String} {fields : List (String × Value)} :
    value n (.struct id name fields) → ∀ x ∈ fields, value n x.2
  tests {n : Nat} {name : String} : env.Tests name → test n ⟨false, .predicate name⟩
  shows {n k : Nat} {c : Cell} : k < n → read n c →
    write n [] (.scoreToData (.temporary k) c Value.displayScale .double)
  tells {n : Nat} {message : Json} : write n [] (.tellraw message)
  places {n : Nat} {position : BlockPosition} {block : String} : env.catalogue.hasBlock block = true →
    write n [] (.setBlock position block)
  runs {n : Nat} {command : String} : raw → write n [] (.raw command)

def CallRules.within (env : Environment) (P : Cell → Prop) (low : Nat) : CallRules env where
  toDiscipline := .within P low
  value n v := v.Places ((Discipline.within P low).place n)
  raw := False
  value_mono hle h := h.mono fun _ _ => (Discipline.within P low).place_mono hle
  number := Iff.rfl
  fixed := Iff.rfl
  bool := Iff.rfl
  text := trivial
  null := trivial
  array := Value.itemPlaces_iff
  parts := Value.fieldPlaces_iff.mp
  tests _ := trivial
  shows _ _ := ⟨trivial, nofun⟩
  tells := ⟨trivial, nofun⟩
  places _ := ⟨trivial, nofun⟩
  runs := False.elim

/-- The rules by which anything may be written, and values have a property that only functions may lack. -/
def CallRules.free (env : Environment) (V : Value → Prop) (flat : ∀ v, v.IsFlat → (∀ id, v ≠ .function id) → V v)
    (array : ∀ items, V (.array items) ↔ ∀ v ∈ items, V v)
    (parts : ∀ id name fields, V (.struct id name fields) → ∀ x ∈ fields, V x.2) : CallRules env where
  base := 0
  place _ _ _ := True
  read _ _ := True
  test _ _ := True
  write _ _ _ := True
  value _ v := V v
  raw := True
  place_mono _ := id
  read_mono _ := id
  test_mono _ := id
  write_mono _ _ := id
  fresh _ := trivial
  reads _ := trivial
  range _ := trivial
  compare _ _ := trivial
  set _ := trivial
  add _ := trivial
  copy _ _ := trivial
  operate _ _ := trivial
  constant _ _ := trivial
  store _ _ := trivial
  value_mono _ := id
  number {n d} := ⟨fun _ => by cases d <;> trivial, fun _ => flat _ trivial nofun⟩
  fixed {n d} := ⟨fun _ => by cases d <;> trivial, fun _ => flat _ trivial nofun⟩
  bool {n d} := ⟨fun _ => by cases d <;> trivial, fun _ => flat _ trivial nofun⟩
  text := flat _ trivial nofun
  null := flat _ trivial nofun
  array := array _
  parts := parts _ _ _
  tests _ := trivial
  shows _ _ := trivial
  tells := trivial
  places _ := trivial
  runs _ := trivial

def CallRules.anything (env : Environment) : CallRules env :=
  .free env (fun _ => True) (fun _ _ _ => trivial) (fun _ => by simp) fun _ _ _ _ _ _ => trivial

variable {env : Environment} {R : CallRules env} {n next : Nat}

section Display

open Emit

theorem Value.obeys_displayLiteral (seen : List Component) (v : Value) :
    TryObeys R.toDiscipline n (displayLiteral seen v) fun _ _ => True := by
  unfold displayLiteral
  split
  · exact .pure fun _ _ => trivial
  · exact .throw

theorem Value.obeys_display (hv : R.value n v) (seen : List Component) :
    TryObeys R.toDiscipline n (display seen v) fun _ _ => True := by
  revert seen n
  refine part_induction
    (fun v => ∀ {n : Nat}, R.value n v → ∀ seen, TryObeys R.toDiscipline n (display seen v) fun _ _ => True)
    (fun fields => ∀ {n : Nat}, (∀ x ∈ fields, R.value n x.2) → ∀ first seen,
      TryObeys R.toDiscipline n (displayFields first seen fields) fun _ _ => True)
    (fun items => ∀ {n : Nat}, (∀ x ∈ items, R.value n x) → ∀ first seen,
      TryObeys R.toDiscipline n (displayItems first seen items) fun _ _ => True) ?_ ?_ ?_ ?_ ?_ ?_ ?_ v
  · intro v hflat n hv seen
    have hliteral := obeys_displayLiteral (R := R) (n := n) seen v
    cases v with
    | number d | bool d | string d =>
      cases d with
      | static _ => exact hliteral
      | dynamic _ _ => exact .pure fun _ _ => trivial
    | fixed d =>
      cases d with
      | static _ => exact hliteral
      | dynamic cell temporary =>
        have hcell : R.place n cell temporary := R.fixed.mp hv
        refine .bind (.lift .freshPath) fun path m hle ⟨k, hk, hpath⟩ => ?_
        refine .bind (.lift (.instr (hpath ▸ R.shows hk (R.reads (R.place_mono hle hcell))))) ?_
        exact fun _ _ _ _ => .pure fun _ _ => trivial
    | struct _ _ _ | array _ => exact hflat.elim
    | null | structType _ _ | builtin _ | function _ => exact hliteral
  · intro id name fields ih n hv seen
    unfold display
    split
    · exact obeys_displayLiteral seen _
    · exact .bind (ih (R.parts hv) true _) fun _ _ _ _ => .pure fun _ _ => trivial
  · intro items ih n hv seen
    unfold display
    split
    · exact obeys_displayLiteral seen _
    · exact .bind (ih (R.array.mp hv) true _) fun _ _ _ _ => .pure fun _ _ => trivial
  · exact fun _ _ _ => .pure fun _ _ => trivial
  · intro name v rest ihValue ihRest n hfields first seen
    obtain ⟨hv, hrest⟩ := forall_mem_cons.mp hfields
    exact .bind (ihValue hv _) fun _ _ hle _ => ihRest (fun x hx => R.value_mono hle (hrest x hx)) false _
  · exact fun _ _ _ => .pure fun _ _ => trivial
  · intro v rest ihValue ihRest n hitems first seen
    obtain ⟨hv, hrest⟩ := forall_mem_cons.mp hitems
    exact .bind (ihValue hv _) fun _ _ hle _ => ihRest (fun x hx => R.value_mono hle (hrest x hx)) false _

theorem Value.obeys_displayAll (hvalues : ∀ v ∈ values, R.value n v) (seen : List Component) :
    TryObeys R.toDiscipline n (displayAll seen values) fun _ _ => True := by
  induction values generalizing n seen with
  | nil => exact .pure fun _ _ => trivial
  | cons value rest ih =>
    obtain ⟨hvalue, hrest⟩ := forall_mem_cons.mp hvalues
    exact .bind (obeys_display hvalue seen) fun _ _ hle _ => ih (fun v hv => R.value_mono hle (hrest v hv)) _

end Display

def Emission.join (e e' : Emission) : Emission :=
  ⟨e'.nextTemporary, e.instrs ++ e'.instrs, e.constants ++ e'.constants⟩

theorem Emission.Follows.join {D : Discipline} {e e' : Emission} (h : Emission.Follows D { nextTemporary := n } e)
    (h' : Emission.Follows D { nextTemporary := e.nextTemporary } e') :
    Emission.Follows D { nextTemporary := n } (e.join e') := by
  obtain ⟨new, hnew, hwritten⟩ := h.written
  obtain ⟨more, hmore, hwritten'⟩ := h'.written
  refine ⟨h.next_le.trans h'.next_le, by simp, new ++ more, ?_, fun i hi => ?_⟩
  · simp only [Emission.join, Array.toList_append, hnew, hmore]
    rfl
  · simp only [Emission.join, Array.toList_append]
    obtain hi | hi := mem_append.mp hi
    · exact D.write_mono h'.next_le (subset_append_left _ _) (hwritten i hi)
    · exact D.write_mono .refl (subset_append_right _ _) (hwritten' i hi)

namespace Compile

variable {α β : Type} {s : CompilerState} {span : Span} {args : List Value}

theorem absorb_join (e e' : Emission) (s : CompilerState) : absorb (e.join e') s = absorb e' (absorb e s) := by
  simp [absorb, Emission.join, Draft.appendAll, foldl_append]

/-- Whether a step adds instructions by given rules and gives a result as told, or adds some and fails at a given
span. -/
def Adds (R : CallRules env) (span : Span) (s : CompilerState) (step : Compile α) (post : Nat → α → Prop) : Prop :=
  R.base ≤ s.nextTemporary → match (step env).run s with
    | (.ok a, s') => ∃ e, Emission.Follows R.toDiscipline { nextTemporary := s.nextTemporary } e ∧ s' = absorb e s ∧
        post e.nextTemporary a
    | (.error error, s') => error.span = span ∧ error.fault.isLink = false ∧ error.fault.isStaticWrite = false ∧
        ∃ e, s' = absorb e s

namespace Adds

variable {P : Nat → α → Prop} {Q : Nat → β → Prop} {step : Compile α} {a : α} {f : α → Compile β}

theorem pure (h : P s.nextTemporary a) : Adds R span s (Pure.pure a) P := fun _ =>
  ⟨{ nextTemporary := s.nextTemporary }, .refl _, rfl, h⟩

theorem fail (hlink : fault.isLink = false) (hwrite : fault.isStaticWrite = false) :
    Adds R span s (Compile.fail fault span) P := fun _ =>
  ⟨rfl, hlink, hwrite, { nextTemporary := s.nextTemporary }, rfl⟩

theorem bind (h : Adds R span s step P)
    (hf : ∀ a s', s.nextTemporary ≤ s'.nextTemporary → P s'.nextTemporary a → Adds R span s' (f a) Q) :
    Adds R span s (step >>= f) Q := by
  intro hbase
  have hfirst := h hbase
  rw [run_bind]
  cases hran : (step env).run s with
  | mk outcome s' =>
    rw [hran] at hfirst
    cases outcome with
    | error error => exact hfirst
    | ok a =>
      obtain ⟨e, hfollows, rfl, ha⟩ := hfirst
      have hsecond := hf a (absorb e s) hfollows.next_le ha (hbase.trans hfollows.next_le)
      dsimp only at hsecond ⊢
      split at hsecond
      next hrun =>
        obtain ⟨e', hfollows', rfl, hb⟩ := hsecond
        rw [hrun]
        exact ⟨e.join e', hfollows.join hfollows', (absorb_join e e' s).symm, hb⟩
      next hrun =>
        obtain ⟨hspan, hlink, hwrite, e', rfl⟩ := hsecond
        rw [hrun]
        exact ⟨hspan, hlink, hwrite, e.join e', (absorb_join e e' s).symm⟩

theorem failBind (hlink : fault.isLink = false)
    (hwrite : fault.isStaticWrite = false) : Adds R span s (Compile.fail fault span >>= f) Q :=
  bind (P := fun _ _ => False) (.fail hlink hwrite) fun _ _ _ h => h.elim

theorem readBind {f : Environment → Compile β} (h : Adds R span s (f env) Q) : Adds R span s (read >>= f) Q := h

theorem getBind {f : CompilerState → Compile β} (h : Adds R span s (f s) Q) : Adds R span s (get >>= f) Q := h

theorem framesBind {f : Frames → Compile β} (h : Adds R span s (f s.frames) Q) : Adds R span s (frames >>= f) Q := h

theorem emitting {op : Emit α} (h : Emit.Obeys R.toDiscipline s.nextTemporary op P) :
    Adds R span s (emitting op) P := fun hbase => by
  obtain ⟨hfollows, ha⟩ := h { nextTemporary := s.nextTemporary } hbase .refl
  exact ⟨_, hfollows, rfl, ha⟩

theorem emit {i : Instr} (h : R.write s.nextTemporary [] i) : Adds R span s (Compile.emit i) fun _ _ => True := fun _ =>
  ⟨⟨s.nextTemporary, #[i], #[]⟩, ⟨.refl, fun _ => id, [i], rfl, by simpa using h⟩, rfl, trivial⟩

theorem imp {P' : Nat → α → Prop} (h : Adds R span s step P) (hP : ∀ n a, P n a → P' n a) : Adds R span s step P' := by
  intro hbase
  have hadds := h hbase
  split
  next hrun =>
    rw [hrun] at hadds
    obtain ⟨e, hfollows, hs', ha⟩ := hadds
    exact ⟨e, hfollows, hs', hP _ _ ha⟩
  next hrun => rwa [hrun] at hadds

theorem extends_of_yields {C : Cell → Prop} (h : Adds (.within env C s.nextTemporary) span s step P)
    (hstep : step.Yields env s a s') :
    ∃ e, Emission.Extends C { nextTemporary := s.nextTemporary } e ∧ s' = absorb e s ∧ P e.nextTemporary a := by
  have hadds := h .refl
  rw [show (step env).run s = (.ok a, s') from hstep] at hadds
  obtain ⟨e, hfollows, hs', ha⟩ := hadds
  exact ⟨e, Emission.Follows.extends hfollows, hs', ha⟩

end Adds

variable {signature : Signature} {name : String}

theorem yields_matchCall {matched : List Argument} (h : (matchCall signature args span).Yields env s matched s') :
    signature.matchArgs args = .ok matched ∧ s = s' := by
  rw [matchCall] at h
  split at h
  next heq =>
    obtain ⟨rfl, rfl⟩ := yields_pure.mp h
    exact ⟨heq, rfl⟩
  next => exact absurd h not_yields_fail

theorem adds_matchCall {P : Value → Prop} (hargs : ∀ v ∈ args, P v)
    (hdefault : ∀ p ∈ signature.params, ∀ v, p.default? = some v → P v) :
    Adds R span s (matchCall signature args span) fun _ matched => signature.matchArgs args = .ok matched ∧
      ∀ argument ∈ matched, ∀ v ∈ argument.values, P v := by
  unfold matchCall
  split
  next matched hmatched =>
    exact .pure ⟨hmatched, Signature.forall_of_distribute hmatched hargs hdefault⟩
  next => exact .fail rfl rfl

theorem adds_predicate (hname : env.Tests name) : Adds R span s (predicate name) R.value := by
  refine .emitting (.bind .freshCell fun target n _ htarget => .bind (.instr (R.store htarget fun c hc => ?_)) ?_)
  · exact mem_singleton.mp hc ▸ R.tests hname
  · exact fun _ _ hle _ => .pure fun _ hle' => R.bool.mpr (R.place_mono (hle.trans hle') htarget)

theorem adds_printValues (hvalues : ∀ v ∈ values, R.value s.nextTemporary v) :
    Adds R span s (printValues values span) fun _ _ => True := by
  refine .bind (.emitting (Value.obeys_displayAll hvalues [])) fun outcome s' _ _ => ?_
  split
  · exact .readBind (.emit R.tells)
  · exact .fail rfl rfl

theorem adds_describeVariable : Adds R span s (describeVariable name span) fun _ _ => True := by
  refine .readBind (.framesBind ?_)
  split
  · exact .fail rfl rfl
  · exact .pure trivial

theorem adds_convert {op : Emit (Datum Int32 Cell)} {make : Datum Int32 Cell → Value}
    (hmake : ∀ n d, d.Places (R.place n) → R.value n (make d))
    (hop : Emit.Obeys R.toDiscipline s.nextTemporary op fun n d => d.Places (R.place n)) :
    Adds R span s (do return make (← emitting op)) R.value :=
  .bind (.emitting hop) fun _ _ _ hd => .pure (hmake _ _ hd)

theorem adds_runBuiltin (hraw : builtin = .run → R.raw)
    (hargs : ∀ v ∈ args, R.value s.nextTemporary v) : Adds R span s (runBuiltin builtin args span) R.value := by
  have head : ∀ {v rest}, args = v :: rest → R.value s.nextTemporary v := fun heq => hargs _ (heq ▸ mem_cons_self)
  unfold runBuiltin
  split
  · exact .bind (adds_printValues hargs) fun _ _ _ _ => .pure R.null
  · cases hrange : rangeItems (args.getD 0 .null) (args.getD 1 .null) (args.getD 2 .null) with
    | error fault => exact .fail (fault_of_rangeItems hrange).1 (fault_of_rangeItems hrange).2
    | ok range =>
      obtain ⟨items, rfl, hitems⟩ := known_of_rangeItems hrange
      refine .pure (R.array.mpr fun item hitem => ?_)
      obtain ⟨n, rfl⟩ := hitems item hitem
      exact R.number.mpr trivial
  · exact adds_convert (fun _ _ => R.fixed.mpr) (obeys_toFixed (R.number.mp (head rfl)))
  · exact .pure (head rfl)
  · exact .fail rfl rfl
  · exact adds_convert (fun _ _ => R.number.mpr) (obeys_toNumber (R.fixed.mp (head rfl)))
  · exact .pure (head rfl)
  · exact .pure (R.number.mpr trivial)
  next cell temporary rest =>
    have hcell : R.place s.nextTemporary cell temporary := R.bool.mp (head rfl)
    exact .pure (R.number.mpr hcell)
  · exact .fail rfl rfl
  · exact .pure (R.array.mpr hargs)
  · exact .pure (R.number.mpr trivial)
  · exact .pure (R.number.mpr trivial)
  · exact .fail rfl rfl
  · exact .fail rfl rfl
  · refine .readBind ?_
    split
    · exact .failBind rfl rfl
    next hblock => exact .bind (.emit (R.places (by simpa using hblock))) fun _ _ _ _ => .pure R.null
  · exact .bind (.emit (R.runs (hraw rfl))) fun _ _ _ _ => .pure R.null
  · exact .bind adds_describeVariable fun _ _ _ _ => .pure R.text
  · exact adds_predicate (.inl rfl)
  · exact adds_predicate (.inr (.inl rfl))
  · refine .readBind ?_
    split
    · exact .failBind rfl rfl
    next hfeature => exact adds_predicate (.inr (.inr ⟨_, by simpa using hfeature, rfl⟩))

theorem adds_callBuiltin (hraw : builtin = .run → R.raw)
    (hargs : ∀ v ∈ args, R.value s.nextTemporary v) : Adds R span s (callBuiltin builtin args span) R.value := by
  refine .bind (adds_matchCall hargs fun p hp v hv => ?_) fun matched s' hle hmatched => ?_
  · obtain rfl | ⟨n, rfl⟩ := Builtin.known_default hp hv
    · exact R.null
    · exact R.number.mpr trivial
  · refine adds_runBuiltin hraw fun v hv => ?_
    obtain ⟨argument, hargument, hv⟩ := mem_flatMap.mp hv
    exact R.value_mono hle (hmatched.2 argument hargument v hv)

theorem adds_construct {id : Nat} (hargs : ∀ v ∈ args, R.value s.nextTemporary v)
    (hmake : ∀ n declared fields, s.structs[id]? = some declared →
      (∀ x ∈ fields, x.1 ∈ declared.fields.map (·.1) ∧ R.value n x.2) → R.value n (.struct id declared.name fields)) :
    Adds R span s (construct id args span) R.value := by
  refine .getBind ?_
  split
  · exact .fail rfl rfl
  next declared hdeclared =>
    refine .bind (adds_matchCall hargs fun p hp v hv => ?_) fun matched s' hle hmatched => .pure ?_
    · obtain ⟨field, -, rfl⟩ := mem_map.mp hp
      cases hv
    · refine hmake _ _ _ hdeclared fun x hx => ?_
      have hzip := of_mem_zip (Ordered.of_mem_ofPairs hx)
      refine ⟨hzip.1, ?_⟩
      obtain ⟨argument, hargument, heq⟩ := mem_map.mp hzip.2
      rw [← heq]
      cases hvalues : argument.values with
      | nil => exact R.null
      | cons v rest =>
        exact R.value_mono hle (hmatched.2 argument hargument v (hvalues ▸ mem_cons_self))

theorem adds_blockId? {base : Expr} {member : String} :
    Adds R span s (blockId? base member span) fun _ block => ∀ v, block = some v → ∃ text, v = .string (.static text) := by
  unfold blockId?
  split
  · refine .framesBind ?_
    split
    · exact .pure nofun
    · refine .readBind ?_
      split
      · exact .failBind rfl rfl
      · exact .pure fun _ h => ⟨_, (Option.some.inj h).symm⟩
  · exact .pure nofun

theorem adds_indexWord {value : Value} : Adds R span s (indexWord value span) fun _ _ => True := by
  unfold indexWord
  split
  · exact .pure trivial
  · exact .fail rfl rfl
  · exact .fail rfl rfl

end Compile

end Datapack
