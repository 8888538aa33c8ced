import Datapack.Proofs.Builtin

/-!
The types of arguments. An argument that is given in a call is of a type that its parameter accepts. A default is of the
type of its expression, which nothing compares with the type of the parameter.
-/

namespace Datapack

open List

variable {v : Value} {p : Parameter}

theorem Kind.eq_of_accepts {asked kind : Kind} (hasked : asked.isSimple = true) (h : asked.accepts kind = true) :
    kind = asked := by
  cases asked with
  | number | fixed | bool | string => exact (beq_iff_eq.mp h).symm
  | _ => cases hasked

theorem Value.atSlot?_kind (h : v.kind.isSimple = true) (slot : Slot) : v.kind.atSlot? slot = some (v.placed slot) := by
  cases v with
  | number | fixed | bool | string => rfl
  | _ => cases h

namespace Parameter

theorem fits_of_check (h : p.check v = .ok ()) : p.fits v = true := by
  rw [check] at h
  split at h
  next hfits => exact hfits
  next => cases h

theorem kind_of_check (hp : p.kind.isSimple = true) (h : p.check v = .ok ()) : v.kind = p.kind :=
  Kind.eq_of_accepts hp (fits_of_check h)

/-- Whether a value is as a parameter declares it: of a type that it accepts, and stored by a call where a body that was
compiled against the type of the parameter looks for it. -/
structure Suits (p : Parameter) (v : Value) : Prop where
  accepts : p.kind.accepts v.kind = true
  placed : p.kind.isSimple = true → ∀ slot, p.kind.atSlot? slot = some (v.placed slot)

theorem suits_of_check (h : p.check v = .ok ()) : p.Suits v := by
  refine ⟨fits_of_check h, fun hp slot => ?_⟩
  have hkind := kind_of_check hp h
  exact hkind ▸ Value.atSlot?_kind (hkind ▸ hp) slot

end Parameter

namespace Compile

variable {env : Environment} {s s' : CompilerState} {span : Span} {args : List Value}

theorem suits_of_matchArgs {signature : Signature} {matched : List Argument}
    (h : signature.matchArgs args = .ok matched) {i : Nat} {argument : Argument} (hp : signature.params[i]? = some p)
    (hargument : matched[i]? = some argument) (hv : v ∈ argument.values) :
    v ∈ args ∧ p.Suits v ∨ argument.values = [v] ∧ p.default? = some v := by
  obtain ⟨supplies, hlength, -, rfl, hgets⟩ := Signature.exists_supplies h
  have hi : i < supplies.length := hlength ▸ (List.getElem?_eq_some_iff.mp hp).1
  obtain ⟨⟨-, hchecked, -, heq | ⟨-, w, hdefault, heq⟩⟩, -⟩ :=
    hgets i p _ argument hp (getElem?_eq_getElem hi) hargument
  · rw [heq] at hv
    exact .inl ⟨mem_flatten_of_mem (getElem_mem hi) hv, Parameter.suits_of_check (hchecked v hv)⟩
  · obtain rfl := mem_singleton.mp (heq ▸ hv)
    exact .inr ⟨heq, hdefault⟩

abbrev storeArguments (matched : List Argument) (slots : List Slot) (span : Span) : Compile Unit :=
  (matched.zip slots).forM fun (argument, slot) =>
    argument.values.forM fun value => discard (tryEmitting span (value.store slot))

theorem of_callFunction {expand : Expansion} {id : Nat} {receiver : Option Receiver} {args : List Value} {span : Span}
    {env : Environment} {s s' : CompilerState} (h : (callFunction expand id receiver args span).Yields env s v s') :
    ∃ f matched, s.functions[id]? = some f ∧ f.signature.matchArgs args = .ok matched ∧
      (f.form = .inline → (expand f receiver matched span).Yields env s v s') ∧
      ∀ routine slots result, f.form = .plain routine slots result → ∃ s1 rest,
        (storeArguments matched slots span).Yields env s () s1 ∧
          s'.draft = s1.draft.appendAll
            ((.call routine :: rest).map fun i => { Node.leaf i with location := some s1.location }) := by
  obtain ⟨_, _, hget, h⟩ := yields_bind.mp h
  obtain ⟨rfl, rfl⟩ := yields_get.mp hget
  split at h
  · exact absurd h not_yields_fail
  next f hf =>
    obtain ⟨matched, _, hmatch, h⟩ := yields_bind.mp h
    obtain ⟨hmatched, rfl⟩ := yields_matchCall hmatch
    refine ⟨f, matched, hf, hmatched, fun hform => ?_, fun routine slots result hform => ?_⟩
    · rwa [hform] at h
    rw [hform] at h
    obtain ⟨_, s1, hstores, h⟩ := yields_bind.mp h
    obtain ⟨_, s2, hcall, h⟩ := yields_bind.mp h
    cases yields_emit.mp hcall
    split at h
    · obtain ⟨e, -, rfl⟩ := yields_tryEmitting.mp h
      exact ⟨s1, e.instrs.toList, hstores, rfl⟩
    · obtain ⟨-, rfl⟩ := yields_pure.mp h
      exact ⟨s1, [], hstores, rfl⟩

/-- In a call of a declared function, plain or expanded, and of a method, what each parameter gets suits it unless it is
the default of the parameter. These are the arguments that a body is expanded with, and that a plain call stores at the
slots of the parameters. What a struct gets for its fields, which have no defaults, is always of their types. -/
theorem calls_suit (expand : Expansion) (id : Nat) (args : List Value) (span : Span) (env : Environment)
    (s s' : CompilerState) (v : Value) :
    (∀ receiver, (callFunction expand id receiver args span).Yields env s v s' →
      ∃ f matched, s.functions[id]? = some f ∧ f.signature.matchArgs args = .ok matched ∧
        (f.form = .inline → (expand f receiver matched span).Yields env s v s') ∧
        (∀ routine slots result, f.form = .plain routine slots result → ∃ s1 rest,
          (storeArguments matched slots span).Yields env s () s1 ∧
            s'.draft = s1.draft.appendAll
              ((.call routine :: rest).map fun i => { Node.leaf i with location := some s1.location })) ∧
        ∀ (i : Nat) (p : Parameter) argument value, f.signature.params[i]? = some p → matched[i]? = some argument →
          value ∈ argument.values →
            value ∈ args ∧ p.Suits value ∨ argument.values = [value] ∧ p.default? = some value) ∧
    ((construct id args span).Yields env s v s' →
      ∃ declared, s.structs[id]? = some declared ∧
        v = .struct id declared.name (Ordered.ofPairs ((declared.fields.map (·.1)).zip args)) ∧
        args.length = declared.fields.length ∧ ∀ (i : Nat) field kind value, declared.fields[i]? = some (field, kind) →
          args[i]? = some value → kind.accepts value.kind = true) := by
  constructor
  · intro receiver h
    obtain ⟨f, matched, hf, hmatched, hinline, hplain⟩ := of_callFunction h
    exact ⟨f, matched, hf, hmatched, hinline, hplain, fun _ _ _ _ => suits_of_matchArgs hmatched⟩
  · intro h
    obtain ⟨t, _, hget, h⟩ := yields_bind.mp h
    obtain ⟨rfl, rfl⟩ := yields_get.mp hget
    split at h
    · exact absurd h not_yields_fail
    next declared hdeclared =>
      obtain ⟨matched, _, hmatch, h⟩ := yields_bind.mp h
      obtain ⟨hmatched, rfl⟩ := yields_matchCall hmatch
      have hparams : ∀ p ∈ declared.fields.map (fun field => ({ name := field.1, kind := field.2 } : Parameter)),
          p.arity = .one ∧ p.default? = none := by
        rintro _ hp
        obtain ⟨x, -, rfl⟩ := List.mem_map.mp hp
        exact ⟨rfl, rfl⟩
      obtain ⟨values, rfl, hlength, hgiven⟩ := Signature.exists_of_distribute (fun p hp => (hparams p hp).1) hmatched
      obtain rfl := hgiven fun p hp => (hparams p hp).2
      refine ⟨declared, hdeclared, ?_, by simpa using hlength, fun i field kind value hfield hvalue => ?_⟩
      · have hvalues : (args.map Argument.one).map (fun argument => argument.values.headD .null) = args := by
          rw [List.map_map]
          exact List.map_id args
        rw [← (yields_pure.mp h).1, hvalues]
      · obtain ⟨-, hsuits⟩ | ⟨-, hdefault⟩ := suits_of_matchArgs (p := { name := field, kind }) hmatched
          (by rw [List.getElem?_map, hfield]; rfl) (by rw [List.getElem?_map, hvalue]; rfl) List.mem_cons_self
        · exact hsuits.accepts
        · cases hdefault

def mistyped (span : Span) : Syntax.Param := ⟨"n", ⟨"Number", span⟩, some (.string "x" span), span⟩

/-- A number that is declared with a text as its default gets the text, which a call puts at a path, where the body
looks into a cell. -/
theorem gets_mistyped :
    ∃ p, (parameterOf (expandWithin 0) false (mistyped ⟨0, 0⟩)).Yields ⟨⟨"", ""⟩, {}, {}, []⟩ .start p .start ∧
      Signature.matchArgs ⟨"f", [p], .null, false⟩ [] = .ok [.one (.string (.static "x"))] ∧
      ¬ p.Suits (.string (.static "x")) ∧
      ∀ slot, p.kind.atSlot? slot = some (.number (.dynamic slot.cell slot.temporary)) ∧
        (Value.string (.static "x")).placed slot = .string (.dynamic slot.path slot.temporary) := by
  refine ⟨⟨"n", .number, .one, .any, some (.string (.static "x"))⟩, rfl, rfl, fun h => ?_, fun _ => ⟨rfl, rfl⟩⟩
  exact nomatch h.accepts

end Compile

end Datapack
