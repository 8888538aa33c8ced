import Datapack.Signature
import Mathlib.Data.List.Basic

/-!
Arguments and parameters. What the parameters of a signature get, one after the other, is the list of arguments: none is
lost, given twice or moved, and only a parameter that is reached when no argument is left gets its default.
-/

namespace Datapack

open List

/-- Whether a parameter can get an argument, made of given ones among those of a call: all of them, each of which passes
the check of the parameter, or the default if there are none. -/
structure Parameter.Gets (p : Parameter) (supplied : List Value) (argument : Argument) : Prop where
  form : (∃ v, argument = .one v) ∧ p.arity = .one ∨ (∃ vs, argument = .many vs) ∧ p.arity ≠ .one
  checked : ∀ v ∈ supplied, p.check v = .ok ()
  filled : p.arity = .oneOrMore → argument.values ≠ []
  source : argument.values = supplied ∨ supplied = [] ∧ ∃ v, p.default? = some v ∧ argument.values = [v]

def Parameter.fault? (p : Parameter) : Option Value → Option ArgumentError
  | some v =>
    match p.check v with
    | .ok _ => none
    | .error e => some e
  | none => if p.default?.isSome then none else some (.missing p.name)

def ArgumentError.param? : ArgumentError → Option String
  | .wrongType param _ _ | .mustBeStatic param | .mustNotBeStatic param | .missing param | .missingVariadic param
  | .variadicMismatch param _ _ => some param
  | .tooMany _ _ => none

variable {p : Parameter} {params : List Parameter} {args taken rest : List Value} {argument : Argument}
  {matched : List Argument} {total found : Nat} {e : ArgumentError} {v : Value}

namespace Parameter

theorem param?_of_fault? {given : Option Value} (h : p.fault? given = some e) : e.param? = some p.name := by
  cases given with
  | some v =>
    unfold fault? check checkStaticness at h
    grind [ArgumentError.param?]
  | none =>
    rw [fault?] at h
    split at h
    · cases h
    · exact Option.some.inj h ▸ rfl

theorem fault?_eq_none : p.fault? (some v) = none ↔ p.check v = .ok () := by
  rw [fault?]
  cases p.check v <;> simp

theorem checkStaticness_of_mem (h : p.checkAllStaticness taken = .ok ()) (hv : v ∈ taken) :
    p.checkStaticness v = .ok () := by
  induction taken with
  | nil => cases hv
  | cons first rest ih =>
    rw [checkAllStaticness] at h
    cases hfirst : p.checkStaticness first with
    | error e =>
      rw [hfirst] at h
      cases h
    | ok =>
      rw [hfirst] at h
      obtain rfl | hv := mem_cons.mp hv
      · exact hfirst
      · exact ih h hv

theorem gets_gather (harity : p.arity ≠ .one) (hstatic : p.checkAllStaticness taken = .ok ())
    (hfits : ∀ v ∈ taken, p.fits v = true) (h : p.gather taken rest = .ok argument) :
    p.Gets taken argument ∧ (argument.values ≠ taken → taken = [] ∧ rest = []) := by
  have hchecked : ∀ v ∈ taken, p.check v = .ok () := by
    intro v hv
    rw [check, hfits v hv]
    exact checkStaticness_of_mem hstatic hv
  unfold gather at h
  split at h
  next hempty =>
    obtain ⟨hempty, -⟩ := Bool.and_eq_true_iff.mp hempty
    cases List.isEmpty_iff.mp hempty
    split at h
    · cases h
    next v hdefault =>
      cases h
      refine ⟨?_, fun _ => ⟨rfl, rfl⟩⟩
      constructor
      · exact .inr ⟨⟨_, rfl⟩, harity⟩
      · exact hchecked
      · exact fun _ => cons_ne_nil _ _
      · exact .inr ⟨rfl, v, hdefault, rfl⟩
    · cases h
  next hsome =>
    cases h
    refine ⟨?_, fun hne => absurd rfl hne⟩
    constructor
    · exact .inr ⟨⟨_, rfl⟩, harity⟩
    · exact hchecked
    · intro hmore hnil
      refine hsome ?_
      simp [show taken = [] from hnil, hmore]
    · exact .inl rfl

end Parameter

namespace Signature

theorem bind_eq_ok {ε α β : Type} {x : Except ε α} {f : α → Except ε β} {b : β} :
    x >>= f = .ok b ↔ ∃ a, x = .ok a ∧ f a = .ok b := by
  cases x with
  | ok a => exact ⟨fun h => ⟨a, rfl, h⟩, fun ⟨_, ha, h⟩ => Except.ok.inj ha ▸ h⟩
  | error e => exact ⟨nofun, fun ⟨_, ha, _⟩ => nomatch ha⟩

theorem distribute_cons (h : distribute total found (p :: params) args = .ok matched) :
    ∃ supplied argument rest later, matched = argument :: later ∧ args = supplied ++ rest ∧
      distribute total found params rest = .ok later ∧ p.Gets supplied argument ∧
      (argument.values ≠ supplied → args = []) := by
  rw [distribute.eq_def] at h
  dsimp only at h
  split at h
  next harity =>
    split at h
    next v rest =>
      obtain ⟨_, hcheck, h⟩ := bind_eq_ok.mp h
      obtain ⟨later, hlater, h⟩ := bind_eq_ok.mp h
      refine ⟨[v], .one v, rest, later, (Except.ok.inj h).symm, rfl, hlater, ?_, fun hne => absurd rfl hne⟩
      exact ⟨.inl ⟨⟨v, rfl⟩, harity⟩, by simpa using hcheck, fun _ => cons_ne_nil _ _, .inl rfl⟩
    next v hdefault =>
      obtain ⟨later, hlater, h⟩ := bind_eq_ok.mp h
      refine ⟨[], .one v, [], later, (Except.ok.inj h).symm, rfl, hlater, ?_, fun _ => rfl⟩
      exact ⟨.inl ⟨⟨v, rfl⟩, harity⟩, nofun, fun _ => cons_ne_nil _ _, .inr ⟨rfl, v, hdefault, rfl⟩⟩
    · cases h
  next harity =>
    split at h
    · cases h
    obtain ⟨_, hstatic, h⟩ := bind_eq_ok.mp h
    obtain ⟨argument, hgather, h⟩ := bind_eq_ok.mp h
    obtain ⟨later, hlater, h⟩ := bind_eq_ok.mp h
    have hfits : ∀ v ∈ args.takeWhile p.fits, p.fits v = true := all_eq_true.mp all_takeWhile
    obtain ⟨hgets, hnone⟩ := Parameter.gets_gather harity hstatic hfits hgather
    have hsplit := takeWhile_append_dropWhile (p := p.fits) (l := args)
    refine ⟨_, argument, _, later, (Except.ok.inj h).symm, hsplit.symm, hlater, hgets, fun hne => ?_⟩
    obtain ⟨htaken, hrest⟩ := hnone hne
    rw [← hsplit, htaken, hrest, append_nil]

theorem exists_supplies (h : distribute total found params args = .ok matched) :
    ∃ supplies : List (List Value), supplies.length = params.length ∧ matched.length = params.length ∧
      supplies.flatten = args ∧ ∀ (i : Nat) (p : Parameter) supplied argument, params[i]? = some p →
        supplies[i]? = some supplied → matched[i]? = some argument →
          p.Gets supplied argument ∧ (argument.values ≠ supplied → (supplies.take i).flatten = args) := by
  induction params generalizing args matched with
  | nil =>
    cases args with
    | nil => exact ⟨[], rfl, Except.ok.inj h ▸ rfl, rfl, nofun⟩
    | cons => cases h
  | cons p params ih =>
    obtain ⟨supplied, argument, rest, later, rfl, rfl, hlater, hgets, hnone⟩ := distribute_cons h
    obtain ⟨supplies, hlength, hlength', rfl, hserved⟩ := ih hlater
    refine ⟨supplied :: supplies, congrArg Nat.succ hlength, congrArg Nat.succ hlength', rfl, ?_⟩
    rintro (_ | i) q given got hq hgiven hgot
    · cases hq
      cases hgiven
      cases hgot
      exact ⟨hgets, fun hne => (hnone hne).symm⟩
    · obtain ⟨hgets, hnone⟩ := hserved i q given got hq hgiven hgot
      exact ⟨hgets, fun hne => congrArg (supplied ++ ·) (hnone hne)⟩

theorem of_distribute_one (hp : p.arity = .one) (h : distribute total found (p :: params) args = .ok matched) :
    ∃ v rest later, matched = .one v :: later ∧ distribute total found params rest = .ok later ∧
      (args = v :: rest ∧ p.check v = .ok () ∨ args = [] ∧ rest = [] ∧ p.default? = some v) := by
  obtain ⟨supplied, argument, rest, later, rfl, rfl, hlater, hgets, hnone⟩ := distribute_cons h
  obtain ⟨⟨v, rfl⟩, -⟩ | ⟨-, hmany⟩ := hgets.form
  swap
  · exact absurd hp hmany
  refine ⟨v, rest, later, rfl, hlater, ?_⟩
  obtain heq | ⟨rfl, w, hdefault, heq⟩ := hgets.source
  · obtain rfl : [v] = supplied := heq
    exact .inl ⟨rfl, hgets.checked v (.head _)⟩
  · have hrest := hnone (heq ▸ cons_ne_nil _ _)
    exact .inr ⟨hrest, hrest, (List.cons.inj heq).1 ▸ hdefault⟩

theorem exists_of_distribute (hparams : ∀ p ∈ params, p.arity = .one)
    (h : distribute total found params args = .ok matched) :
    ∃ values : List Value, matched = values.map .one ∧ values.length = params.length ∧
      ((∀ p ∈ params, p.default? = none) → args = values) := by
  induction params generalizing args matched with
  | nil =>
    cases args with
    | nil => exact ⟨[], (Except.ok.inj h).symm, rfl, fun _ => rfl⟩
    | cons _ _ => cases h
  | cons p params ih =>
    obtain ⟨v, rest, later, rfl, hlater, hfrom⟩ := of_distribute_one (hparams p (.head _)) h
    obtain ⟨values, rfl, hlength, hgiven⟩ := ih (fun q hq => hparams q (.tail _ hq)) hlater
    refine ⟨v :: values, rfl, congrArg Nat.succ hlength, fun hnone => ?_⟩
    obtain ⟨hfirst, hnone⟩ := forall_mem_cons.mp hnone
    obtain ⟨rfl, -⟩ | ⟨-, -, hdefault⟩ := hfrom
    · rw [hgiven hnone]
    · cases hfirst.symm.trans hdefault

theorem forall_of_distribute {P : Value → Prop} (h : distribute total found params args = .ok matched)
    (hargs : ∀ v ∈ args, P v) (hdefault : ∀ p ∈ params, ∀ v, p.default? = some v → P v) :
    ∀ argument ∈ matched, ∀ v ∈ argument.values, P v := by
  induction params generalizing args matched with
  | nil =>
    cases args with
    | nil => exact Except.ok.inj h ▸ nofun
    | cons => cases h
  | cons p params ih =>
    obtain ⟨supplied, first, rest, later, rfl, rfl, hlater, hgets, -⟩ := distribute_cons h
    obtain ⟨hfirst, hdefault⟩ := forall_mem_cons.mp hdefault
    obtain ⟨hsupplied, hrest⟩ := forall_mem_append.mp hargs
    refine forall_mem_cons.mpr ⟨fun v hv => ?_, ih hlater hrest hdefault⟩
    obtain heq | ⟨-, w, hw, heq⟩ := hgets.source
    · exact hsupplied v (heq ▸ hv)
    · obtain rfl := mem_singleton.mp (heq ▸ hv)
      exact hfirst v hw

theorem distribute_single (total found : Nat) (params : List Parameter) (args : List Value) (hp : p.arity = .one) :
    (∀ e, p.fault? args.head? = some e → distribute total found (p :: params) args = .error e) ∧
    (p.fault? args.head? = none → ∃ argument,
      distribute total found (p :: params) args = (argument :: ·) <$> distribute total found params args.tail) := by
  have hserve : ∀ (outcome : Except ArgumentError (List Argument)) (v : Value),
      (do return .one v :: (← outcome)) = (Argument.one v :: ·) <$> outcome := by
    intro outcome v
    cases outcome <;> rfl
  rw [distribute.eq_def]
  simp only [hp, if_true]
  cases args with
  | nil =>
    cases hdefault : p.default? with
    | none => simp [Parameter.fault?, hdefault]
    | some v => exact ⟨by simp [Parameter.fault?, hdefault], fun _ => ⟨.one v, hserve _ v⟩⟩
  | cons v rest =>
    dsimp only [head?_cons, tail_cons]
    cases hcheck : p.check v with
    | error e => simp [Parameter.fault?, hcheck, bind, Except.bind]
    | ok => exact ⟨by simp [Parameter.fault?, hcheck], fun _ => ⟨.one v, hserve _ v⟩⟩

/-- How arguments are matched with parameters that take one each: up to the first parameter that is not served, and if
there is none, unless there are more arguments than parameters. -/
theorem distribute_singles (total found : Nat) (hparams : ∀ p ∈ params, p.arity = .one) (args : List Value) :
    (∃ (i : Nat) (p : Parameter) (e : ArgumentError), params[i]? = some p ∧ p.fault? args[i]? = some e ∧
      (∀ j < i, ∀ q : Parameter, params[j]? = some q → q.fault? args[j]? = none) ∧
      distribute total found params args = .error e) ∨
    (∀ (i : Nat) (p : Parameter), params[i]? = some p → p.fault? args[i]? = none) ∧
      (args.length ≤ params.length ∧ (∃ out, distribute total found params args = .ok out) ∨
        params.length < args.length ∧ distribute total found params args = .error (.tooMany total found)) := by
  induction params generalizing args with
  | nil =>
    refine .inr ⟨nofun, ?_⟩
    cases args with
    | nil => exact .inl ⟨.refl, [], rfl⟩
    | cons => exact .inr ⟨Nat.succ_pos _, rfl⟩
  | cons p params ih =>
    obtain ⟨hbad, hgood⟩ := distribute_single total found params args (hparams p (.head _))
    have hhead : args[0]? = args.head? := (head?_eq_getElem? ..).symm
    cases hfault : p.fault? args.head? with
    | some e => exact .inl ⟨0, p, e, rfl, hhead ▸ hfault, fun j hj => absurd hj (Nat.not_lt_zero j), hbad e hfault⟩
    | none =>
      obtain ⟨argument, heq⟩ := hgood hfault
      have htail : ∀ i, args.tail[i]? = args[i + 1]? := fun i => getElem?_tail ..
      rw [heq]
      have hparams' : ∀ q ∈ params, q.arity = .one := fun q hq => hparams q (.tail _ hq)
      obtain ⟨i, q, e, hq, hqfault, hbefore, herror⟩ | ⟨hall, hrest⟩ := ih hparams' args.tail
      · refine .inl ⟨i + 1, q, e, hq, htail i ▸ hqfault, ?_, by rw [herror]; rfl⟩
        rintro (_ | j) hj r hr
        · exact Option.some.inj hr ▸ hhead ▸ hfault
        · exact htail j ▸ hbefore j (Nat.lt_of_succ_lt_succ hj) r hr
      · refine .inr ⟨?_, ?_⟩
        · rintro (_ | i) r hr
          · exact Option.some.inj hr ▸ hhead ▸ hfault
          · exact htail i ▸ hall i r hr
        · rw [length_tail] at hrest
          rw [length_cons]
          obtain ⟨hle, out, hout⟩ | ⟨hlt, herror⟩ := hrest
          · exact .inl ⟨by omega, argument :: out, by rw [hout]; rfl⟩
          · exact .inr ⟨by omega, by rw [herror]; rfl⟩

/-- Matching loses, repeats and moves no argument, and gives defaults only where no argument is left. If all parameters
take one argument each, it succeeds exactly if each of them is served and no argument is left, and otherwise names the
first parameter that is not served, or the number of parameters and of arguments. -/
theorem matchArgs_serves (s : Signature) (args : List Value) :
    (∀ out, s.matchArgs args = .ok out →
      ∃ supplies : List (List Value), supplies.length = s.params.length ∧ out.length = s.params.length ∧
        supplies.flatten = args ∧ ∀ (i : Nat) (p : Parameter) supplied argument, s.params[i]? = some p →
          supplies[i]? = some supplied → out[i]? = some argument →
            p.Gets supplied argument ∧ (argument.values ≠ supplied → (supplies.take i).flatten = args)) ∧
    ((∀ p ∈ s.params, p.arity = .one) →
      ((∃ out, s.matchArgs args = .ok out) ↔ args.length ≤ s.params.length ∧
        (∀ (i : Nat) (p : Parameter) v, s.params[i]? = some p → args[i]? = some v → p.check v = .ok ()) ∧
        ∀ (i : Nat) (p : Parameter), s.params[i]? = some p → args.length ≤ i → p.default?.isSome = true) ∧
      ∀ e, s.matchArgs args = .error e →
        (∃ (i : Nat) (p : Parameter), s.params[i]? = some p ∧ p.fault? args[i]? = some e ∧ e.param? = some p.name ∧
          ∀ j < i, ∀ q : Parameter, s.params[j]? = some q → q.fault? args[j]? = none) ∨
        (∀ (i : Nat) (p : Parameter), s.params[i]? = some p → p.fault? args[i]? = none) ∧
          e = .tooMany s.params.length args.length) := by
  refine ⟨fun out h => exists_supplies h, fun hparams => ?_⟩
  have hserved : (∀ (i : Nat) (p : Parameter), s.params[i]? = some p → p.fault? args[i]? = none) ↔
      (∀ (i : Nat) (p : Parameter) v, s.params[i]? = some p → args[i]? = some v → p.check v = .ok ()) ∧
        ∀ (i : Nat) (p : Parameter), s.params[i]? = some p → args.length ≤ i → p.default?.isSome = true := by
    refine ⟨fun h => ⟨fun i p v hp hv => ?_, fun i p hp hi => ?_⟩, fun ⟨hchecked, hdefault⟩ i p hp => ?_⟩
    · exact Parameter.fault?_eq_none.mp (hv ▸ h i p hp)
    · have hnone := h i p hp
      rw [List.getElem?_eq_none hi, Parameter.fault?] at hnone
      split at hnone
      next hsome => exact hsome
      next => cases hnone
    · cases hv : args[i]? with
      | some v => exact Parameter.fault?_eq_none.mpr (hchecked i p v hp hv)
      | none => rw [Parameter.fault?, if_pos (hdefault i p hp (List.getElem?_eq_none_iff.mp hv))]
  unfold matchArgs
  obtain ⟨i, p, e, hp, hfault, hbefore, herror⟩ | ⟨hall, ⟨hle, out, hout⟩ | ⟨hlt, herror⟩⟩ :=
    distribute_singles s.params.length args.length hparams args
  · refine ⟨⟨fun ⟨out, hout⟩ => (nomatch herror.symm.trans hout), fun ⟨_, hrest⟩ => ?_⟩, fun e' he' => .inl ?_⟩
    · have hnone := hserved.mpr hrest i p hp
      exact nomatch hfault.symm.trans hnone
    · obtain rfl := Except.error.inj (herror.symm.trans he')
      exact ⟨i, p, hp, hfault, Parameter.param?_of_fault? hfault, hbefore⟩
  · exact ⟨⟨fun _ => ⟨hle, hserved.mp hall⟩, fun _ => ⟨out, hout⟩⟩, fun e he => nomatch hout.symm.trans he⟩
  · refine ⟨⟨fun ⟨out, hout⟩ => (nomatch herror.symm.trans hout), fun ⟨hle, _⟩ => absurd hle (Nat.not_le.mpr hlt)⟩, ?_⟩
    exact fun e he => .inr ⟨hall, (Except.error.inj (herror.symm.trans he)).symm⟩

end Signature

end Datapack
