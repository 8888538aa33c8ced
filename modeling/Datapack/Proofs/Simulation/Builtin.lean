import Datapack.Proofs.Simulation.Place

/-!
Messages and ranges in programs. A message shows the texts that its parts stand for in a run, and a range of
known bounds has the numbers that it has in a run.
-/

namespace Datapack

open Syntax List

variable {World : Type} {env : Environment} {expand : Expansion} {s s' : CompilerState} {values : List Value}
  {v : Value}

/-- Whether a value is what an expression in a call stands for: its known text, or what it means. -/
def Syntax.Expr.StandsFor (scopes : List Scope) (cells : Cell → Int32) (e : Expr) (v : Value) : Prop :=
  (∃ text span, e = .string text span ∧ v = .string (.static text)) ∨
    ∃ x, e.eval? scopes = some x ∧ v.Means cells x

namespace Syntax

variable (engine : Engine World) {scopes : List Scope} {cells : Cell → Int32} {es : List Expr} {e : Expr}

theorem Expr.standsFor_compile (he : e.isShown = true) (hs : s.frames.Plain s.nextTemporary)
    (h : (e.compile expand).Yields env s v s') :
    ∃ new, s.Evaluates s' new ∧ v.IsShown ∧ v.Places (fun c _ => c.Before s'.nextTemporary) ∧
      ∀ scopes (m : Machine World), Frames.Agree m.cells s.frames.ancestors scopes → m.HasConstants →
        e.StandsFor scopes (engine.steps m new).cells v := by
  unfold isShown at he
  split at he
  next text span =>
    rw [compile] at h
    obtain ⟨rfl, rfl⟩ := Compile.yields_pure.mp h
    exact ⟨[], .refl s, trivial, trivial, fun _ _ _ _ => .inl ⟨text, span, rfl, rfl⟩⟩
  next =>
    obtain ⟨new, hnew⟩ := computed_compile engine e he .refl hs h
    refine ⟨new, hnew.evaluates, ?_, ?_, fun scopes m hagree hm => .inr (hnew.means scopes m hagree hm)⟩
    · have hscalar := hnew.scalar
      cases v with
      | number _ | bool _ => trivial
      | _ => exact hscalar.elim
    · exact hnew.places.mono fun _ _ hc => hc.before hnew.evaluates.next_le

theorem Expr.StandsFor.congr {cells' : Cell → Int32} (h : e.StandsFor scopes cells v)
    (hcells : v.Places fun c _ => cells' c = cells c) : e.StandsFor scopes cells' v :=
  h.imp id fun ⟨x, hx, hmeans⟩ => ⟨x, hx, hmeans.congr hcells⟩

theorem Expr.standsFor_compileAll (hes : es.all isShown = true) (hs : s.frames.Plain s.nextTemporary)
    (h : (compileAll expand es).Yields env s values s') :
    ∃ new, s.Evaluates s' new ∧ (∀ v ∈ values, v.IsShown) ∧
      ∀ scopes (m : Machine World), Frames.Agree m.cells s.frames.ancestors scopes → m.HasConstants →
        List.Forall₂ (Expr.StandsFor scopes (engine.steps m new).cells) es values := by
  induction es generalizing s values with
  | nil =>
    rw [compileAll] at h
    obtain ⟨rfl, rfl⟩ := Compile.yields_pure.mp h
    exact ⟨[], .refl s, by simp, fun _ _ _ _ => .nil⟩
  | cons e rest ih =>
    rw [compileAll] at h
    simp only [Compile.yields_bind, Compile.yields_pure] at h
    obtain ⟨v, s1, hv, values, _, hvalues, rfl, rfl⟩ := h
    rw [all_cons, Bool.and_eq_true] at hes
    obtain ⟨new, hnew, hshown, hplaces, hstands⟩ := standsFor_compile engine hes.1 hs hv
    obtain ⟨more, hmore, hshown', hstands'⟩ := ih hes.2 (hnew.plain hs) hvalues
    refine ⟨new ++ more, hnew.trans hmore, by simpa using ⟨hshown, hshown'⟩, fun scopes m hagree hm => ?_⟩
    rw [Engine.steps_append]
    refine .cons ?_ (hstands' scopes _ ?_ (hnew.computes.hasConstants engine hm))
    · exact (hstands scopes m hagree hm).congr (hplaces.mono fun _ _ hc => hmore.cells_eq engine _ hc)
    · rw [hnew.frames]
      exact hnew.agree engine hs hagree

theorem Expr.StandsFor.text (h : e.StandsFor scopes cells v) :
    (∃ text, e.text scopes = .ok text ∧ v.Shows cells text) ∨ e.text scopes = .error .truthShown := by
  obtain ⟨text, span, rfl, rfl⟩ | ⟨x, hx, hmeans⟩ := h
  · exact .inl ⟨text, rfl, rfl⟩
  have hvalue : e.value scopes = .ok x := by rw [value, hx]
  have htext : e.text scopes = _ := text.eq_2 scopes e fun text span heq => by
    simp [heq, eval?] at hx
  rw [hvalue] at htext
  cases v with
  | number d =>
    cases x with
    | number n => exact .inl ⟨Word.text n, htext, n, hmeans, rfl⟩
    | truth _ => exact hmeans.elim
  | bool d =>
    cases x with
    | number _ => exact hmeans.elim
    | truth _ => exact .inr htext
  | _ => exact hmeans.elim

theorem Expr.text_of_standsFor (h : List.Forall₂ (Expr.StandsFor scopes cells) es values) :
    (∃ texts, es.mapM (text scopes) = .ok texts ∧
      List.Forall₂ (fun v text => v.Shows cells text) values texts) ∨
      es.mapM (text scopes) = .error .truthShown := by
  induction h with
  | nil => exact .inl ⟨[], rfl, .nil⟩
  | @cons e v es values hfirst _ ih =>
    rw [mapM_cons]
    obtain ⟨text, htext, hshows⟩ | herror := hfirst.text
    · rw [htext]
      obtain ⟨texts, htexts, hall⟩ | herror := ih
      · exact .inl ⟨text :: texts, by rw [htexts]; rfl, .cons hshows hall⟩
      · exact .inr (by rw [herror]; rfl)
    · exact .inr (by rw [herror]; rfl)

theorem Expr.value_of_standsFor (hes : es.all isCore = true)
    (h : List.Forall₂ (Expr.StandsFor scopes cells) es values) :
    ∃ xs, es.mapM (value scopes) = .ok xs ∧ List.Forall₂ (fun v x => v.Means cells x) values xs := by
  induction h with
  | nil => exact ⟨[], rfl, .nil⟩
  | @cons e v es values hfirst _ ih =>
    rw [all_cons, Bool.and_eq_true] at hes
    obtain ⟨xs, hxs, hall⟩ := ih hes.2
    obtain ⟨text, span, rfl, -⟩ | ⟨x, hx, hmeans⟩ := hfirst
    · cases hes.1
    · refine ⟨x :: xs, ?_, .cons hmeans hall⟩
      rw [mapM_cons, value, hx, hxs]
      rfl

end Syntax

namespace Compile

variable {engine : Engine World} {shown : List (Option String)} {span : Span} {p : Parameter} {matched : List Argument}
  {start stop step : Int} {args : List Expr} {name : String} {varSpan : Span}

theorem yields_callBuiltin {builtin : Builtin} {low : Nat} (hname : Builtin.ofName? name = some builtin)
    (hs : s.frames.Plain low) (h : ((Expr.call (.var name varSpan) args span).compile expand).Yields env s v s') :
    ∃ values s1 matched, (Expr.compileAll expand args).Yields env s values s1 ∧
      builtin.signature.matchArgs values = .ok matched ∧
      (runBuiltin builtin (matched.flatMap (·.values)) span).Yields env s1 v s' := by
  rw [Expr.compile_call args span (by simp), Expr.compile, readName] at h
  simp only [yields_bind, yields_frames] at h
  obtain ⟨callee, _, ⟨_, _, ⟨rfl, rfl⟩, hcallee⟩, values, s1, hvalues, h⟩ := h
  split at hcallee
  next key var hfind =>
    obtain ⟨f, hf, hget⟩ := Frames.key_mem_of_findOn hfind
    have hplain := (hs.frames _ hf).plainName _ (Ordered.mem_of_get? hget)
    simp [isPlainName, hname] at hplain
  next =>
    rw [hname] at hcallee
    obtain ⟨rfl, rfl⟩ := yields_pure.mp hcallee
    obtain ⟨matched, _, hmatched, h⟩ := yields_bind.mp h
    obtain ⟨hargs, rfl⟩ := yields_matchCall hmatched
    exact ⟨values, s1, _, hvalues, hargs, h⟩

theorem of_distribute_last {total found : Nat} {args : List Value} (hp : p.arity = .zeroOrMore)
    (h : Signature.distribute total found [p] args = .ok matched) : matched = [.many args] := by
  have hgather : ∀ taken rest, p.gather taken rest = .ok (.many taken) := by
    intro taken rest
    simp [Parameter.gather, hp]
  rw [Signature.distribute.eq_def] at h
  simp only [hp, reduceCtorEq, if_false] at h
  split at h
  · cases h
  next hrest =>
    have hrest : args.dropWhile p.fits = [] := by simpa using hrest
    have htaken : args.takeWhile p.fits = args := by
      simpa [hrest] using takeWhile_append_dropWhile (p := p.fits) (l := args)
    obtain ⟨_, -, h⟩ := Signature.bind_eq_ok.mp h
    rw [hgather, hrest, htaken] at h
    exact (Except.ok.inj h).symm

theorem eq_known_of_check (hkind : p.kind = .number) (haccepts : p.accepts = .staticOnly) (h : p.check v = .ok ()) :
    ∃ n, v = Builtin.known n := by
  rw [Parameter.check, Parameter.fits, hkind, Parameter.checkStaticness, haccepts] at h
  cases v with
  | number d =>
    cases d with
    | static n => exact ⟨n, rfl⟩
    | dynamic cell temporary => cases h
  | _ => cases h

theorem progression_eq_nil (h : ¬ ((0 < step ∧ start < stop) ∨ (step < 0 ∧ stop < start))) (hstep : step ≠ 0) :
    progression start stop step = [] := by
  have hcount : (if 0 < step then (stop - start + step - 1) / step else (start - stop - step - 1) / (-step)).toNat = 0 := by
    split
    next hpos =>
      rw [Int.toNat_eq_zero]
      have : (stop - start + step - 1) / step < 1 := by
        apply Int.ediv_lt_of_lt_mul hpos
        omega
      omega
    next hneg =>
      rw [Int.toNat_eq_zero]
      have : (start - stop - step - 1) / (-step) < 1 := by
        apply Int.ediv_lt_of_lt_mul (by omega)
        omega
      omega
  rw [progression, hcount]
  rfl

theorem progression_eq_cons (h : (0 < step ∧ start < stop) ∨ (step < 0 ∧ stop < start)) :
    progression start stop step = .ofInt start :: progression (start + step) stop step := by
  have hcount : (if 0 < step then (stop - start + step - 1) / step
      else (start - stop - step - 1) / (-step)).toNat =
      (if 0 < step then (stop - (start + step) + step - 1) / step
        else (start + step - stop - step - 1) / (-step)).toNat + 1 := by
    obtain ⟨hpos, hlt⟩ | ⟨hneg, hlt⟩ := h
    · rw [if_pos hpos, if_pos hpos]
      have hsucc : stop - start + step - 1 = (stop - (start + step) + step - 1) + step * 1 := by omega
      have hnonneg : 0 ≤ (stop - (start + step) + step - 1) / step := Int.ediv_nonneg (by omega) (by omega)
      rw [hsucc, Int.add_mul_ediv_left _ _ (by omega)]
      omega
    · rw [if_neg (by omega), if_neg (by omega)]
      have hsucc : start - stop - step - 1 = (start + step - stop - step - 1) + (-step) * 1 := by omega
      have hnonneg : 0 ≤ (start + step - stop - step - 1) / (-step) := Int.ediv_nonneg (by omega) (by omega)
      rw [hsucc, Int.add_mul_ediv_left _ _ (by omega)]
      omega
  rw [progression, hcount, range_succ_eq_map, map_cons, map_map, progression]
  congr 1
  · simp
  · apply map_congr_left
    intro k _
    simp only [Function.comp_apply]
    congr 1
    rw [Nat.succ_eq_add_one, Int.natCast_add, Int.mul_add]
    omega

theorem eq_progression (hstep : step ≠ 0) {limit : Nat} {items : List Value}
    (h : progression? stop step limit start = some items) :
    items = (progression start stop step).map Builtin.known := by
  induction limit generalizing start items with
  | zero =>
    rw [progression?] at h
    split at h
    · cases h
    next hend =>
      cases h
      rw [progression_eq_nil hend hstep, map_nil]
  | succ limit ih =>
    rw [progression?] at h
    split at h
    next hmore =>
      obtain ⟨rest, hrest, rfl⟩ := Option.map_eq_some_iff.mp h
      rw [progression_eq_cons hmore, map_cons, ← ih hrest]
      rfl
    next hend =>
      cases h
      rw [progression_eq_nil hend hstep, map_nil]

theorem of_rangeItems {a c : Int32} {second : Value}
    (h : rangeItems (Builtin.known a) second (Builtin.known c) = .ok v) :
    c ≠ 0 ∧ (second = .null ∧ v = .array ((progression 0 a.toInt c.toInt).map Builtin.known) ∨
      ∃ b, second = Builtin.known b ∧ v = .array ((progression a.toInt b.toInt c.toInt).map Builtin.known)) := by
  obtain ⟨start, last, items, hbounds, hstep, hitems, rfl⟩ := progression_of_rangeItems h
  have hitems := eq_progression (fun hzero => hstep (Int32.toInt_inj.mp hzero)) hitems
  refine ⟨hstep, ?_⟩
  obtain ⟨rfl, rfl, rfl⟩ | ⟨hlast, rfl⟩ := hbounds
  · exact .inl ⟨rfl, by rw [hitems]; rfl⟩
  · refine .inr ⟨last, ?_, by rw [hitems]; rfl⟩
    cases second with
    | number d =>
      cases d with
      | static b => rw [Option.some.inj hlast]; rfl
      | dynamic _ _ => cases hlast
    | _ => cases hlast

theorem of_range (hvalues : ∀ v ∈ values, v.IsShown) (h : Builtin.range.signature.matchArgs values = .ok matched)
    (hrange : rangeItems ((matched.flatMap (·.values)).getD 0 .null) ((matched.flatMap (·.values)).getD 1 .null)
      ((matched.flatMap (·.values)).getD 2 .null) = .ok v) :
    ∃ (ns words : List Int32), values = ns.map Builtin.known ∧ rangeWords? (ns.map .number) = some words ∧
      v = .array (words.map Builtin.known) := by
  obtain ⟨first, rest, _, rfl, h, ⟨rfl, hfirst⟩ | ⟨-, -, hdefault⟩⟩ := Signature.of_distribute_one rfl h
  swap
  · cases hdefault
  obtain ⟨second, rest', _, rfl, h, hsecond⟩ := Signature.of_distribute_one rfl h
  obtain ⟨third, rest'', _, rfl, h, hthird⟩ := Signature.of_distribute_one rfl h
  obtain ⟨rfl, rfl⟩ : rest'' = [] ∧ _ = [] := by
    cases rest'' with
    | nil => exact ⟨rfl, (Except.ok.inj h).symm⟩
    | cons _ _ => cases h
  obtain ⟨a, rfl⟩ := eq_known_of_check rfl rfl hfirst
  obtain ⟨rfl, hcheck⟩ | ⟨rfl, -, hdefault⟩ := hthird
  · obtain ⟨c, rfl⟩ := eq_known_of_check rfl rfl hcheck
    obtain ⟨rfl, -⟩ | ⟨-, hfalse, -⟩ := hsecond
    swap
    · cases hfalse
    obtain ⟨hc, ⟨rfl, -⟩ | ⟨b, rfl, rfl⟩⟩ := of_rangeItems hrange
    · exact (hvalues .null (by simp)).elim
    · exact ⟨[a, b, c], _, rfl, if_neg hc, rfl⟩
  · cases hdefault
    obtain ⟨-, ⟨rfl, rfl⟩ | ⟨b, rfl, rfl⟩⟩ := of_rangeItems hrange
    · obtain ⟨rfl, -⟩ | ⟨rfl, -⟩ := hsecond
      · exact (hvalues .null (by simp)).elim
      · exact ⟨[a], _, rfl, rfl, rfl⟩
    · obtain ⟨rfl, -⟩ | ⟨-, -, hdefault⟩ := hsecond
      · exact ⟨[a, b], _, rfl, rfl, rfl⟩
      · cases hdefault

theorem of_printValues {u : Unit} (hvalues : ∀ v ∈ values, v.IsShown)
    (h : (printValues values span).Yields env s u s') :
    ∃ text, s' = { s with draft := s.draft.append (located s (.leaf (.tellraw text))) } ∧
      ∀ cells texts, List.Forall₂ (fun v text => v.Shows cells text) values texts →
        text.shown env.settings cells = String.join texts := by
  obtain ⟨outcome, _, hemit, h⟩ := yields_bind.mp h
  obtain ⟨e, hdisplay, rfl⟩ := yields_emitting.mp hemit
  cases outcome with
  | error kind => exact absurd h not_yields_fail
  | ok components =>
    obtain ⟨rfl, hcomponents⟩ := Value.displayAll_shows hvalues hdisplay
    simp only [yields_bind, yields_read, yields_emit] at h
    obtain ⟨_, _, ⟨rfl, rfl⟩, rfl⟩ := h
    exact ⟨_, rfl, hcomponents env.settings⟩

theorem Realizes.print (hname : Builtin.ofName? name = some .print) (hargs : args.all Expr.isShown = true) :
    Realizes env engine shown Frames.Evolve
      (discard ((Expr.call (.var name varSpan) args span).compile expand))
      fun _ σ => do return σ.tell (← args.mapM (Expr.text σ.scopes)) := by
  intro s u s' hs h
  obtain ⟨_, h⟩ := yields_discard.mp h
  obtain ⟨values, s1, matched, hvalues, hmatched, h⟩ := yields_callBuiltin hname hs h
  cases of_distribute_last rfl hmatched
  obtain ⟨new, hnew, hshown, hstands⟩ := Expr.standsFor_compileAll engine hargs hs hvalues
  obtain ⟨_, _, hprint, h⟩ := yields_bind.mp h
  obtain ⟨-, rfl⟩ := yields_pure.mp h
  rw [flatMap_singleton] at hprint
  obtain ⟨text, rfl, htext⟩ := of_printValues hshown hprint
  have hknown : ∀ i ∈ (located s1 (.leaf (.tellraw text))).instrs, i.isRaw = false := by
    simp [located, Node.leaf, Node.instrs, Node.lines, Instr.isRaw]
  refine ⟨hnew.frames.symm ▸ .refl _, [], _, .after hnew hs ((CompilerState.Adds.refl s1).append hknown) ?_
    (hnew.plain hs) fun p _ depth σ m hm hm1 => ?_⟩
  · simp [Node.CallsOnly, Node.callsAll, Node.calls, located, Node.leaf]
  obtain ⟨texts, htexts, hall⟩ | herror := Expr.text_of_standsFor (hstands σ.scopes m hm.scopes hm.constants)
  · rw [htexts]
    refine ⟨_, rfl, ⟨hm1.scopes, hm1.constants, ?_⟩, fun _ _ => rfl⟩
    change ((engine.steps m new).events ++ _).map _ = _
    simp [hm1.output, Store.tell, Event.text?, htext _ _ hall]
  · rw [herror]
    trivial

end Compile

end Datapack
