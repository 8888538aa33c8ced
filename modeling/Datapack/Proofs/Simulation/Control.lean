import Datapack.Proofs.Simulation.Expr

/-!
Branches and loops. A condition that the compiler cannot decide is tested in a cell that the branches leave alone. A loop
is a routine that ends with the check for another round; so a run of the routine within some depth of calls is a run of
the loop within the same depth.
-/

namespace Datapack

open Syntax List Frames Engine Node

def Value.mayHold : Value → Bool
  | .bool (.static b) => b
  | .number (.static n) => n != 0
  | _ => true

theorem Value.Alike.mayHold {v w : Value} (h : v.Alike w) : v.mayHold = w.mayHold := by
  cases h with
  | @number d d' h => cases d <;> cases d' <;> cases h <;> rfl
  | @bool d d' h => cases d <;> cases d' <;> cases h <;> rfl

namespace Compile

variable {World : Type} {engine : Engine World} {env : Environment} {shown : List (Option String)}
  {expand : Expansion} {s s' : CompilerState} {v : Value} {span : Span} {d : Decision} {cond : Expr} {c : Condition}
  {body : Compile Unit} {u : Unit} {hasElse flag : Bool} {routine : String} {block : Block}
  {act : LoopRun → Store → Except Stop Store} {actTrue actFalse : LoopRun → Store → Except Stop Store}
  {onTrue onFalse : ScopeKind → Compile Unit}

def Decision.IsOn (engine : Engine World) (m : Machine World) (holds : Bool) : Decision → Prop
  | .known b => b = holds
  | .tested condition _ => engine.holds m condition = holds

def Decision.OwnBelow (next : Nat) : Decision → Prop
  | .known _ => True
  | .tested condition ownCell => ownCell = true → ∃ k, k < next ∧ condition = .onTemporary false k

theorem decisionOf_isOn (engine : Engine World) (h : (decisionOf v span).Yields env s d s') :
    s' = s ∧ ∀ (m : Machine World) x, v.Means m.cells x → d.IsOn engine m x.holds := by
  unfold decisionOf at h
  split at h
  next b =>
    obtain ⟨rfl, rfl⟩ := yields_pure.mp h
    refine ⟨rfl, fun m x hx => ?_⟩
    match x, hx with
    | .truth _, hx => exact hx
  next n =>
    obtain ⟨rfl, rfl⟩ := yields_pure.mp h
    refine ⟨rfl, fun m x hx => ?_⟩
    match x, hx with
    | .number _, hx => exact congrArg (· != 0) hx
  next cell temporary =>
    obtain ⟨rfl, rfl⟩ := yields_pure.mp h
    refine ⟨rfl, fun m x hx => ?_⟩
    match x, hx with
    | .truth _, hx => exact (holds_isTrue hx).1
  next cell temporary =>
    obtain ⟨rfl, rfl⟩ := yields_pure.mp h
    refine ⟨rfl, fun m x hx => ?_⟩
    match x, hx with
    | .number _, hx =>
      cases hx
      exact (holds_rangeCondition m cell .notEqual 0).trans (Bool.or_false _)
  next => exact absurd h not_yields_fail

theorem decisionOf_ownBelow {low start stop : Nat} (hv : v.Places (Cell.Fits low start stop))
    (h : (decisionOf v span).Yields env s d s') : d.OwnBelow stop := by
  unfold decisionOf at h
  split at h
  next =>
    obtain ⟨rfl, -⟩ := yields_pure.mp h
    trivial
  next =>
    obtain ⟨rfl, -⟩ := yields_pure.mp h
    trivial
  next cell temporary =>
    obtain ⟨rfl, -⟩ := yields_pure.mp h
    rintro rfl
    obtain ⟨-, k, -, hk, rfl⟩ | ⟨hfalse, -⟩ := hv
    · exact ⟨k, hk, rfl⟩
    · cases hfalse
  next =>
    obtain ⟨rfl, -⟩ := yields_pure.mp h
    exact fun hfalse => absurd hfalse (by decide)
  next => exact absurd h not_yields_fail

theorem decide_isOn (engine : Engine World) (hcond : cond.isCore = true) (hs : s.frames.Plain s.nextTemporary)
    (h : (Compile.decide expand cond).Yields env s d s') :
    ∃ new, s.Evaluates s' new ∧ d.OwnBelow s'.nextTemporary ∧
      ∀ scopes (m : Machine World), Agree m.cells s.frames.ancestors scopes → m.HasConstants →
        ∃ x, cond.eval? scopes = some x ∧ d.IsOn engine (engine.steps m new) x.holds := by
  obtain ⟨v, s1, hv, hd⟩ := yields_bind.mp h
  obtain ⟨new, hcomputed⟩ := Expr.computed_compile engine cond hcond .refl hs hv
  have hown := decisionOf_ownBelow hcomputed.places hd
  obtain ⟨rfl, hisOn⟩ := decisionOf_isOn engine hd
  refine ⟨new, hcomputed.evaluates, hown, fun scopes m hagree hconstants => ?_⟩
  obtain ⟨x, hx, hmeans⟩ := hcomputed.means scopes m hagree hconstants
  exact ⟨x, hx, hisOn _ x hmeans⟩

theorem stableCondition_holds (engine : Engine World) {condition : Condition} {ownCell : Bool}
    (hown : (Decision.tested condition ownCell).OwnBelow s.nextTemporary)
    (h : (stableCondition condition ownCell).Yields env s c s') :
    ∃ new k, s.Evaluates s' new ∧ k < s'.nextTemporary ∧ c = .onTemporary false k ∧
      ∀ m : Machine World, engine.holds (engine.steps m new) c = engine.holds m condition := by
  rw [stableCondition] at h
  split at h
  next hcell =>
    obtain ⟨rfl, rfl⟩ := yields_pure.mp h
    obtain ⟨k, hk, rfl⟩ := hown hcell
    exact ⟨[], k, .refl s, hk, rfl, fun _ => rfl⟩
  next =>
    simp only [yields_bind, yields_emitting, Emit.yields_freshCell, yields_emit, yields_pure] at h
    obtain ⟨_, _, ⟨_, ⟨rfl, rfl⟩, rfl⟩, _, _, rfl, rfl, rfl⟩ := h
    refine ⟨[.storeCondition (.temporary s.nextTemporary) [condition]], s.nextTemporary, ⟨⟨?_, rfl, ?_, ?_⟩, rfl,
      ?_⟩, .refl, rfl, fun m => ?_⟩
    · refine .of_draft rfl (Nat.le_succ _) (List.Subset.refl _) rfl ?_
      simp [Node.leaf, Node.instrs, Node.lines, Instr.isRaw]
    · simp [Instr.IsQuiet]
    · intro i hi c hc
      cases mem_singleton.mp hi
      exact .inr ⟨_, .refl, (Option.some.inj hc).symm⟩
    · intro i hi c hc
      cases mem_singleton.mp hi
      exact ⟨_, .refl, .refl, (Option.some.inj hc).symm⟩
    · refine (holds_isTrue ?_).1
      simp [Engine.steps, Engine.step, holdsAll_singleton]

theorem Realizes.emitGuarded (hbody : Realizes env engine shown (Around .conditional) body act)
    (hs : s.frames.Plain s.nextTemporary) (h : (Compile.emitGuarded c body).Yields env s u s') :
    s'.frames.ancestors = s.frames.ancestors ∧ s'.frames.Plain s'.nextTemporary ∧ ∃ made node,
      s.Adds s' made [node] ∧ CallsOnly made [node] ∧
        ∀ p : Program, (∀ r ∈ made, p.routine? r.name = some r) → ∀ depth σ (m : Machine World),
          m.Agrees env.settings shown s.frames.ancestors σ →
            (engine.holds m c = true → m.Follows env.settings shown s.frames.ancestors s.nextTemporary
              (act (loopWithin depth) σ) (engine.execAll (p.run engine depth) [node] m)) ∧
            (engine.holds m c = false → engine.execAll (p.run engine depth) [node] m = some m) := by
  obtain ⟨_, _, hbuffer, hnode⟩ := yields_bind.mp h
  obtain ⟨s1, hrun, rfl, rfl⟩ := yields_inBuffer.mp hbuffer
  cases yields_emitNode.mp hnode
  obtain ⟨haround, made, nodes, hcarries⟩ := hbody { s with draft := s.draft.push } u s1 hs hrun
  have hsame : s1.frames.ancestors = s.frames.ancestors := haround
  obtain ⟨hnodes, hadds⟩ := hcarries.adds.closeBuffer
  have hknown : ∀ i ∈ (located { s1 with draft := s1.draft.pop.2 }
      (.guarded [c] s1.draft.pop.1.toList)).instrs, i.isRaw = false := by
    rw [hnodes, located, Node.guarded, instrs_guarded]
    exact hcarries.adds.known
  refine ⟨hsame, hcarries.plain, made, _, hadds.append hknown, ?_, fun p hp depth σ m hm => ?_⟩
  · rw [hnodes]
    simpa [CallsOnly, Node.callsAll, Node.calls, located, Node.guarded] using hcarries.calls
  · have hexec : engine.execAll (p.run engine depth)
        [located { s1 with draft := s1.draft.pop.2 } (.guarded [c] s1.draft.pop.1.toList)] m =
        if engine.holds m c then engine.execAll (p.run engine depth) nodes m else some m := by
      rw [hnodes, Engine.execAll, located, Node.guarded, exec_guarded, holdsAll_singleton]
      exact Option.bind_fun_some _
    refine ⟨fun hholds => ?_, fun hholds => ?_⟩
    · rw [hexec, if_pos hholds, ← hsame]
      exact hcarries.follows p hp depth σ m hm
    · rw [hexec, hholds]
      rfl

theorem Realizes.emitElse {onFalse : Compile Unit} (hbody : Realizes env engine shown (Around .conditional) onFalse act)
    (helse : hasElse = false → ∀ loop σ, act loop σ = .ok σ) (hs : s.frames.Plain s.nextTemporary)
    (h : Yields (if hasElse then Compile.emitGuarded c.negated onFalse else Pure.pure ()) env s u s') :
    s'.frames.ancestors = s.frames.ancestors ∧ s'.frames.Plain s'.nextTemporary ∧ ∃ made nodes,
      s.Adds s' made nodes ∧ CallsOnly made nodes ∧
        ∀ p : Program, (∀ r ∈ made, p.routine? r.name = some r) → ∀ depth σ (m : Machine World),
          m.Agrees env.settings shown s.frames.ancestors σ →
            (engine.holds m c = true → engine.execAll (p.run engine depth) nodes m = some m) ∧
            (engine.holds m c = false → m.Follows env.settings shown s.frames.ancestors s.nextTemporary
              (act (loopWithin depth) σ) (engine.execAll (p.run engine depth) nodes m)) := by
  cases hasElse with
  | true =>
    obtain ⟨hsame, hplain, made, node, hadds, hcalls, hfollows⟩ := hbody.emitGuarded hs h
    refine ⟨hsame, hplain, made, [node], hadds, hcalls, fun p hp depth σ m hm => ?_⟩
    have hnegated : engine.holds m c.negated = !engine.holds m c := by
      rw [← holdsAll_singleton, holdsAll_negated]
    obtain ⟨hholds, hnot⟩ := hfollows p hp depth σ m hm
    rw [hnegated] at hholds hnot
    exact ⟨fun hc => hnot (by simp [hc]), fun hc => hholds (by simp [hc])⟩
  | false =>
    obtain ⟨-, rfl⟩ := yields_pure.mp h
    refine ⟨rfl, hs, [], [], .refl s, by simp [CallsOnly, Node.callsAll], fun p _ depth σ m hm => ?_⟩
    rw [helse rfl]
    exact ⟨fun _ => rfl, fun _ => ⟨m, rfl, hm, fun _ _ => rfl⟩⟩

theorem Realizes.branch_of_decision (htrue : ∀ kind, Realizes env engine shown (Around kind) (onTrue kind) actTrue)
    (hfalse : ∀ kind, Realizes env engine shown (Around kind) (onFalse kind) actFalse)
    (helse : hasElse = false → ∀ loop σ, actFalse loop σ = .ok σ) (hs : s.frames.Plain s.nextTemporary)
    (hown : d.OwnBelow s.nextTemporary) (h : (Compile.branch d onTrue onFalse hasElse).Yields env s u s') :
    Evolve s.frames.ancestors s'.frames.ancestors ∧ s'.frames.Plain s'.nextTemporary ∧ ∃ made nodes,
      s.Adds s' made nodes ∧ CallsOnly made nodes ∧
        ∀ p : Program, (∀ r ∈ made, p.routine? r.name = some r) → ∀ depth σ (m : Machine World) holds,
          m.Agrees env.settings shown s.frames.ancestors σ → d.IsOn engine m holds →
            m.Follows env.settings shown s'.frames.ancestors s.nextTemporary
              (if holds then actTrue (loopWithin depth) σ else actFalse (loopWithin depth) σ)
              (engine.execAll (p.run engine depth) nodes m) := by
  match d, hown with
  | .known true, _ =>
    obtain ⟨haround, made, nodes, hcarries⟩ := htrue .block s u s' hs h
    refine ⟨haround, hcarries.plain, made, nodes, hcarries.adds, hcarries.calls, ?_⟩
    rintro p hp depth σ m _ hm rfl
    exact hcarries.follows p hp depth σ m hm
  | .known false, _ =>
    obtain ⟨haround, made, nodes, hcarries⟩ := hfalse .block s u s' hs h
    refine ⟨haround, hcarries.plain, made, nodes, hcarries.adds, hcarries.calls, ?_⟩
    rintro p hp depth σ m _ hm rfl
    exact hcarries.follows p hp depth σ m hm
  | .tested condition ownCell, hown =>
    obtain ⟨c, s1, hstable, h⟩ := yields_bind.mp h
    obtain ⟨_, s2, hguarded, h⟩ := yields_bind.mp h
    obtain ⟨new, k, hnew, hk, rfl, hholds⟩ := stableCondition_holds engine hown hstable
    obtain ⟨hsame2, hs2, made, node, hadds, hcalls, hfollows⟩ :=
      (htrue .conditional).emitGuarded (hnew.plain hs) hguarded
    obtain ⟨hsame', hs', more, others, hadds', hcalls', hfollows'⟩ :=
      (hfalse .conditional).emitElse helse hs2 h
    have hsame1 : s1.frames.ancestors = s.frames.ancestors := by rw [hnew.frames]
    refine ⟨?_, hs', _, _, (hnew.computes.adds.trans hadds).trans hadds', ?_, ?_⟩
    · rw [hsame', hsame2, hsame1]
      exact .refl _
    · refine callsOnly_append.mpr ⟨callsOnly_append.mpr ⟨?_, ?_⟩, ?_⟩
      · simp [CallsOnly, hnew.computes.callsAll_eq_nil]
      · exact hcalls.mono (by simp)
      · exact hcalls'.mono (by simp)
    intro p hp depth σ m holds hm hisOn
    have hp1 : ∀ r ∈ made, p.routine? r.name = some r := fun r hr => hp r (by simp [hr])
    have hp2 : ∀ r ∈ more, p.routine? r.name = some r := fun r hr => hp r (by simp [hr])
    have hm1 := hnew.agrees engine hs hm
    have hc : engine.holds (engine.steps m new) (.onTemporary false k) = holds := (hholds m).trans hisOn
    rw [append_assoc, hsame', hsame2]
    refine hnew.computes.follows_append hnew.next_le ?_
    rw [execAll_append]
    cases holds with
    | true =>
      have hfirst := (hfollows p hp1 depth σ _ hm1).1 hc
      rw [if_pos rfl, ← bind_pure (actTrue (loopWithin depth) σ)]
      refine hfirst.bind hadds.next_le fun σ' m' hm' hkeeps => ?_
      -- the first branch has left the cell of the condition alone
      have hc' : engine.holds m' (.onTemporary false k) = true :=
        (holds_onTemporary_congr (hkeeps k hk) false).trans hc
      have hskip := (hfollows' p hp2 depth σ' m' (hsame2 ▸ hm')).1 hc'
      exact ⟨m', hskip, hm', fun _ _ => rfl⟩
    | false =>
      rw [(hfollows p hp1 depth σ _ hm1).2 hc, Option.bind_some]
      have hsecond := (hfollows' p hp2 depth σ _ (hsame2 ▸ hm1)).2 hc
      rw [hsame2] at hsecond
      exact hsecond.of_keepsBelow hadds.next_le fun _ _ => rfl

theorem Realizes.branch (hcond : cond.isCore = true)
    (htrue : ∀ kind, Realizes env engine shown (Around kind) (onTrue kind) actTrue)
    (hfalse : ∀ kind, Realizes env engine shown (Around kind) (onFalse kind) actFalse)
    (helse : hasElse = false → ∀ loop σ, actFalse loop σ = .ok σ) :
    Realizes env engine shown Evolve
      (do Compile.branch (← Compile.decide expand cond) onTrue onFalse hasElse)
      (fun loop σ => do
        if (← cond.value σ.scopes).holds then actTrue loop σ else actFalse loop σ) := by
  intro s u s' hs hstep
  obtain ⟨d, s1, hdecide, hbranch⟩ := yields_bind.mp hstep
  obtain ⟨new, hnew, hown, hisOn⟩ := decide_isOn engine hcond hs hdecide
  obtain ⟨hchange, hs', made, nodes, hadds, hcalls, hfollows⟩ :=
    branch_of_decision htrue hfalse helse (hnew.plain hs) hown hbranch
  rw [hnew.frames] at hchange
  refine ⟨hchange, made, _, .after hnew hs hadds hcalls hs' fun p hp depth σ m hm hm1 => ?_⟩
  obtain ⟨x, hx, hdecided⟩ := hisOn σ.scopes m hm.scopes hm.constants
  rw [Expr.value, hx]
  exact hfollows p hp depth σ _ x.holds hm1 hdecided

def Decision.mayHold : Decision → Bool
  | .known b => b
  | .tested _ _ => true

theorem decisionOf_mayHold (h : (decisionOf v span).Yields env s d s') : d.mayHold = v.mayHold := by
  unfold decisionOf at h
  split at h
  all_goals first
    | exact absurd h not_yields_fail
    | obtain ⟨rfl, -⟩ := yields_pure.mp h; rfl

/-- Whether nodes are a call of a routine if a decision turns out true, where a flag tells if it may. -/
structure IsCallOn (engine : Engine World) (d : Decision) (routine : String) (flag : Bool)
    (nodes : List Node) : Prop where
  isRepeat : IsRepeat routine nodes
  may : flag = d.mayHold
  calls : flag = true → .call routine ∈ Node.instrsAll nodes
  empty : flag = false → nodes = []
  exec : ∀ (m : Machine World) holds, d.IsOn engine m holds → (holds = true → flag = true) ∧
    ∀ call, engine.execAll call nodes m = if holds then call routine m else some m

theorem isCallOn_of_yields (engine : Engine World) {location : Option Span} (h : Yields (match d with
      | .known false => Pure.pure false
      | .known true => do
        emitNode { Node.leaf (.call routine) with location }
        Pure.pure true
      | .tested condition _ => do
        emitNode (.guarded [condition] [{ Node.leaf (.call routine) with location }])
        Pure.pure true) env s flag s') :
    s'.frames = s.frames ∧ ∃ nodes, s.Adds s' [] nodes ∧ IsCallOn engine d routine flag nodes := by
  match d with
  | .known false =>
    obtain ⟨rfl, rfl⟩ := yields_pure.mp h
    refine ⟨rfl, [], .refl s, .never, rfl, by simp, fun _ => rfl, ?_⟩
    rintro m _ rfl
    exact ⟨by simp, fun call => rfl⟩
  | .known true =>
    simp only [yields_bind, yields_emitNode, yields_pure] at h
    obtain ⟨_, _, rfl, rfl, rfl⟩ := h
    refine ⟨rfl, _, (CompilerState.Adds.refl s).append ?_, .always, rfl, ?_, by simp, ?_⟩
    · simp [located, Node.leaf, Node.instrs, Node.lines, Instr.isRaw]
    · simp [located, Node.leaf, Node.instrsAll, Node.linesAll, Node.lines]
    · rintro m _ rfl
      exact ⟨fun _ => rfl, fun call => Option.bind_fun_some _⟩
  | .tested condition ownCell =>
    simp only [yields_bind, yields_emitNode, yields_pure] at h
    obtain ⟨_, _, rfl, rfl, rfl⟩ := h
    refine ⟨rfl, _, (CompilerState.Adds.refl s).append ?_, .tested, rfl, ?_, by simp, ?_⟩
    · simp [located, Node.guarded, Node.leaf, Node.instrsAll, Node.linesAll, Node.lines, Instr.isRaw]
    · simp [located, Node.guarded, Node.leaf, Node.instrsAll, Node.linesAll, Node.lines]
    · intro m holds hholds
      refine ⟨fun _ => rfl, fun call => ?_⟩
      obtain rfl : engine.holds m condition = holds := hholds
      simp only [nil_append, Engine.execAll, located, Node.guarded, exec_guarded,
        holdsAll_singleton]
      split
      · exact (Option.bind_fun_some _).trans (Option.bind_fun_some _)
      · rfl

/-- Whether nodes check a condition and call a routine if it holds, where a flag tells if it may. -/
structure Checks (env : Environment) (engine : Engine World) (shown : List (Option String)) (cond : Expr)
    (routine : String) (s s' : CompilerState) (flag : Bool) (nodes : List Node) : Prop where
  adds : s.Adds s' [] nodes
  frames : s'.frames = s.frames
  calls : ∃ inner last, nodes = inner ++ last ∧ Node.callsAll inner = [] ∧ IsRepeat routine last ∧
    (flag = true → .call routine ∈ Node.instrsAll last) ∧ (flag = false → last = [])
  follows : ∀ σ (m : Machine World), m.Agrees env.settings shown s.frames.ancestors σ →
    ∃ x m', cond.eval? σ.scopes = some x ∧ (x.holds = true → flag = true) ∧
      m'.Agrees env.settings shown s.frames.ancestors σ ∧ m.KeepsBelow s.nextTemporary m' ∧
      ∀ call, engine.execAll call nodes m = if x.holds then call routine m' else some m'

theorem callIf_checks (engine : Engine World) (shown : List (Option String)) (hcond : cond.isCore = true)
    (hs : s.frames.Plain s.nextTemporary) (h : (callIf expand cond routine).Yields env s flag s') :
    (∃ nodes, Checks env engine shown cond routine s s' flag nodes) ∧
      ∃ v s1, (cond.compile expand).Yields env s v s1 ∧ flag = v.mayHold := by
  simp only [callIf, yields_bind, yields_get] at h
  obtain ⟨_, _, ⟨rfl, rfl⟩, d, s1, hdecide, h⟩ := h
  obtain ⟨v, _, hv, hd⟩ := yields_bind.mp hdecide
  obtain ⟨new, hcomputed⟩ := Expr.computed_compile engine cond hcond .refl hs hv
  have hmayHold := decisionOf_mayHold hd
  obtain ⟨rfl, hisOn⟩ := decisionOf_isOn engine hd
  have hnew := hcomputed.evaluates
  obtain ⟨hframes, last, hadds, hcall⟩ := isCallOn_of_yields engine h
  refine ⟨⟨_, hnew.computes.adds.trans hadds, hframes.trans hnew.frames, ?_, fun σ m hm => ?_⟩, v, s1, hv,
    hcall.may.trans hmayHold⟩
  · exact ⟨_, last, rfl, hnew.computes.callsAll_eq_nil _, hcall.isRepeat, hcall.calls, hcall.empty⟩
  · obtain ⟨x, hx, hmeans⟩ := hcomputed.means σ.scopes m hm.scopes hm.constants
    obtain ⟨hflag, hexec⟩ := hcall.exec _ _ (hisOn _ x hmeans)
    refine ⟨x, engine.steps m new, hx, hflag, hnew.computes.agrees hm (hnew.agree engine hs hm.scopes), ?_, ?_⟩
    · exact fun k hk => hnew.computes.cells_temporary engine m hk
    · intro call
      rw [execAll_append, hnew.computes.execAll engine, Option.bind_some]
      exact hexec call

/-- A routine that does the body of a loop and then checks for another round does what the loop does, by
induction on the depth of calls. -/
theorem follows_loopWithin {p : Program} {low : Nat} {settings : Settings} {stack : List (Nat × Frame)}
    {nodes check : List Node}
    (hrun : ∀ depth m, p.run engine (depth + 1) routine m = engine.execAll (p.run engine depth) (nodes ++ check) m)
    (hbody : ∀ depth σ (m : Machine World), m.Agrees settings shown stack σ →
      m.Follows settings shown stack low (Block.exec (loopWithin depth) block σ)
        (engine.execAll (p.run engine depth) nodes m))
    (hcheck : ∀ σ (m : Machine World), m.Agrees settings shown stack σ → ∃ x m', cond.eval? σ.scopes = some x ∧
      m'.Agrees settings shown stack σ ∧ m.KeepsBelow low m' ∧
        ∀ call, engine.execAll call check m = if x.holds then call routine m' else some m') (depth : Nat) (σ : Store)
    (m : Machine World) (hm : m.Agrees settings shown stack σ) :
    m.Follows settings shown stack low (loopWithin depth cond block σ) (p.run engine depth routine m) := by
  induction depth generalizing σ m with
  | zero => rfl
  | succ depth ih =>
    rw [hrun, execAll_append, loopWithin]
    refine (hbody depth σ m hm).bind .refl fun σ' m' hm' _ => ?_
    obtain ⟨x, m'', hx, hm'', hkeeps, hexec⟩ := hcheck σ' m' hm'
    rw [Expr.value, hx, hexec]
    change m'.Follows settings shown stack low
      (if x.holds then loopWithin depth cond block σ' else .ok σ') _
    split
    · exact (ih σ' m'' hm'').of_keepsBelow .refl hkeeps
    · exact ⟨m'', rfl, hm'', hkeeps⟩

section

variable (hcond : cond.isCore = true) (hbody : Realizes env engine shown (Around .loop) body fun loop => Block.exec loop block)

include hcond hbody

/-- What stands in the routine of a loop: its body and the check for another round, or nothing if the condition
cannot hold. If the routine is in a program, it does what the loop does. -/
theorem Realizes.rounds {t t' : CompilerState}
    (hv : (cond.compile expand).Yields env t v t') (hflag : flag = v.mayHold) (hs : s.frames.Plain s.nextTemporary)
    (hsame : s.frames.ancestors = t.frames.ancestors) (h : Yields (do
      if flag then
        body
        let _ ← callIf expand cond routine) env s u s') :
    s'.frames.ancestors = s.frames.ancestors ∧ s'.frames.Plain s'.nextTemporary ∧ ∃ made inner last,
      s.Adds s' made (inner ++ last) ∧ CallsOnly made inner ∧ IsRepeat routine last ∧
        (flag = true → .call routine ∈ Node.instrsAll last) ∧
        ∀ p : Program, (∀ r ∈ made, p.routine? r.name = some r) →
          (∀ depth m, p.run engine (depth + 1) routine m =
            engine.execAll (p.run engine depth) (inner ++ last) m) →
          flag = true → ∀ depth σ (m : Machine World), m.Agrees env.settings shown s.frames.ancestors σ →
            m.Follows env.settings shown s.frames.ancestors s.nextTemporary
              (loopWithin depth cond block σ) (p.run engine depth routine m) := by
  cases flag with
  | false =>
    obtain ⟨-, rfl⟩ := yields_pure.mp h
    refine ⟨rfl, hs, [], [], [], .refl s, ?_, .never, by simp, by simp⟩
    simp [CallsOnly, Node.callsAll]
  | true =>
    obtain ⟨_, s1, hrun, h⟩ := yields_bind.mp h
    obtain ⟨again, s2, hcall, h⟩ := yields_bind.mp h
    obtain ⟨-, rfl⟩ := yields_pure.mp h
    obtain ⟨haround, made, nodes, hcarries⟩ := hbody s _ s1 hs hrun
    have hsame1 : s1.frames.ancestors = s.frames.ancestors := haround
    obtain ⟨⟨check, hcheck⟩, w, s3, hw, hagain⟩ :=
      callIf_checks engine shown hcond hcarries.plain hcall
    obtain ⟨quiet, last, rfl, hquiet, hrepeat, hcalls, -⟩ := hcheck.calls
    -- both checks are of the same condition in the same frames
    have halike : again = true := by
      have hvars : ∀ name key var, s1.frames.find? name = some (key, var) → var.value.IsScalar := by
        intro name key var hfind
        obtain ⟨f, hf, hvar⟩ := key_mem_of_findOn hfind
        exact ((hcarries.plain.frames _ hf).vars _ (Ordered.mem_of_get? hvar)).scalar
      have hlike := (Expr.alike_compile cond hcond (hsame1.trans hsame).symm hvars hw hv).1
      rw [hagain, hflag, hlike.mayHold]
    have hadds := hcarries.adds.trans hcheck.adds
    rw [append_nil, ← append_assoc] at hadds
    refine ⟨hcheck.frames.symm ▸ hsame1, ?_, made, nodes ++ quiet, last, hadds, ?_, hrepeat,
      fun _ => hcalls halike, fun p hp hroutine _ depth σ m hm => ?_⟩
    · rw [hcheck.frames]
      exact hcarries.plain.mono hcheck.adds.next_le
    · refine callsOnly_append.mpr ⟨hcarries.calls, ?_⟩
      simp [CallsOnly, hquiet]
    · rw [append_assoc] at hroutine
      refine follows_loopWithin hroutine (fun depth σ m hm => ?_) (fun σ m hm => ?_) depth σ m hm
      · have hfollows := hcarries.follows p hp depth σ m hm
        rwa [hsame1] at hfollows
      · obtain ⟨x, m', hx, -, hm', hkeeps, hexec⟩ := hcheck.follows σ m (hsame1 ▸ hm)
        refine ⟨x, m', hx, hsame1 ▸ hm', fun k hk => hkeeps k ?_, hexec⟩
        exact hk.trans_le hcarries.adds.next_le

theorem Realizes.loop : Realizes env engine shown Evolve (Compile.loop expand cond body span)
      (fun loop σ => do if (← cond.value σ.scopes).holds then loop cond block σ else return σ) := by
  intro s u s' hs hstep
  simp only [Compile.loop, yields_bind, yields_get, yields_freshRoutineName, yields_modify] at hstep
  obtain ⟨_, _, ⟨rfl, rfl⟩, routine, _, ⟨hroutine, rfl⟩, _, t, ht, hstep⟩ := hstep
  have hnew : routine ∉ s.routineNames := hroutine ▸ unusedName_notMem _ _
  have hnamed : s.Adds t [] [] := ht ▸ .of_draft rfl .refl (by simp) rfl (by simp)
  have htaken : routine ∈ t.routineNames := ht ▸ mem_cons_self
  have hframes : t.frames = s.frames := ht ▸ rfl
  have hnext : t.nextTemporary = s.nextTemporary := ht ▸ rfl
  have htPlain : t.frames.Plain t.nextTemporary := by rwa [hframes, hnext]
  obtain ⟨s1, hrun, rfl⟩ := yields_inRoutine.mp hstep
  obtain ⟨flag, _, hprevious, hrest⟩ := yields_bind.mp hrun
  obtain ⟨s2, hentry, rfl⟩ := yields_inPrevious.mp hprevious
  -- the check before the loop, with the buffer of the loop set aside
  obtain ⟨⟨check, hcheck⟩, v, s3, hv, hflag⟩ :=
    callIf_checks engine shown (s := { t with draft := t.draft.push.hide }) hcond htPlain hentry
  have hhidden : s2.draft.hidden = #[] :: t.draft.hidden := hcheck.adds.hidden
  have hunhide : s2.draft.unhide = Draft.push { s2.draft with hidden := t.draft.hidden } := by
    rw [Draft.unhide, hhidden]
    rfl
  have haside : t.Adds _ [] check := CompilerState.Adds.aside hcheck.adds
  rw [hunhide] at hrest
  have hsame2 : s2.frames.ancestors = s.frames.ancestors := by rw [hcheck.frames, hframes]
  have hs2 : s2.frames.Plain s2.nextTemporary := hcheck.frames.symm ▸ htPlain.mono hcheck.adds.next_le
  -- the body and the check after it, in the buffer of the loop
  obtain ⟨hsame, hplain, made, inner, last, hadds, hcalls, hrepeat, hself, hfollows⟩ :=
    rounds (s := { s2 with draft := Draft.push { s2.draft with hidden := t.draft.hidden } })
      (t := { t with draft := t.draft.push.hide }) hcond hbody hv hflag hs2
      (congrArg Frames.ancestors hcheck.frames) hrest
  obtain ⟨hnodes, hclosed⟩ := CompilerState.Adds.closeBuffer
    (s := { s2 with draft := { s2.draft with hidden := t.draft.hidden } }) hadds
  have hall : s.Adds { s1 with draft := s1.draft.pop.2 } made check := by
    simpa using (hnamed.trans haside).trans hclosed
  have hnames : routine ∈ s2.routineNames := haside.names htaken
  have hinstrs : ∀ next, Node.instrsAll last ⊆ Node.instrsAll (Node.numberAll next (inner ++ last)).2 := by
    intro next i hi
    rw [instrsAll_numberAll, instrsAll_append]
    exact mem_append_right _ hi
  have hloop : (s1.draft.pop.2.routineOf routine (inner ++ last) (some span)).IsLoop made := by
    obtain ⟨later, hlater⟩ := numberAll_append (s1.draft.pop.2.nextIndex + 1) inner last
    refine ⟨rfl, _, _, hlater, ?_, hrepeat.numberAll later⟩
    rw [CallsOnly, callsAll_numberAll]
    exact hcalls
  have hfinished := hall.finish hnew (hadds.names hnames)
    (fun r hr heq => (hadds.taken r hr).1 (heq ▸ hnames)) hadds.known hloop
  rw [hnodes]
  refine ⟨?_, _, check, hfinished, ?_, hplain, fun p hp depth σ m hm => ?_⟩
  · rw [hsame, hsame2]
    exact .refl _
  · -- the check calls the routine of the loop only if that calls itself
    obtain ⟨quiet, first, rfl, hquiet, hfirst, -, hempty⟩ := hcheck.calls
    intro callee hcallee
    rw [callsAll_append, hquiet, nil_append] at hcallee
    cases flag with
    | false => simp [hempty rfl, Node.callsAll] at hcallee
    | true =>
      refine ⟨_, mem_append_right _ (mem_singleton_self _), (hfirst.calls hcallee).1.symm, ?_⟩
      exact hinstrs _ (hself rfl)
  · obtain ⟨x, m', hx, hmay, hm', hkeeps, hexec⟩ := hcheck.follows σ m (hframes ▸ hm)
    rw [Expr.value, hx, hexec, hsame, hsame2]
    change m.Follows env.settings shown s.frames.ancestors s.nextTemporary
      (if x.holds then loopWithin depth cond block σ else .ok σ) _
    have hagrees : m'.Agrees env.settings shown s.frames.ancestors σ := hframes ▸ hm'
    have hkeeps' : m.KeepsBelow s.nextTemporary m' := hnext ▸ hkeeps
    split
    next hholds =>
      have hrounds := hfollows p (fun r hr => hp r (mem_append_left _ hr)) (fun depth m => ?_)
        (hmay hholds) depth σ m' (hsame2 ▸ hagrees)
      · rw [hsame2] at hrounds
        exact hrounds.of_keepsBelow (hnamed.trans haside).next_le hkeeps'
      · have hfind := hp _ (mem_append_right _ (mem_singleton_self _))
        exact (p.run_succ engine hfind depth m).trans (execAll_numberAll _ _ _ _ _)
    next => exact ⟨m', rfl, hagrees, hkeeps'⟩

end

end Compile

end Datapack
