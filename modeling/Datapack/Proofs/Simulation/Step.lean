import Datapack.Proofs.Simulation.Routine
import Datapack.Proofs.Simulation.State
import Datapack.Proofs.Temporaries.Stmt

/-!
Steps of a compilation that carry out actions of a run: running the nodes of a step does on the machine what the action
does in the run, and the machine agrees with the scopes again.
-/

namespace Datapack

open Syntax List

variable {s s' s'' : CompilerState} {made more : List Routine} {nodes others : List Node} {span scope : Span}
  {kind : ScopeKind} {low next : Nat} {new : List Instr} {World : Type} {m : Machine World} {settings : Settings}
  {shown : List (Option String)} {stack stack' : List (Nat × Frame)} {run : Except Stop Store} {engine : Engine World}

def Draft.routineOf (d : Draft) (name : String) (nodes : List Node) (location : Option Span) : Routine :=
  ⟨name, (Node.numberAll (d.nextIndex + 1) nodes).2, false, location, some d.nextIndex⟩

theorem Draft.routines_finish (d : Draft) (name : String) (nodes : List Node) (location : Option Span) :
    (d.finish name nodes location).routines.toList = d.routines.toList ++ [d.routineOf name nodes location] := by
  simp [finish, routineOf]

def Instr.isRaw : Instr → Bool
  | .raw _ => true
  | _ => false

theorem Instr.IsPlain.isRaw_eq_false {i : Instr} (h : i.IsPlain) : i.isRaw = false := by
  cases i with
  | raw _ => exact h.elim
  | _ => rfl

/-- Whether a step writes given nodes to the innermost buffer, and makes given routines under new names. None of
them has raw commands. -/
structure CompilerState.Adds (s s' : CompilerState) (made : List Routine) (nodes : List Node) : Prop where
  next_le : s.nextTemporary ≤ s'.nextTemporary
  hidden : s'.draft.hidden = s.draft.hidden
  buffers : ∀ top below, s.draft.buffers = top :: below → ∃ top',
    s'.draft.buffers = top' :: below ∧ top'.toList = top.toList ++ nodes
  routines : s'.draft.routines.toList = s.draft.routines.toList ++ made
  names : s.routineNames ⊆ s'.routineNames
  distinct : (made.map (·.name)).Nodup
  taken : ∀ r ∈ made, r.name ∉ s.routineNames ∧ r.name ∈ s'.routineNames
  chain : Routine.Chain made
  userInit : s'.userInit = s.userInit
  known : ∀ i ∈ Node.instrsAll nodes, i.isRaw = false
  knownMade : ∀ r ∈ made, ∀ i ∈ Node.instrsAll r.body, i.isRaw = false

namespace CompilerState.Adds

theorem of_draft (hdraft : s'.draft = s.draft.appendAll nodes) (hnext : s.nextTemporary ≤ s'.nextTemporary)
    (hnames : s.routineNames ⊆ s'.routineNames) (huserInit : s'.userInit = s.userInit)
    (hknown : ∀ i ∈ Node.instrsAll nodes, i.isRaw = false) : s.Adds s' [] nodes where
  next_le := hnext
  hidden := by rw [hdraft, Draft.hidden_appendAll]
  buffers top below hbuffers := hdraft ▸ Draft.appendAll_of_buffers hbuffers nodes
  routines := by rw [hdraft, Draft.routines_appendAll, append_nil]
  names := hnames
  distinct := nodup_nil
  taken := by simp
  chain := Routine.chain_nil
  userInit := huserInit
  known := hknown
  knownMade := by simp

theorem refl (s : CompilerState) : s.Adds s [] [] :=
  of_draft rfl .refl (List.Subset.refl _) rfl (by simp)

theorem trans (h : s.Adds s' made nodes) (h' : s'.Adds s'' more others) :
    s.Adds s'' (made ++ more) (nodes ++ others) where
  next_le := h.next_le.trans h'.next_le
  hidden := h'.hidden.trans h.hidden
  buffers top below hbuffers := by
    obtain ⟨top1, hbuffers1, htop1⟩ := h.buffers top below hbuffers
    obtain ⟨top2, hbuffers2, htop2⟩ := h'.buffers top1 below hbuffers1
    exact ⟨top2, hbuffers2, by rw [htop2, htop1, append_assoc]⟩
  routines := by rw [h'.routines, h.routines, append_assoc]
  names := List.Subset.trans h.names h'.names
  distinct := by
    rw [map_append]
    refine nodup_append.mpr ⟨h.distinct, h'.distinct, ?_⟩
    rintro _ hfirst _ hsecond rfl
    obtain ⟨r, hr, rfl⟩ := mem_map.mp hfirst
    obtain ⟨r', hr', hname⟩ := mem_map.mp hsecond
    exact (h'.taken r' hr').1 (hname ▸ (h.taken r hr).2)
  taken r hr := by
    cases mem_append.mp hr with
    | inl hr => exact ⟨(h.taken r hr).1, h'.names (h.taken r hr).2⟩
    | inr hr => exact ⟨fun hmem => (h'.taken r hr).1 (h.names hmem), (h'.taken r hr).2⟩
  chain := h.chain.append h'.chain
  userInit := h'.userInit.trans h.userInit
  known := by simpa [or_imp, forall_and] using ⟨h.known, h'.known⟩
  knownMade := forall_mem_append.mpr ⟨h.knownMade, h'.knownMade⟩

theorem append (h : s.Adds s' made nodes) {node : Node} (hnode : ∀ i ∈ node.instrs, i.isRaw = false) :
    s.Adds { s' with draft := s'.draft.append node } made (nodes ++ [node]) := by
  have hone : s'.Adds { s' with draft := s'.draft.append node } [] [node] :=
    of_draft rfl .refl (List.Subset.refl _) rfl (by simpa using hnode)
  simpa using h.trans hone

theorem closeBuffer (h : Adds { s with draft := s.draft.push } s' made nodes) :
    s'.draft.pop.1.toList = nodes ∧ s.Adds { s' with draft := s'.draft.pop.2 } made [] := by
  obtain ⟨top, hbuffers, htop⟩ := h.buffers #[] s.draft.buffers rfl
  rw [Draft.pop_of_buffers hbuffers]
  refine ⟨by simpa using htop, h.next_le, h.hidden, fun top' below houter => ?_, h.routines, h.names,
    h.distinct, h.taken, h.chain, h.userInit, by simp, h.knownMade⟩
  exact ⟨top', houter, by simp⟩

theorem finish {name : String} {location : Option Span} (h : s.Adds s' made others) (hname : name ∉ s.routineNames)
    (hname' : name ∈ s'.routineNames) (hmade : ∀ r ∈ made, r.name ≠ name)
    (hnodes : ∀ i ∈ Node.instrsAll nodes, i.isRaw = false)
    (hloop : (s'.draft.routineOf name nodes location).IsLoop made) :
    s.Adds { s' with draft := s'.draft.finish name nodes location }
      (made ++ [s'.draft.routineOf name nodes location]) others where
  next_le := h.next_le
  hidden := h.hidden
  buffers := h.buffers
  routines := by rw [Draft.routines_finish, h.routines, append_assoc]
  names := h.names
  distinct := by
    rw [map_append]
    refine nodup_append.mpr ⟨h.distinct, by simp, ?_⟩
    rintro _ hfirst _ hsecond rfl
    obtain ⟨r, hr, heq⟩ := mem_map.mp hfirst
    exact hmade r hr (heq.trans (mem_singleton.mp hsecond))
  taken r hr := by
    cases mem_append.mp hr with
    | inl hr => exact h.taken r hr
    | inr hr =>
      cases mem_singleton.mp hr
      exact ⟨hname, hname'⟩
  chain := h.chain.snoc hloop
  userInit := h.userInit
  known := h.known
  knownMade := by
    refine forall_mem_append.mpr ⟨h.knownMade, forall_mem_singleton.mpr ?_⟩
    rwa [Draft.routineOf, Node.instrsAll_numberAll]

theorem atLocation (h : Adds { s with location := span } s' made nodes) :
    s.Adds { s' with location := s.location } made nodes :=
  { h with }

theorem withFrames (h : s.Adds s' made nodes) (frames : Frames) : s.Adds { s' with frames } made nodes :=
  { h with }

theorem inFrame (h : Adds (Compile.opened kind scope s) s' made nodes) :
    s.Adds { s' with frames := s'.frames.pop.2 } made nodes :=
  { h with }

theorem aside {buffer : Array Node}
    (h : Adds { s with draft := { s.draft with hidden := buffer :: s.draft.hidden } } s' made nodes) :
    s.Adds { s' with draft := { s'.draft with hidden := s.draft.hidden } } made nodes :=
  { h with hidden := rfl }

end CompilerState.Adds

/-- Whether a step writes given instructions that compute scores, and that change only variables and the
temporaries from a given one on. -/
structure CompilerState.Computes (low : Nat) (s s' : CompilerState) (new : List Instr) : Prop where
  adds : s.Adds s' [] (new.map fun i => { Node.leaf i with location := some s.location })
  location : s'.location = s.location
  quiet : ∀ i ∈ new, i.IsQuiet
  target : ∀ i ∈ new, ∀ c, i.target? = some c → c.IsVariable ∨ ∃ k, low ≤ k ∧ c = .temporary k

namespace CompilerState.Computes

variable {less : Nat} {more : List Instr}

theorem refl (low : Nat) (s : CompilerState) : s.Computes low s [] :=
  ⟨.refl s, rfl, by simp, by simp⟩

section

variable (h : s.Computes low s' new)

include h

theorem mono (hle : less ≤ low) : s.Computes less s' new where
  adds := h.adds
  location := h.location
  quiet := h.quiet
  target i hi c hc := (h.target i hi c hc).imp_right fun ⟨k, hk, heq⟩ => ⟨k, by omega, heq⟩

theorem trans (h' : s'.Computes low s'' more) :
    s.Computes low s'' (new ++ more) where
  adds := by
    have hadds := h.adds.trans h'.adds
    rw [h.location] at hadds
    simpa using hadds
  location := h'.location.trans h.location
  quiet i hi := (mem_append.mp hi).elim (h.quiet i) (h'.quiet i)
  target i hi := (mem_append.mp hi).elim (h.target i) (h'.target i)

theorem withFrames (frames : Frames) : s.Computes low { s' with frames } new :=
  ⟨h.adds.withFrames frames, h.location, h.quiet, h.target⟩

end

theorem absorb {P : Cell → Prop} {e : Emission} (h : Emission.Writes P { nextTemporary := s.nextTemporary } e new)
    (hlow : low ≤ s.nextTemporary) (hP : ∀ c, P c → c.IsVariable ∨ ∃ k, low ≤ k ∧ c = .temporary k) :
    s.Computes low (Compile.absorb e s) new where
  adds := by
    have hplain : ∀ i ∈ new, i.IsPlain := fun i hi => (h.quiet i hi).isPlain
    refine .of_draft ?_ h.next_le (List.Subset.refl _) rfl ?_
    · obtain rfl : e.instrs.toList = new := by simpa using h.instrs
      rfl
    · rw [Node.instrsAll_leaves hplain]
      exact fun i hi => (hplain i hi).isRaw_eq_false
  location := rfl
  quiet := h.quiet
  target i hi c hc := by
    obtain hc | ⟨k, hk, -, rfl⟩ := h.target i hi c hc
    · exact hP c hc
    · exact .inr ⟨k, hlow.trans hk, rfl⟩

theorem callsAll_eq_nil (h : s.Computes low s' new) (location : Option Span) :
    Node.callsAll (new.map fun i => { Node.leaf i with location }) = [] := by
  have hquiet := h.quiet
  clear h
  induction new with
  | nil => rfl
  | cons i rest ih =>
    rw [map_cons, Node.callsAll, ih fun j hj => hquiet j (.tail _ hj), append_nil]
    cases i with
    | call _ => exact (hquiet _ (.head _)).elim
    | _ => rfl

variable (engine : Engine World)

section

variable (h : s.Computes low s' new)

include h

theorem execAll (call : String → Machine World → Option (Machine World)) (m : Machine World) :
    engine.execAll call (new.map fun i => { Node.leaf i with location := some s.location }) m =
      some (engine.steps m new) :=
  Engine.execAll_leaves (fun i hi => (h.quiet i hi).isPlain) call _ m

theorem cells_temporary (m : Machine World) {k : Nat} (hk : k < low) :
    (engine.steps m new).cells (.temporary k) = m.cells (.temporary k) := by
  refine (Engine.steps_of_isQuiet h.quiet m).1 _ fun i hi hc => ?_
  obtain hvariable | ⟨j, hj, heq⟩ := h.target i hi _ hc
  · exact hvariable.ne_temporary k rfl
  · have := Cell.temporary_injective heq
    omega

theorem hasConstants (hm : m.HasConstants) : (engine.steps m new).HasConstants := by
  intro value
  refine ((Engine.steps_of_isQuiet h.quiet m).1 _ fun i hi hc => ?_).trans (hm value)
  obtain hvariable | ⟨k, -, heq⟩ := h.target i hi _ hc
  · exact hvariable.ne_constant value rfl
  · exact Cell.constant_ne_temporary value k heq

theorem events (m : Machine World) : (engine.steps m new).events = m.events :=
  (Engine.steps_of_isQuiet h.quiet m).2.2

end

end CompilerState.Computes

namespace Machine

/-- Whether a machine agrees with a run: variables are where frames have them, constants are in their cells, and
the messages of the run were shown, after others that are given. -/
structure Agrees (settings : Settings) (shown : List (Option String)) (stack : List (Nat × Frame)) (σ : Store)
    (m : Machine World) : Prop where
  scopes : Frames.Agree m.cells stack σ.scopes
  constants : m.HasConstants
  output : m.events.map (Event.text? settings) = shown ++ σ.output.map some

def KeepsBelow (next : Nat) (m m' : Machine World) : Prop :=
  ∀ k, k < next → m'.cells (.temporary k) = m.cells (.temporary k)

/-- Whether the outcome on a machine is what becomes of a run. It agrees with the run if that ends, and there is
none if loops run for too long. Nothing goes wrong, and nothing is known if a truth value is shown. -/
def Follows (settings : Settings) (shown : List (Option String)) (stack : List (Nat × Frame)) (next : Nat)
    (m : Machine World) : Except Stop Store → Option (Machine World) → Prop
  | .ok σ, outcome => ∃ m', outcome = some m' ∧ m'.Agrees settings shown stack σ ∧ m.KeepsBelow next m'
  | .error .exhausted, outcome => outcome = none
  | .error .wrong, _ => False
  | .error .truthShown, _ => True

variable {more : Nat} {outcome : Option (Machine World)}

theorem Follows.of_keepsBelow {m' : Machine World} (h : m'.Follows settings shown stack more run outcome)
    (hle : next ≤ more) (hkeeps : m.KeepsBelow next m') : m.Follows settings shown stack next run outcome := by
  match run, h with
  | .ok σ, h =>
    obtain ⟨m'', houtcome, hagrees, hkeeps'⟩ := h
    refine ⟨m'', houtcome, hagrees, fun k hk => ?_⟩
    rw [hkeeps' k (by omega), hkeeps k hk]
  | .error .exhausted, h => exact h
  | .error .wrong, h => exact h
  | .error .truthShown, h => exact h

theorem Follows.bind {act : Store → Except Stop Store} {exec : Machine World → Option (Machine World)}
    (h : m.Follows settings shown stack next run outcome) (hle : next ≤ more)
    (h' : ∀ σ m', m'.Agrees settings shown stack σ → m.KeepsBelow next m' →
      m'.Follows settings shown stack' more (act σ) (exec m')) :
    m.Follows settings shown stack' next (run >>= act) (outcome.bind exec) := by
  match run, h with
  | .ok σ, h =>
    obtain ⟨m', rfl, hagrees, hkeeps⟩ := h
    exact (h' σ m' hagrees hkeeps).of_keepsBelow hle hkeeps
  | .error .exhausted, h =>
    obtain rfl : outcome = none := h
    rfl
  | .error .wrong, h => exact h.elim
  | .error .truthShown, _ => trivial

end Machine

theorem CompilerState.Computes.agrees {σ : Store} {scopes : List Scope} (h : s.Computes low s' new)
    (hm : m.Agrees settings shown stack σ) (hscopes : Frames.Agree (engine.steps m new).cells stack' scopes) :
    (engine.steps m new).Agrees settings shown stack' { σ with scopes } :=
  ⟨hscopes, h.hasConstants engine hm.constants, (congrArg _ (h.events engine m)).trans hm.output⟩

theorem CompilerState.Computes.follows_append {more : Nat} {call : String → Machine World → Option (Machine World)}
    (h : s.Computes low s' new) (hle : low ≤ more)
    (hrest : (engine.steps m new).Follows settings shown stack more run
      (engine.execAll call nodes (engine.steps m new))) :
    m.Follows settings shown stack low run (engine.execAll call
      ((new.map fun i => { Node.leaf i with location := some s.location }) ++ nodes) m) := by
  rw [Engine.execAll_append, h.execAll engine, Option.bind_some]
  exact hrest.of_keepsBelow hle fun k hk => h.cells_temporary engine m hk

/-- How the frames around one of a given kind may change: not at all if its code may run any number of times. -/
def Frames.Around (kind : ScopeKind) (stack stack' : List (Nat × Frame)) : Prop :=
  if kind.isStatic then Evolve stack stack' else stack' = stack

theorem Frames.Around.evolve (h : Around kind stack stack') : Evolve stack stack' := by
  rw [Around] at h
  split at h
  · exact h
  · exact h ▸ .refl stack

theorem Frames.Around.refl (kind : ScopeKind) (stack : List (Nat × Frame)) : Around kind stack stack := by
  rw [Around]
  split
  · exact .refl stack
  · rfl

theorem Frames.Plain.opened (h : s.frames.Plain next) (kind : ScopeKind) (scope : Span) :
    (Compile.opened kind scope s).frames.Plain next ∧
      ∃ key f, (Compile.opened kind scope s).frames.ancestors = (key, f) :: s.frames.ancestors ∧
        f.kind = kind ∧ f.vars = [] := by
  obtain ⟨key, f, hstack, hkind, -, hvars, -⟩ := Advances.stack_opened h.stack
  have hancestors := hstack.ancestors_eq
  refine ⟨⟨hancestors.symm ▸ hstack, fun e he => ?_⟩, key, f, hancestors, hkind, hvars⟩
  rw [hancestors] at he
  cases mem_cons.mp he with
  | inl heq =>
    subst heq
    exact ⟨by simp [hvars], by simp [hvars], by simp [hvars]⟩
  | inr he => exact h.frames e he

theorem Frames.Plain.pop {fs : Frames} {key : Nat} {f : Frame} (h : fs.Plain next) (hne : stack ≠ [])
    (hchange : Evolve ((key, f) :: stack) fs.ancestors) :
    fs.pop.2.Plain next ∧ Around f.kind stack fs.pop.2.ancestors ∧
      ∃ key' f', fs.ancestors = (key', f') :: fs.pop.2.ancestors := by
  obtain ⟨e, below, rfl⟩ := exists_cons_of_ne_nil hne
  have hstack := h.stack
  have hframes := h.frames
  match hancestors : fs.ancestors, hchange with
  | (key', f') :: rest, hchange =>
    obtain ⟨-, -, haround⟩ := hchange
    have haround : Around f.kind (e :: below) rest := haround
    match rest, haround.evolve with
    | (under, g) :: rest, _ =>
      rw [hancestors] at hstack hframes
      have hpop := hstack.pop
      rw [hpop.ancestors_eq]
      refine ⟨⟨hpop.ancestors_eq.symm ▸ hpop, fun e he => ?_⟩, haround, key', f', rfl⟩
      exact hframes e (.tail _ (hpop.ancestors_eq ▸ he))

namespace Compile

variable (env : Environment) (engine : Engine World) (shown : List (Option String))

/-- Whether what a step has written carries out an action of a run, where the routines it has made are found in
a program. -/
structure Carries (s s' : CompilerState) (made : List Routine) (nodes : List Node)
    (act : LoopRun → Store → Except Stop Store) : Prop where
  adds : s.Adds s' made nodes
  calls : Node.CallsOnly made nodes
  plain : s'.frames.Plain s'.nextTemporary
  follows : ∀ p : Program, (∀ r ∈ made, p.routine? r.name = some r) → ∀ depth σ (m : Machine World),
    m.Agrees env.settings shown s.frames.ancestors σ →
      m.Follows env.settings shown s'.frames.ancestors s.nextTemporary (act (loopWithin depth) σ)
        (engine.execAll (p.run engine depth) nodes m)

def Realizes (change : List (Nat × Frame) → List (Nat × Frame) → Prop) (step : Compile Unit)
    (act : LoopRun → Store → Except Stop Store) : Prop :=
  ∀ s u s', s.frames.Plain s.nextTemporary → step.Yields env s u s' →
    change s.frames.ancestors s'.frames.ancestors ∧
      ∃ made nodes, Carries env engine shown s s' made nodes act

variable {env engine shown} {change : List (Nat × Frame) → List (Nat × Frame) → Prop}
  {step next : Compile Unit} {act later : LoopRun → Store → Except Stop Store}

theorem Carries.trans (h : Carries env engine shown s s' made nodes act)
    (h' : Carries env engine shown s' s'' more others later) :
    Carries env engine shown s s'' (made ++ more) (nodes ++ others)
      fun loop σ => act loop σ >>= later loop where
  adds := h.adds.trans h'.adds
  calls := Node.callsOnly_append.mpr ⟨h.calls.mono (subset_append_left _ _),
    h'.calls.mono (subset_append_right _ _)⟩
  plain := h'.plain
  follows p hp depth σ m hm := by
    rw [Engine.execAll_append]
    refine (h.follows p (fun r hr => hp r (mem_append_left _ hr)) depth σ m hm).bind h.adds.next_le ?_
    intro σ' m' hm' _
    exact h'.follows p (fun r hr => hp r (mem_append_right _ hr)) depth σ' m' hm'

theorem Realizes.pure (hrefl : ∀ stack, change stack stack) :
    Realizes env engine shown change (Pure.pure ()) fun _ σ => .ok σ := by
  intro s u s' hs hstep
  obtain ⟨-, rfl⟩ := yields_pure.mp hstep
  refine ⟨hrefl _, [], [], .refl s, by simp [Node.CallsOnly, Node.callsAll], hs, ?_⟩
  intro p _ depth σ m hm
  exact ⟨m, rfl, hm, fun _ _ => rfl⟩

section

variable (h : Realizes env engine shown change step act)

include h

theorem Realizes.bind (htrans : ∀ {a b c}, change a b → change b c → change a c)
    (h' : Realizes env engine shown change next later) :
    Realizes env engine shown change (do step; next) fun loop σ => act loop σ >>= later loop := by
  intro s u s' hs hstep
  obtain ⟨_, s1, hfirst, hsecond⟩ := yields_bind.mp hstep
  obtain ⟨hchange, made, nodes, hcarries⟩ := h s _ s1 hs hfirst
  obtain ⟨hchange', more, others, hcarries'⟩ := h' s1 u s' hcarries.plain hsecond
  exact ⟨htrans hchange hchange', _, _, hcarries.trans hcarries'⟩

theorem Realizes.imp {other : List (Nat × Frame) → List (Nat × Frame) → Prop} (hchange : ∀ {a b}, change a b → other a b) :
    Realizes env engine shown other step act :=
  fun s u s' hs hstep => (h s u s' hs hstep).imp_left hchange

theorem Realizes.atLocation : Realizes env engine shown change (Compile.atLocation span step) act := by
  intro s u s' hs hstep
  obtain ⟨s1, hrun, rfl⟩ := yields_atLocation.mp hstep
  obtain ⟨hchange, made, nodes, hcarries⟩ := h { s with location := span } u s1 hs hrun
  exact ⟨hchange, made, nodes, hcarries.adds.atLocation, hcarries.calls, hcarries.plain, hcarries.follows⟩

end

theorem Realizes.inFrame (h : Realizes env engine shown Frames.Evolve step act) :
    Realizes env engine shown (Frames.Around kind) (Compile.inFrame kind scope step)
      fun loop σ => σ.inScope (act loop) := by
  intro s u s' hs hstep
  obtain ⟨s1, hrun, rfl⟩ := yields_inFrame.mp hstep
  obtain ⟨hopened, key, f, hancestors, hkind, hvars⟩ := hs.opened kind scope
  obtain ⟨hchange, made, nodes, hcarries⟩ := h _ u s1 hopened hrun
  have hne : s.frames.ancestors ≠ [] := fun hnil => by simpa [hnil] using hs.stack.current
  rw [hancestors] at hchange
  obtain ⟨hplain, haround, key', f', hancestors'⟩ := hcarries.plain.pop hne hchange
  refine ⟨hkind ▸ haround, made, nodes, hcarries.adds.inFrame, hcarries.calls, hplain, ?_⟩
  intro p hp depth σ m hm
  have hopen : m.Agrees env.settings shown (opened kind scope s).frames.ancestors
      { σ with scopes := [] :: σ.scopes } := by
    refine ⟨hancestors ▸ .cons ?_ hm.scopes, hm.constants, hm.output⟩
    rw [hvars]
    exact .nil
  have hbody := hcarries.follows p hp depth _ m hopen
  rw [hancestors'] at hbody
  rw [Store.inScope, ← Option.bind_fun_some (engine.execAll (p.run engine depth) nodes m)]
  refine hbody.bind .refl fun σ' m' hm' _ => ⟨m', rfl, ?_, fun _ _ => rfl⟩
  obtain ⟨scope, rest, -, hrest, hscopes⟩ := forall₂_cons_left_iff.mp hm'.scopes
  have htail : σ'.scopes.tail = rest := by rw [hscopes, tail_cons]
  exact ⟨htail.symm ▸ hrest, hm'.constants, hm'.output⟩

end Compile

end Datapack
