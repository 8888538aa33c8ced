import Datapack.Proofs.Likeness
import Datapack.Proofs.Simulation.Step

/-!
Expressions compute what they mean. The instructions of an expression write only temporaries that were taken for
it, so that what they compute for one operand is still there when the other one has been computed.
-/

namespace Datapack

open Syntax Compile

variable {low start : Nat} {c : Cell} {temporary : Bool} {World : Type} {s s' : CompilerState} {new : List Instr}
  {v : Value} {shown : List (Option String)} {env : Environment} {e : Emission}

/-- Whether a cell may be changed and is a temporary that was taken between two times, or may not be changed and
belongs to a variable, which can be a temporary before a given one. -/
def Cell.Fits (low start stop : Nat) (c : Cell) (temporary : Bool) : Prop :=
  (temporary = true ∧ ∃ k, start ≤ k ∧ k < stop ∧ c = .temporary k) ∨
    (temporary = false ∧ (c.IsVariable ∨ ∃ k, k < low ∧ c = .temporary k))

namespace Cell.Fits

variable {stop start' stop' : Nat}

theorem mono (h : c.Fits low start stop temporary) (hstart : start' ≤ start) (hstop : stop ≤ stop') :
    c.Fits low start' stop' temporary := by
  refine h.imp_left ?_
  rintro ⟨htemporary, k, hlow, hhigh, heq⟩
  exact ⟨htemporary, k, by omega, by omega, heq⟩

theorem before (h : c.Fits low start stop temporary) (hlow : low ≤ stop) : c.Before stop := by
  obtain ⟨-, k, -, hk, rfl⟩ | ⟨-, hvariable | ⟨k, hk, rfl⟩⟩ := h
  · exact Cell.temporary_before hk
  · exact hvariable.before stop
  · exact Cell.temporary_before (by omega)

end Cell.Fits

/-- Whether a step writes given instructions that compute scores, in temporaries that are taken for them. -/
structure CompilerState.Evaluates (s s' : CompilerState) (new : List Instr) : Prop where
  computes : s.Computes s.nextTemporary s' new
  frames : s'.frames = s.frames
  fresh : ∀ i ∈ new, ∀ c, i.target? = some c →
    ∃ k, s.nextTemporary ≤ k ∧ k < s'.nextTemporary ∧ c = .temporary k

namespace CompilerState.Evaluates

variable (engine : Engine World) {s'' : CompilerState} {more : List Instr} {m : Machine World}

theorem refl (s : CompilerState) : s.Evaluates s [] := ⟨.refl _ s, rfl, by simp⟩

section

variable (h : s.Evaluates s' new)

include h

theorem next_le : s.nextTemporary ≤ s'.nextTemporary := h.computes.adds.next_le

theorem trans (h' : s'.Evaluates s'' more) : s.Evaluates s'' (new ++ more) where
  computes := h.computes.trans (h'.computes.mono h.next_le)
  frames := h'.frames.trans h.frames
  fresh i hi c hc := by
    have hle := h.next_le
    have hle' := h'.next_le
    cases List.mem_append.mp hi with
    | inl hi =>
      obtain ⟨k, hlow, hhigh, heq⟩ := h.fresh i hi c hc
      exact ⟨k, hlow, by omega, heq⟩
    | inr hi =>
      obtain ⟨k, hlow, hhigh, heq⟩ := h'.fresh i hi c hc
      exact ⟨k, by omega, hhigh, heq⟩

theorem cells_eq (m : Machine World) (hc : c.Before s.nextTemporary) : (engine.steps m new).cells c = m.cells c := by
  refine (Engine.steps_of_isQuiet h.computes.quiet m).1 c fun i hi htarget => ?_
  obtain ⟨k, hk, -, heq⟩ := h.fresh i hi c htarget
  have := hc k heq
  omega

theorem means {x : Scalar} (hv : v.Means m.cells x)
    (hplaces : v.Places fun c _ => c.Before s.nextTemporary) : v.Means (engine.steps m new).cells x :=
  hv.congr (hplaces.mono fun _ _ hc => h.cells_eq engine m hc)

section

variable (hs : s.frames.Plain s.nextTemporary)

include hs

theorem agree {scopes : List Scope} (hagree : Frames.Agree m.cells s.frames.ancestors scopes) :
    Frames.Agree (engine.steps m new).cells s.frames.ancestors scopes := by
  refine hagree.congr fun e he v hv => ?_
  exact ((hs.frames e he).vars v hv).before.mono fun _ _ hc => h.cells_eq engine m hc

theorem plain : s'.frames.Plain s'.nextTemporary :=
  h.frames.symm ▸ hs.mono h.next_le

theorem agrees {settings : Settings} {σ : Store} (hm : m.Agrees settings shown s.frames.ancestors σ) :
    (engine.steps m new).Agrees settings shown s'.frames.ancestors σ :=
  h.frames.symm ▸ h.computes.agrees hm (h.agree engine hs hm.scopes)

end

end

end CompilerState.Evaluates

theorem Compile.Carries.after {engine : Engine World} {act : LoopRun → Store → Except Stop Store} {s1 : CompilerState}
    {made : List Routine} {nodes : List Node} (hnew : s.Evaluates s1 new) (hs : s.frames.Plain s.nextTemporary)
    (hadds : s1.Adds s' made nodes) (hcalls : Node.CallsOnly made nodes) (hplain : s'.frames.Plain s'.nextTemporary)
    (hfollows : ∀ p : Program, (∀ r ∈ made, p.routine? r.name = some r) → ∀ depth σ (m : Machine World),
      m.Agrees env.settings shown s.frames.ancestors σ →
        (engine.steps m new).Agrees env.settings shown s1.frames.ancestors σ →
          (engine.steps m new).Follows env.settings shown s'.frames.ancestors s1.nextTemporary
            (act (loopWithin depth) σ) (engine.execAll (p.run engine depth) nodes (engine.steps m new))) :
    Carries env engine shown s s' made
      ((new.map fun i => { Node.leaf i with location := some s.location }) ++ nodes) act where
  adds := hnew.computes.adds.trans hadds
  calls := by
    refine Node.callsOnly_append.mpr ⟨?_, hcalls⟩
    simp [Node.CallsOnly, hnew.computes.callsAll_eq_nil]
  plain := hplain
  follows p hp depth σ m hm :=
    hnew.computes.follows_append hnew.next_le (hfollows p hp depth σ m hm (hnew.agrees engine hs hm))

structure Syntax.Expr.Computed {World : Type} (engine : Engine World) (low : Nat) (e : Expr)
    (s s' : CompilerState) (v : Value) (new : List Instr) : Prop where
  evaluates : s.Evaluates s' new
  scalar : v.IsScalar
  places : v.Places (Cell.Fits low s.nextTemporary s'.nextTemporary)
  means : ∀ scopes (m : Machine World), Frames.Agree m.cells s.frames.ancestors scopes → m.HasConstants →
    ∃ x, e.eval? scopes = some x ∧ v.Means (engine.steps m new).cells x

theorem CompilerState.evaluates_absorb {before : List Instr} (h : s.Evaluates s' before)
    (hnew : Emission.Writes (Cell.Fits low s.nextTemporary s'.nextTemporary · true)
      { nextTemporary := s'.nextTemporary } e new) : s.Evaluates (Compile.absorb e s') (before ++ new) := by
  have hown : ∀ c, Cell.Fits low s.nextTemporary s'.nextTemporary c true →
      ∃ k, s.nextTemporary ≤ k ∧ k < s'.nextTemporary ∧ c = .temporary k := by
    rintro c (⟨-, hk⟩ | ⟨hfalse, -⟩)
    · exact hk
    · cases hfalse
  have hnext : s'.nextTemporary ≤ e.nextTemporary := hnew.next_le
  refine ⟨h.computes.trans (.absorb hnew h.next_le fun c hc => .inr ?_), h.frames, fun i hi c hc => ?_⟩
  · obtain ⟨k, hk, -, heq⟩ := hown c hc
    exact ⟨k, hk, heq⟩
  · cases List.mem_append.mp hi with
    | inl hi =>
      obtain ⟨k, hlow, hhigh, heq⟩ := h.fresh i hi c hc
      exact ⟨k, hlow, hhigh.trans_le hnext, heq⟩
    | inr hi =>
      obtain hown' | ⟨k, hlow, hhigh, heq⟩ := hnew.target i hi c hc
      · obtain ⟨k, hlow, hhigh, heq⟩ := hown c hown'
        exact ⟨k, hlow, hhigh.trans_le hnext, heq⟩
      · exact ⟨k, h.next_le.trans hlow, hhigh, heq⟩

theorem Cell.Fits.of_offers (hstart : start ≤ s.nextTemporary) (hnext : s.nextTemporary ≤ e.nextTemporary)
    (h : Emission.Offers (Cell.Fits low start s.nextTemporary) { nextTemporary := s.nextTemporary } e c temporary) :
    c.Fits low start e.nextTemporary temporary := by
  obtain h | ⟨htemporary, k, hlow, hhigh, heq⟩ := h
  · exact h.mono .refl hnext
  · exact .inl ⟨htemporary, k, hstart.trans hlow, hhigh, heq⟩

namespace Syntax

variable (engine : Engine World) {expand : Expansion}

theorem Expr.computed_var {name : String} {span : Span} (hname : isPlainName name = true) (hs : s.frames.Plain low)
    (h : (Compile.readName name span).Yields env s v s') : Expr.Computed engine low (.var name span) s s' v [] := by
  simp only [Compile.readName, yields_bind, yields_frames] at h
  obtain ⟨_, _, ⟨rfl, rfl⟩, h⟩ := h
  split at h
  next key var hfind =>
    obtain ⟨rfl, rfl⟩ := yields_pure.mp h
    obtain ⟨f, hf, hvar⟩ := Frames.key_mem_of_findOn hfind
    have hplain := (hs.frames _ hf).vars _ (Ordered.mem_of_get? hvar)
    refine ⟨.refl s, hplain.scalar, hplain.places.mono fun c t hc => .inr hc, fun scopes m hagree _ => ?_⟩
    exact hagree.findOn_eq_some hfind
  next =>
    simp only [isPlainName, Option.isNone_iff_eq_none] at hname
    simp [hname] at h

theorem Expr.computed_compile (e : Expr) (he : e.isCore = true) {s s' : CompilerState} {v : Value}
    (hlow : low ≤ s.nextTemporary) (hs : s.frames.Plain low) (h : (e.compile expand).Yields env s v s') :
    ∃ new, Expr.Computed engine low e s s' v new := by
  match e, he with
  | .int n span, _ =>
    rw [compile] at h
    obtain ⟨rfl, rfl⟩ := yields_pure.mp h
    exact ⟨[], .refl s, trivial, trivial, fun scopes m _ _ => ⟨.number n, rfl, rfl⟩⟩
  | .bool b span, _ =>
    rw [compile] at h
    obtain ⟨rfl, rfl⟩ := yields_pure.mp h
    exact ⟨[], .refl s, trivial, trivial, fun scopes m _ _ => ⟨.truth b, rfl, rfl⟩⟩
  | .var name span, he =>
    rw [compile] at h
    exact ⟨[], computed_var engine he hs h⟩
  | .unary op operand span, he =>
    rw [compile] at h
    obtain ⟨a, s1, ha, h⟩ := yields_bind.mp h
    obtain ⟨e, hop, rfl⟩ := yields_tryEmitting.mp h
    obtain ⟨new, hoperand⟩ := computed_compile operand he hlow hs ha
    obtain ⟨more, hmore, hscalar, hplaces, hmeans⟩ :=
      Value.unary_means engine hoperand.scalar hoperand.places hop
    refine ⟨new ++ more, CompilerState.evaluates_absorb hoperand.evaluates hmore, hscalar,
      hplaces.mono fun c t => .of_offers hoperand.evaluates.next_le hmore.next_le, ?_⟩
    intro scopes m hagree hconstants
    obtain ⟨x, hx, hxmeans⟩ := hoperand.means scopes m hagree hconstants
    obtain ⟨r, hr, hrmeans⟩ := hmeans _ (hoperand.evaluates.computes.hasConstants engine hconstants) x hxmeans
    refine ⟨r, by rw [eval?, hx, Option.bind_some, hr], ?_⟩
    rwa [Engine.steps_append]
  | .binary left op right span, he =>
    simp only [isCore, Bool.and_eq_true] at he
    rw [compile] at h
    obtain ⟨a, s1, ha, h⟩ := yields_bind.mp h
    obtain ⟨b, s2, hb, h⟩ := yields_bind.mp h
    obtain ⟨e, hop, rfl⟩ := yields_tryEmitting.mp h
    obtain ⟨new, hleft⟩ := computed_compile left he.1.1 hlow hs ha
    have hle := hleft.evaluates.next_le
    obtain ⟨more, hright⟩ := computed_compile right he.2 (hlow.trans hle)
      (hleft.evaluates.frames.symm ▸ hs) hb
    have hle' := hright.evaluates.next_le
    have hboth := hleft.evaluates.trans hright.evaluates
    obtain ⟨last, hlast, hscalar, hplaces, hmeans⟩ := Value.binary_means engine he.1.2
      (fun c t hc => hc.before (by omega)) hleft.scalar hright.scalar
      (hleft.places.mono fun c t hc => hc.mono .refl hle')
      (hright.places.mono fun c t hc => hc.mono hle .refl) hop
    refine ⟨(new ++ more) ++ last, CompilerState.evaluates_absorb hboth hlast, hscalar,
      hplaces.mono fun c t => .of_offers hboth.next_le hlast.next_le, ?_⟩
    intro scopes m hagree hconstants
    obtain ⟨x, hx, hxmeans⟩ := hleft.means scopes m hagree hconstants
    have hconstants1 := hleft.evaluates.computes.hasConstants engine hconstants
    have hagree1 := hleft.evaluates.agree engine (hs.mono hlow) hagree
    obtain ⟨y, hy, hymeans⟩ := hright.means scopes _ (hleft.evaluates.frames.symm ▸ hagree1) hconstants1
    -- the left operand is still there after the right one has been computed
    have hxmeans' := hright.evaluates.means engine hxmeans
      (hleft.places.mono fun c t hc => hc.before (hlow.trans hle))
    obtain ⟨r, hr, hrmeans⟩ := hmeans _ (hright.evaluates.computes.hasConstants engine hconstants1) x y hxmeans' hymeans
    refine ⟨r, by simp [eval?, hx, hy, hr], ?_⟩
    rwa [Engine.steps_append, Engine.steps_append]

end Syntax

end Datapack
