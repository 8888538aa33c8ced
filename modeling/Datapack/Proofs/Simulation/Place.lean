import Datapack.Proofs.Simulation.Expr

/-!
Variables get the values that are assigned to them: at their slots, or by binding them to new values, which the compiler
does only where the code between runs exactly once. No other variable is changed, as no two of them share a cell.
-/

namespace Datapack

open Syntax List Cell Ordered Value Frames CompilerState

variable {next key low start : Nat} {f : Frame} {name : String} {var : Variable} {e : Emission} {value : Value}

namespace Frames

variable {fs : Frames}

theorem Plain.places_of_ne (h : fs.Plain next) (hf : (key, f) ∈ fs.ancestors) {e : Nat × Frame}
    (he : e ∈ fs.ancestors) {v : String × Variable} (hv : v ∈ e.2.vars) (hne : e.1 = key → v.1 ≠ name) :
    v.2.value.Places fun c _ => c.Before next ∧ c ≠ (Slot.ofVariable f.id name).cell := by
  have hplain := (h.frames e he).vars v hv
  cases hslot : v.2.slot with
  | none =>
    refine (hplain.held hslot).mono ?_
    rintro _ _ ⟨-, k, hk, rfl⟩
    exact ⟨temporary_before hk, Ne.symm ((isVariable_ofVariable f.id name).ne_temporary k)⟩
  | some slot =>
    obtain ⟨rfl, hlives⟩ := hplain.stored slot hslot
    refine hlives.places ⟨(isVariable_ofVariable _ _).before next, fun heq => ?_⟩
    obtain ⟨hid, hname⟩ := ofVariable_injective heq
    have hsame : e = (key, f) := inj_on_of_nodup_map h.stack.ids he hf hid
    exact hne (congrArg Prod.fst hsame) hname

theorem evolve_changeAt {change : Frame → Frame} (hkind : ∀ f, (change f).kind = f.kind) {stack : List (Nat × Frame)}
    (hdistinct : (stack.map (·.1)).Nodup) (hstatic : ∀ e ∈ stack.takeWhile (·.1 != key), e.2.kind.isStatic = true) :
    Evolve stack (stack.map (changeAt key change)) := by
  induction stack with
  | nil => trivial
  | cons e rest ih =>
    obtain ⟨k, f⟩ := e
    obtain ⟨hnot, hdistinct⟩ := nodup_cons.mp hdistinct
    by_cases heq : k = key
    · subst heq
      rw [map_cons, map_changeAt_of_notMem hnot, changeAt, if_pos rfl]
      refine ⟨rfl, hkind f, ?_⟩
      split
      · exact .refl rest
      · rfl
    · rw [takeWhile_cons_of_pos (by simpa using heq)] at hstatic
      rw [map_cons, changeAt, if_neg heq]
      refine ⟨rfl, rfl, ?_⟩
      rw [if_pos (hstatic _ mem_cons_self)]
      exact ih hdistinct fun e he => hstatic e (.tail _ he)

def rebound (key : Nat) (name : String) (value : Value) (fs : Frames) : Frames :=
  fs.modify key fun f => { f with vars := Ordered.modify name (fun v => { v with value }) f.vars }

section

variable (h : fs.Plain next)

include h

theorem Plain.ancestors_rebound (value : Value) :
    (fs.rebound key name value).Stack (fs.rebound key name value).ancestors ∧
      (fs.rebound key name value).ancestors = fs.ancestors.map (changeAt key fun f =>
        { f with vars := Ordered.modify name (fun v => { v with value }) f.vars }) := by
  have hstack : (fs.rebound key name value).Stack (fs.ancestors.map (changeAt key fun f =>
      { f with vars := Ordered.modify name (fun v => { v with value }) f.vars })) :=
    h.stack.modify key (fun _ => rfl) fun _ => rfl
  exact ⟨hstack.ancestors_eq.symm ▸ hstack, hstack.ancestors_eq⟩

theorem Plain.eq_of_key {g : Frame} (hf : (key, f) ∈ fs.ancestors) (hg : (key, g) ∈ fs.ancestors) : g = f :=
  congrArg Prod.snd (inj_on_of_nodup_map h.stack.distinct hg hf rfl)

theorem Plain.ancestors_rebound_self (hf : (key, f) ∈ fs.ancestors)
    (hget : Ordered.get? name f.vars = some var) : (fs.rebound key name var.value).ancestors = fs.ancestors := by
  rw [(h.ancestors_rebound var.value).2]
  refine (map_congr_left fun e he => ?_).trans (map_id _)
  obtain ⟨k, g⟩ := e
  rw [changeAt]
  split
  next heq =>
    subst heq
    cases h.eq_of_key hf he
    rw [modify_eq_self hget rfl]
    rfl
  next => rfl

theorem Plain.evolve_rebound (value : Value) (hstatic : fs.isDynamicBelow key = false) :
    Evolve fs.ancestors (fs.rebound key name value).ancestors := by
  rw [(h.ancestors_rebound value).2]
  refine evolve_changeAt ?_ h.stack.distinct fun e he => ?_
  · exact fun _ => rfl
  · rw [isDynamicBelow, firstDynamic?, Option.isSome_eq_false_iff, Option.isNone_iff_eq_none] at hstatic
    simpa using find?_eq_none.mp hstatic e.2 (mem_map_of_mem he)

theorem Plain.rebound {more : Nat} (hle : next ≤ more) (hf : (key, f) ∈ fs.ancestors)
    (hget : Ordered.get? name f.vars = some var)
    (hvar : { var with value }.Plain f.id name more) : (fs.rebound key name value).Plain more := by
  obtain ⟨hstack, hancestors⟩ : (fs.rebound key name value).Stack _ ∧ _ := h.ancestors_rebound value
  refine ⟨hstack, fun e he => ?_⟩
  rw [hancestors] at he
  obtain ⟨⟨k, g⟩, hg, rfl⟩ := mem_map.mp he
  have hplain := (h.frames _ hg).mono hle
  rw [changeAt]
  split
  next heq =>
    subst heq
    cases h.eq_of_key hf hg
    refine ⟨?_, fun x hx => ?_, fun x hx => ?_⟩
    · rw [keys_modify]
      exact hplain.names
    · obtain hx | ⟨_, _, rfl⟩ := of_mem_modify hx
      · exact hplain.plainName x hx
      · exact hplain.plainName (name, var) (mem_of_get? hget)
    · obtain hx | ⟨old, hold, rfl⟩ := of_mem_modify hx
      · exact hplain.vars x hx
      · obtain rfl : var = old := Option.some.inj (hget.symm.trans hold)
        exact hvar
  next => exact hplain

end

end Frames

variable {v : Value} {cell : Cell} {temporary : Bool} {w : Value}

theorem Value.IsScalar.mark (h : v.IsScalar) (temporary : Bool) : (v.mark temporary).IsScalar := by
  match v, h with
  | .number _, _ | .bool _, _ => trivial

theorem Value.LivesAt.mark (h : v.LivesAt cell temporary) (other : Bool) : (v.mark other).LivesAt cell other := by
  match v, h with
  | .number _, rfl | .bool _, rfl => rfl

theorem Value.LivesAt.isScalar (h : v.LivesAt cell temporary) : v.IsScalar := by
  match v, h with
  | .number _, _ | .bool _, _ => trivial

theorem Value.LivesAt.pinned_eq (hv : v.LivesAt cell false) (hw : w.LivesAt cell temporary)
    (hkind : w.kind = v.kind) : w.pinned = v := by
  match v, w, hv, hw with
  | .number _, .number _, rfl, rfl | .bool _, .bool _, rfl, rfl => rfl
  | .number _, .bool _, _, _ | .bool _, .number _, _, _ => cases hkind

theorem Value.IsScalar.kind_eq_of_accepts (hv : v.IsScalar) (hw : w.IsScalar)
    (h : v.kind.accepts w.kind = true) : w.kind = v.kind := by
  match v, w, hv, hw with
  | .number _, .number _, _, _ | .bool _, .bool _, _, _ => rfl
  | .number _, .bool _, _, _ | .bool _, .number _, _, _ => cases h

theorem Cell.Before.not_fresh {c : Cell} {e' : Emission} (h : c.Before low)
    (hle : low ≤ e.nextTemporary) : ¬ e.Fresh e' c := by
  rintro ⟨k, hk, -, heq⟩
  have := h k heq
  omega

theorem Value.held_of_detached (hnext : next ≤ e.nextTemporary)
    (h : v.Places fun c _ => Emission.Available (Fits low start next · true) { nextTemporary := next } e c) :
    v.pinned.Places fun c t => t = false ∧ ∃ k, k < e.nextTemporary ∧ c = .temporary k := by
  refine places_mark (fun c _ hc => ⟨rfl, ?_⟩) h
  obtain (⟨-, k, -, hk, rfl⟩ | ⟨hfalse, -⟩) | ⟨k, -, hk, rfl⟩ := hc
  · exact ⟨k, hk.trans_le hnext, rfl⟩
  · cases hfalse
  · exact ⟨k, hk, rfl⟩

/-- Whether a step gives a variable the value that was computed for it, by given instructions. The frames agree
with the scopes after an assignment if they agreed with those before it on a machine with the same words in given
cells. -/
structure CompilerState.Rebinds {World : Type} (engine : Engine World) (low : Nat) (kept : Cell → Prop)
    (value : Value) (assign : Scalar → List Scope → List Scope) (s s' : CompilerState) (new : List Instr) :
    Prop where
  computes : s.Computes low s' new
  plain : s'.frames.Plain s'.nextTemporary
  evolve : Evolve s.frames.ancestors s'.frames.ancestors
  agree : ∀ cells scopes (m : Machine World) x, Agree cells s.frames.ancestors scopes →
    (∀ c, kept c → m.cells c = cells c) → value.Means m.cells x →
      Agree (engine.steps m new).cells s'.frames.ancestors (assign x scopes)

namespace Compile

variable {World : Type} (engine : Engine World) {env : Environment} {s s' : CompilerState} {span : Span} {u : Unit}
  {s1 : CompilerState} {new : List Instr} {e : Expr}

theorem ancestors_of_bindNew (hs : s.frames.Plain next) (h : (bindNew name var span).Yields env s u s') :
    ∃ key f rest fs, s' = { s with frames := fs } ∧ s.frames.ancestors = (key, f) :: rest ∧
      s.frames.top = f ∧ name ∉ f.vars.map (·.1) ∧
      fs.ancestors = (key, { f with vars := f.vars ++ [(name, var)] }) :: rest ∧
      (isPlainName name = true → var.Plain f.id name next → fs.Plain next) := by
  simp only [bindNew, yields_bind, yields_frames] at h
  obtain ⟨_, _, ⟨rfl, rfl⟩, h⟩ := h
  have hstack := hs.stack
  obtain ⟨⟨key, f⟩, rest, hancestors⟩ : ∃ e rest, s.frames.ancestors = e :: rest := by
    cases hancestors : s.frames.ancestors with
    | nil => simpa [hancestors] using hstack.current
    | cons e rest => exact ⟨e, rest, rfl⟩
  rw [hancestors] at hstack
  have htop := hstack.top_eq
  rw [Frames.bind, htop] at h
  split at h
  next fs hbind =>
    split at hbind
    · cases hbind
    next hget =>
      cases hbind
      cases yields_modifyFrames.mp h
      have hchanged : (s.frames.modifyTop fun f => { f with vars := f.vars ++ [(name, var)] }).Stack
          ((key, { f with vars := f.vars ++ [(name, var)] }) :: rest) :=
        hstack.modifyTop (fun _ => rfl) fun _ => rfl
      have hnot := get?_eq_none_iff.mp hget
      refine ⟨key, f, rest, _, rfl, hancestors, htop, hnot, hchanged.ancestors_eq, fun hname hvar => ?_⟩
      refine ⟨hchanged.ancestors_eq.symm ▸ hchanged, fun e he => ?_⟩
      rw [hchanged.ancestors_eq] at he
      cases mem_cons.mp he with
      | inr he => exact hs.frames e (hancestors ▸ mem_cons_of_mem _ he)
      | inl heq =>
        subst heq
        have hf := hs.frames (key, f) (hancestors ▸ mem_cons_self)
        refine ⟨?_, ?_, ?_⟩
        · rw [map_append]
          refine nodup_append.mpr ⟨hf.names, by simp, ?_⟩
          rintro other hfirst _ hsecond rfl
          have heq : other = name := mem_singleton.mp hsecond
          exact hnot (heq ▸ hfirst)
        · exact fun x hx => (mem_append.mp hx).elim (hf.plainName x)
            fun hx => mem_singleton.mp hx ▸ hname
        · intro x hx
          cases mem_append.mp hx with
          | inl hx => exact hf.vars x hx
          | inr hx =>
            cases mem_singleton.mp hx
            exact hvar
  next => exact absurd h not_yields_fail

theorem rebinds_bindNew (hname : isPlainName name = true) (hs : s.frames.Plain low) (hlow : low ≤ s.nextTemporary)
    (hnew : s.Computes low s1 new) (hframes : s1.frames = s.frames)
    (hvar : var.Plain s.frames.top.id name s1.nextTemporary)
    (hcells : ∀ (m : Machine World) c, c.Before low → c ≠ (Slot.ofVariable s.frames.top.id name).cell →
      (engine.steps m new).cells c = m.cells c)
    (hmeans : ∀ (m : Machine World) x, value.Means m.cells x → var.value.Means (engine.steps m new).cells x)
    (h : (bindNew name var span).Yields env s1 u s') :
    Rebinds engine low (Before low) value (Scope.declare name) s s' new := by
  have hle : s.nextTemporary ≤ s1.nextTemporary := hnew.adds.next_le
  have hs1 : s1.frames.Plain s1.nextTemporary := hframes.symm ▸ hs.mono (hlow.trans hle)
  obtain ⟨key, f, rest, fs, rfl, hancestors, rfl, hnot, hancestors', hplain⟩ := ancestors_of_bindNew hs1 h
  rw [hframes] at hancestors hancestors' hplain hnot
  refine ⟨hnew.withFrames fs, hplain hname hvar, ?_, fun cells scopes m x hagree hsame hx => ?_⟩
  · rw [hancestors, hancestors']
    refine ⟨rfl, rfl, ?_⟩
    split
    · exact .refl rest
    · rfl
  have hkept : ∀ e ∈ s.frames.ancestors, ∀ v ∈ e.2.vars, (e.1 = key → v.1 ≠ name) →
      v.2.value.Places fun c _ => (engine.steps m new).cells c = cells c := by
    intro e he v hv hne
    refine (hs.places_of_ne (hancestors ▸ mem_cons_self) he hv hne).mono fun c _ hc => ?_
    exact (hcells m c hc.1 hc.2).trans (hsame c hc.1)
  have hkeys := hs.stack.distinct
  rw [hancestors] at hagree hkept hkeys
  obtain ⟨scope, others, hfirst, hrest, rfl⟩ := forall₂_cons_left_iff.mp hagree
  rw [hancestors']
  refine .cons (rel_append (Variable.Agree.congr hfirst fun v hv => ?_) (.cons ⟨rfl, hmeans m x hx⟩ .nil))
    (Agree.congr hrest fun e he v hv => ?_)
  · refine hkept _ (.head _) v hv fun _ heq => hnot ?_
    exact mem_map.mpr ⟨v, hv, heq⟩
  · refine hkept e (.tail _ he) v hv fun heq => ?_
    exact absurd (mem_map.mpr ⟨e, he, heq⟩) (nodup_cons.mp hkeys).1

theorem declare_rebinds (hname : isPlainName name = true) (hs : s.frames.Plain low) (hlow : low ≤ s.nextTemporary)
    (hscalar : value.IsScalar) (hplaces : value.Places (Fits low start s.nextTemporary))
    (h : (declare name value span false).Yields env s u s') :
    ∃ new, Rebinds engine low (Before low) value (Scope.declare name) s s' new := by
  simp only [declare, yields_bind, yields_frames, yields_read] at h
  obtain ⟨_, _, ⟨rfl, rfl⟩, _, _, ⟨rfl, rfl⟩, h⟩ := h
  split at h
  next =>
    obtain ⟨stored, _, hemit, hbind⟩ := yields_bind.mp h
    obtain ⟨e, hstore, rfl⟩ := yields_tryEmitting.mp hemit
    obtain ⟨new, hnew, -, hlives, -, hmeans⟩ := store_means engine hscalar hstore
    have hcomputes : s.Computes low (absorb e s) new :=
      .absorb hnew hlow fun c hc => .inl (hc ▸ isVariable_ofVariable _ _)
    refine ⟨new, rebinds_bindNew engine hname hs hlow hcomputes rfl ⟨rfl, ?_, by simp, ?_⟩ ?_ ?_ hbind⟩
    · exact hlives.isScalar.mark false
    · rintro _ ⟨⟩
      exact ⟨rfl, hlives.mark false⟩
    · exact fun m c hc hne => hnew.cells_eq m hne (hc.not_fresh hlow)
    · exact fun m x hx => (means_mark false).mpr (hmeans m x hx)
  next =>
    obtain ⟨held, _, hemit, hbind⟩ := yields_bind.mp h
    obtain ⟨e, hdetach, rfl⟩ := yields_tryEmitting.mp hemit
    obtain ⟨new, hnew, hheld, hplaces', hmeans⟩ := detach_means engine hscalar hplaces hdetach
    have hcomputes : s.Computes low (absorb e s) new := .absorb hnew hlow fun c hc => hc.elim
    refine ⟨new, rebinds_bindNew engine hname hs hlow hcomputes rfl ⟨rfl, hheld.mark false, fun _ => ?_, by simp⟩
      ?_ ?_ hbind⟩
    · exact held_of_detached hnew.next_le hplaces'
    · exact fun m c hc _ => hnew.cells_eq m id (hc.not_fresh hlow)
    · exact fun m x hx => (means_mark false).mpr (hmeans m x hx)

theorem rebinds_rebound {updated : Value} (hs : s.frames.Plain low) (hlow : low ≤ s.nextTemporary)
    (hfind : s.frames.find? name = some (key, var)) (hf : (key, f) ∈ s.frames.ancestors)
    (hget : Ordered.get? name f.vars = some var) (hnew : s.Computes low s1 new)
    (hvar : { var with value := updated }.Plain f.id name s1.nextTemporary)
    (hevolve : Evolve s.frames.ancestors (s.frames.rebound key name updated).ancestors)
    (hcells : ∀ (m : Machine World) c, c.Before low → (∀ slot, var.slot = some slot → c ≠ slot.cell) →
      (engine.steps m new).cells c = m.cells c)
    (hmeans : ∀ (m : Machine World) x, value.Means m.cells x → updated.Means (engine.steps m new).cells x) :
    Rebinds engine low
      (fun c => c.Before low ∧ ∀ slot, var.slot = some slot → c ≠ slot.cell) value (Scope.assign name) s
      { s1 with frames := s.frames.rebound key name updated } new := by
  refine ⟨hnew.withFrames _, hs.rebound (hlow.trans hnew.adds.next_le) hf hget hvar, hevolve, ?_⟩
  intro cells scopes m x hagree hsame hx
  obtain ⟨scopes', hscopes', hagree'⟩ := hagree.replace hs.stack.distinct (fun e he => (hs.frames e he).names) hfind
    (hmeans m x hx) fun e he v hv hne => (hs.places_of_ne hf he hv hne).mono fun c _ hc => by
      have hslot : ∀ slot, var.slot = some slot → c ≠ slot.cell := by
        intro slot hslot
        obtain ⟨rfl, -⟩ := ((hs.frames _ hf).vars _ (mem_of_get? hget)).stored slot hslot
        exact hc.2
      exact (hcells m c hc.1 hslot).trans (hsame c ⟨hc.1, hslot⟩)
  rw [Scope.assign, hscopes', Option.getD_some, (hs.ancestors_rebound updated).2]
  exact hagree'

theorem yields_assign {path : List Selector} (hfind : s.frames.find? name = some (key, var)) :
    (assign name path value span).Yields env s u s' ↔
      var.constant = false ∧ (var.slot = none → s.frames.isDynamicBelow key = false) ∧
        ∃ updated s1, (replace value span path var.value var.slot).Yields env s updated s1 ∧
          s' = { s1 with frames := s.frames.rebound key name updated.pinned } := by
  have hrebind : ∀ {updated : Value} {s1 : CompilerState},
      (replace value span path var.value var.slot).Yields env s updated s1 →
        s1.frames.rebind name updated.pinned = .ok (s.frames.rebound key name updated.pinned) := by
    intro updated s1 hreplace
    rw [frames_replace hreplace, Frames.rebind, hfind]
    rfl
  simp only [assign, yields_bind, yields_frames]
  constructor
  · rintro ⟨_, _, ⟨rfl, rfl⟩, h⟩
    rw [hfind] at h
    simp only [yields_bind, yields_ite, not_yields_fail, yields_frames, false_and, exists_false, and_false,
      false_or] at h
    obtain ⟨hconstant, _, _, ⟨rfl, rfl⟩, hdynamic, updated, s1, hreplace, _, _, ⟨rfl, rfl⟩, h⟩ := h
    rw [hrebind hreplace] at h
    refine ⟨by simpa using hconstant, fun hslot => ?_, updated, s1, hreplace, yields_modifyFrames.mp h⟩
    simpa [hslot] using hdynamic
  · rintro ⟨hconstant, hdynamic, updated, s1, hreplace, rfl⟩
    refine ⟨_, _, ⟨rfl, rfl⟩, ?_⟩
    rw [hfind]
    simp only [yields_bind, yields_ite, not_yields_fail, yields_frames, false_and, exists_false, and_false, false_or]
    refine ⟨by simp [hconstant], _, _, ⟨rfl, rfl⟩, ?_, updated, s1, hreplace, _, _, ⟨rfl, rfl⟩, ?_⟩
    · cases hslot : var.slot with
      | none => simp [hdynamic hslot]
      | some => simp
    · rw [hrebind hreplace]
      exact yields_modifyFrames.mpr rfl

/-- Assigning to a variable that is bound already. A slot may have been changed before by what computed the
value. -/
theorem assign_found_rebinds (hs : s.frames.Plain low) (hlow : low ≤ s.nextTemporary)
    (hfind : s.frames.find? name = some (key, var)) (hscalar : value.IsScalar)
    (hplaces : var.slot = none → value.Places (Fits low start s.nextTemporary))
    (h : (assign name [] value span).Yields env s u s') :
    ∃ new, Rebinds engine low
      (fun c => c.Before low ∧ ∀ slot, var.slot = some slot → c ≠ slot.cell) value (Scope.assign name) s s' new := by
  obtain ⟨f, hf, hget⟩ := key_mem_of_findOn hfind
  have hvar := (hs.frames _ hf).vars _ (mem_of_get? hget)
  obtain ⟨-, hdynamic, updated, s1, hreplace, rfl⟩ := (yields_assign hfind).mp h
  cases hslot : var.slot with
  | some slot =>
    rw [hslot, replace, yields_ite] at hreplace
    obtain ⟨haccepts, hemit⟩ | ⟨-, hfail⟩ := hreplace
    · obtain ⟨e, hstore, rfl⟩ := yields_tryEmitting.mp hemit
      obtain ⟨rfl, hlives⟩ := hvar.stored slot hslot
      obtain ⟨new, hnew, -, hlives', hkind, hmeans⟩ := store_means engine hscalar hstore
      have hcomputes : s.Computes low (absorb e s) new :=
        .absorb hnew hlow fun c hc => .inl (hc ▸ isVariable_ofVariable _ _)
      have hsame : updated.pinned = var.value :=
        hlives.pinned_eq hlives' (hkind.trans (hvar.scalar.kind_eq_of_accepts hscalar haccepts))
      rw [← hslot]
      refine ⟨new, rebinds_rebound engine hs hlow hfind hf hget hcomputes ?_ ?_ ?_ ?_⟩
      · rw [hsame]
        exact hvar.mono (hlow.trans hcomputes.adds.next_le)
      · rw [hsame, hs.ancestors_rebound_self hf hget]
        exact .refl _
      · exact fun m c hc hne => hnew.cells_eq m (hne _ hslot) (hc.not_fresh hlow)
      · exact fun m x hx => (means_mark false).mpr (hmeans m x hx)
    · exact absurd hfail not_yields_fail
  | none =>
    rw [hslot, replace] at hreplace
    obtain ⟨e, hdetach, rfl⟩ := yields_tryEmitting.mp hreplace
    obtain ⟨new, hnew, hheld, hplaces', hmeans⟩ := detach_means engine hscalar (hplaces hslot) hdetach
    have hcomputes : s.Computes low (absorb e s) new := .absorb hnew hlow fun c hc => hc.elim
    rw [← hslot]
    refine ⟨new, rebinds_rebound engine hs hlow hfind hf hget hcomputes ?_ ?_ ?_ ?_⟩
    · refine ⟨hvar.mutable, hheld.mark false, fun _ => ?_, by simp [hslot]⟩
      exact held_of_detached hnew.next_le hplaces'
    · exact hs.evolve_rebound updated.pinned (hdynamic hslot)
    · exact fun m c hc _ => hnew.cells_eq m id (hc.not_fresh hlow)
    · exact fun m x hx => (means_mark false).mpr (hmeans m x hx)

theorem assign_rebinds (hname : isPlainName name = true) (hs : s.frames.Plain low) (hlow : low ≤ s.nextTemporary)
    (hscalar : value.IsScalar) (hplaces : value.Places (Fits low start s.nextTemporary))
    (h : (assign name [] value span).Yields env s u s') :
    ∃ new, Rebinds engine low (Before low) value (Scope.assign name) s s' new := by
  cases hfind : s.frames.find? name with
  | some found =>
    obtain ⟨key, var⟩ := found
    obtain ⟨new, hnew⟩ := assign_found_rebinds engine hs hlow hfind hscalar (fun _ => hplaces) h
    refine ⟨new, hnew.computes, hnew.plain, hnew.evolve, fun cells scopes m x hagree hsame hx => ?_⟩
    exact hnew.agree cells scopes m x hagree (fun c hc => hsame c hc.1) hx
  | none =>
    simp only [assign, yields_bind, yields_frames] at h
    obtain ⟨_, _, ⟨rfl, rfl⟩, h⟩ := h
    rw [hfind] at h
    obtain ⟨new, hnew⟩ := declare_rebinds engine hname hs hlow hscalar hplaces h
    refine ⟨new, hnew.computes, hnew.plain, hnew.evolve, fun cells scopes m x hagree hsame hx => ?_⟩
    rw [Scope.assign, (hagree.findOn_eq_none hfind).2 x]
    exact hnew.agree cells scopes m x hagree hsame hx

variable {engine} {shown : List (Option String)} {expand : Expansion}

theorem carries_of_rebinds {before : List Instr} {kept : Cell → Prop} {assign : Scalar → List Scope → List Scope}
    (hbefore : s.Computes s.nextTemporary s1 before) (hframes : s1.frames = s.frames)
    (hnew : Rebinds engine s.nextTemporary kept value assign s1 s' new)
    (hkept : ∀ (m : Machine World) c, kept c → (engine.steps m before).cells c = m.cells c)
    (hvalue : ∀ scopes (m : Machine World), Agree m.cells s.frames.ancestors scopes → m.HasConstants →
      ∃ x, e.eval? scopes = some x ∧ value.Means (engine.steps m before).cells x) :
    Evolve s.frames.ancestors s'.frames.ancestors ∧
      ∃ made nodes, Carries env engine shown s s' made nodes fun _ σ => do
        return { σ with scopes := assign (← e.value σ.scopes) σ.scopes } := by
  have hall := hbefore.trans hnew.computes
  refine ⟨hframes ▸ hnew.evolve, [], _, hall.adds, ?_, hnew.plain, ?_⟩
  · rw [Node.CallsOnly, hall.callsAll_eq_nil]
    simp
  · intro p _ depth σ m hm
    obtain ⟨x, heval, hx⟩ := hvalue σ.scopes m hm.scopes hm.constants
    have hagree := hnew.agree m.cells σ.scopes (engine.steps m before) x (hframes.symm ▸ hm.scopes) (hkept m) hx
    rw [← Engine.steps_append] at hagree
    rw [hall.execAll engine, Expr.value, heval]
    exact ⟨_, rfl, hall.agrees hm hagree, fun k hk => hall.cells_temporary engine m hk⟩

theorem Realizes.assign (he : e.isCore = true) (hname : isPlainName name = true) :
    Realizes env engine shown Evolve
      (do
        let value ← e.compile expand
        let (var, path) ← targetPath expand (.path name [])
        Compile.assign var path value span)
      fun _ σ => do return { σ with scopes := Scope.assign name (← e.value σ.scopes) σ.scopes } := by
  intro s u s' hs h
  obtain ⟨value, s1, hvalue, h⟩ := yields_bind.mp h
  obtain ⟨_, _, htarget, h⟩ := yields_bind.mp h
  obtain ⟨rfl, rfl⟩ := yields_pure.mp htarget
  obtain ⟨before, hbefore⟩ := Expr.computed_compile engine e he .refl hs hvalue
  have hs1 : s1.frames.Plain s.nextTemporary := hbefore.evaluates.frames.symm ▸ hs
  obtain ⟨new, hnew⟩ := assign_rebinds engine hname hs1 hbefore.evaluates.next_le hbefore.scalar hbefore.places h
  exact carries_of_rebinds hbefore.evaluates.computes hbefore.evaluates.frames hnew
    (fun m c hc => hbefore.evaluates.cells_eq engine m hc) hbefore.means

/-- Whether a cell and its mark fit, or the cell is the slot of a variable that is changed where it is. -/
def FitsUpdate (var : Variable) (low stop : Nat) (c : Cell) (temporary : Bool) : Prop :=
  c.Fits low low stop temporary ∨ temporary = true ∧ ∃ slot, var.slot = some slot ∧ c = slot.cell

theorem readPlace_fitsUpdate {current : Value} (stop : Nat) (hs : s.frames.Plain low)
    (h : (readPlace name [] span).Yields env s current s') :
    s = s' ∧ ∃ key var, s.frames.find? name = some (key, var) ∧
      (∀ slot, var.slot = some slot → slot.cell.IsVariable) ∧ var.value.Places (fun c _ => c.Before low) ∧
      current.IsScalar ∧ current.Places (FitsUpdate var low stop) ∧
      ∀ cells x, var.value.Means cells x → current.Means cells x := by
  simp only [readPlace, yields_bind, yields_frames] at h
  obtain ⟨_, _, ⟨rfl, rfl⟩, h⟩ := h
  split at h
  · exact absurd h not_yields_fail
  next key var hfind =>
    obtain ⟨f, hf, hget⟩ := key_mem_of_findOn hfind
    have hvar := (hs.frames _ hf).vars _ (mem_of_get? hget)
    simp only [yields_bind, yields_orFail, yields_pure] at h
    obtain ⟨_, _, ⟨hselect, rfl⟩, rfl, rfl⟩ := h
    cases hselect
    refine ⟨rfl, key, var, hfind, fun slot hslot => ?_, hvar.before, ?_⟩
    · rw [(hvar.stored slot hslot).1]
      exact isVariable_ofVariable _ _
    · cases hslot : var.slot with
      | some slot =>
        refine ⟨hvar.scalar.mark true, ?_, fun _ _ => (means_mark true).mpr⟩
        exact ((hvar.stored slot hslot).2.mark true).places (.inr ⟨rfl, slot, hslot, rfl⟩)
      | none => exact ⟨hvar.scalar, hvar.places.mono fun _ _ hc => .inl (.inr hc), fun _ _ hx => hx⟩

theorem Realizes.update {op : BinaryOp} (he : e.isCore = true) (hop : op.isCore = true) :
    Realizes env engine shown Evolve (updatePlace expand (.path name []) op e span) fun _ σ => do
      let result ← Expr.value σ.scopes (.binary (.var name span) op e span)
      return { σ with scopes := Scope.assign name result σ.scopes } := by
  intro s u s' hs h
  obtain ⟨_, _, htarget, h⟩ := yields_bind.mp h
  obtain ⟨rfl, rfl⟩ := yields_pure.mp htarget
  obtain ⟨current, _, hread, h⟩ := yields_bind.mp h
  obtain ⟨operand, s1, hoperand, h⟩ := yields_bind.mp h
  obtain ⟨result, _, hemit, hassign⟩ := yields_bind.mp h
  obtain ⟨e', hbinary, rfl⟩ := yields_tryEmitting.mp hemit
  obtain ⟨rfl, key, var, hfind, hslot, hbefore, hscalar, hplaces, hcurrent⟩ :=
    readPlace_fitsUpdate s1.nextTemporary hs hread
  obtain ⟨before, hoperand⟩ := Expr.computed_compile engine e he .refl hs hoperand
  have hle := hoperand.evaluates.next_le
  have hframes : (absorb e' s1).frames = s.frames := hoperand.evaluates.frames
  have hfits : ∀ c t, FitsUpdate var s.nextTemporary s1.nextTemporary c t → c.Before s1.nextTemporary := by
    rintro c t (hc | ⟨-, slot, hvar, rfl⟩)
    · exact hc.before hle
    · exact (hslot slot hvar).before _
  obtain ⟨new, hnew, hresult, hplaces', hmeans⟩ := binary_means engine hop hfits hscalar hoperand.scalar
    hplaces (hoperand.places.mono fun _ _ => .inl) hbinary
  have hcomputes : s.Computes s.nextTemporary (absorb e' s1) (before ++ new) := by
    refine hoperand.evaluates.computes.trans (.absorb hnew hle ?_)
    rintro c ((⟨-, k, hk, -, rfl⟩ | ⟨hfalse, -⟩) | ⟨-, slot, hvar, rfl⟩)
    · exact .inr ⟨k, hk, rfl⟩
    · cases hfalse
    · exact .inl (hslot slot hvar)
  have hresultPlaces : var.slot = none →
      result.Places (Fits s.nextTemporary s.nextTemporary (absorb e' s1).nextTemporary) := by
    intro hnone
    refine hplaces'.mono fun c t hc => Fits.of_offers hle hnew.next_le (hc.imp_left fun hc => ?_)
    obtain hc | ⟨-, slot, hvar, -⟩ := hc
    · exact hc
    · cases hnone.symm.trans hvar
  obtain ⟨last, hlast⟩ := assign_found_rebinds (s := absorb e' s1) engine (hframes.symm ▸ hs)
    hcomputes.adds.next_le (hframes.symm ▸ hfind) hresult hresultPlaces hassign
  refine carries_of_rebinds hcomputes hframes hlast (fun m c hc => ?_) fun scopes m hagree hm => ?_
  · rw [Engine.steps_append, hnew.cells_eq _ ?_ (hc.1.not_fresh hle),
      hoperand.evaluates.cells_eq engine m hc.1]
    rintro ((⟨-, k, hk, -, rfl⟩ | ⟨hfalse, -⟩) | ⟨-, slot, hvar, rfl⟩)
    · have := hc.1 k rfl
      omega
    · cases hfalse
    · exact hc.2 slot hvar rfl
  · obtain ⟨x, hx, hxmeans⟩ := hagree.findOn_eq_some hfind
    obtain ⟨y, hy, hymeans⟩ := hoperand.means scopes m hagree hm
    have hxmeans' := hcurrent _ x (hoperand.evaluates.means engine hxmeans hbefore)
    obtain ⟨r, hr, hrmeans⟩ := hmeans _ (hoperand.evaluates.computes.hasConstants engine hm) x y hxmeans' hymeans
    rw [Engine.steps_append]
    exact ⟨r, by simp [Expr.eval?, hx, hy, hr], hrmeans⟩

end Compile

end Datapack
