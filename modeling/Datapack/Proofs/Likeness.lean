import Datapack.Proofs.Simulation.Value

/-!
What is known of the value of an expression. It depends on the frames alone, not on the temporaries that are taken for
its operands.
-/

namespace Datapack

open Syntax

variable {a a' v w : Value} {e1 e1' : Emission} {env : Environment} {α : Type}

def Datum.erase : Datum α Cell → Datum α Cell
  | .static value => .static value
  | .dynamic _ _ => .dynamic default false

inductive Value.Alike : Value → Value → Prop
  | number {d d' : Datum Int32 Cell} : d.erase = d'.erase → Alike (.number d) (.number d')
  | bool {d d' : Datum Bool Cell} : d.erase = d'.erase → Alike (.bool d) (.bool d')

section Operators

variable {a b a' b' : Datum Int32 Cell} {p q p' q' : Datum Bool Cell} {op : ScoreOp} {e e' : Emission}
  {relation : Relation}

section

variable (ha : a.erase = a'.erase)

include ha

theorem erase_numberOp {d d' : Datum Int32 Cell} (hb : b.erase = b'.erase) (h : (numberOp a op b).Yields e d e1)
    (h' : (numberOp a' op b').Yields e' d' e1') : d.erase = d'.erase := by
  have houtcome : (ExceptT.run (numberOp a op b) e).1.map Datum.erase =
      (ExceptT.run (numberOp a' op b') e').1.map Datum.erase := by
    cases a <;> cases a' <;> cases ha <;> cases b <;> cases b' <;> cases hb
    · simp only [numberOp]
      split <;> rfl
    · cases op <;> rfl
    · simp only [numberOp, numberOp.onCell]
      split <;> rfl
    · rfl
  rw [show ExceptT.run (numberOp a op b) e = (.ok d, e1) from h,
    show ExceptT.run (numberOp a' op b') e' = (.ok d', e1') from h'] at houtcome
  exact Except.ok.inj houtcome

theorem erase_negate : ((negate a).run e).1.erase = ((negate a').run e').1.erase := by
  cases a <;> cases a' <;> cases ha <;> rfl

theorem erase_compareWords (hb : b.erase = b'.erase) :
    ((compareWords a relation b).run e).1.erase = ((compareWords a' relation b').run e').1.erase := by
  cases a <;> cases a' <;> cases ha <;> cases b <;> cases b' <;> cases hb <;> rfl

end

theorem erase_compareBools (hp : p.erase = p'.erase) (hq : q.erase = q'.erase) :
    ((compareBools p relation q).run e).1.erase = ((compareBools p' relation q').run e').1.erase := by
  cases p <;> cases p' <;> cases hp <;> cases q <;> cases q' <;> cases hq <;> rfl

theorem erase_logic {isAnd : Bool} (hp : p.erase = p'.erase) (hq : q.erase = q'.erase) :
    ((logic isAnd p q).run e).1.erase = ((logic isAnd p' q').run e').1.erase := by
  have hother : ∀ {s : Bool} {d d' : Datum Bool Cell}, d.erase = d'.erase →
      (if s == isAnd then d else .static s).erase = (if s == isAnd then d' else .static s).erase := by
    intro s d d' h
    split
    · exact h
    · rfl
  cases p <;> cases p' <;> cases hp <;> cases q <;> cases q' <;> cases hq
  · rfl
  · exact hother rfl
  · exact hother rfl
  · cases isAnd <;> rfl

theorem Value.Alike.binary {a b a' b' : Value} {op : BinaryOp} (ha : a.Alike a') (hb : b.Alike b')
    (h : (a.binary op b).Yields e v e1) (h' : (a'.binary op b').Yields e' w e1') : v.Alike w := by
  unfold Value.binary at h h'
  cases ha with
  | number ha =>
    cases hb with
    | bool _ =>
      cases hrelation : relation? op <;> cases hscore : scoreOp? op <;> simp only [hrelation, hscore] at h <;>
        cases h
    | number hb =>
      cases hrelation : relation? op with
      | some relation =>
        simp only [hrelation] at h h'
        obtain rfl : Value.bool _ = v := Except.ok.inj (congrArg Prod.fst h)
        obtain rfl : Value.bool _ = w := Except.ok.inj (congrArg Prod.fst h')
        exact .bool (erase_compareWords ha hb)
      | none =>
        cases hscore : scoreOp? op with
        | none =>
          simp only [hrelation, hscore] at h
          cases h
        | some scoreOp =>
          simp only [hrelation, hscore] at h h'
          obtain ⟨d, _, hd, hv⟩ := TryEmit.yields_bind.mp h
          obtain ⟨d', _, hd', hw⟩ := TryEmit.yields_bind.mp h'
          obtain ⟨rfl, -⟩ := TryEmit.yields_pure.mp hv
          obtain ⟨rfl, -⟩ := TryEmit.yields_pure.mp hw
          exact .number (erase_numberOp ha hb hd hd')
  | bool ha =>
    cases hb with
    | number _ =>
      cases hrelation : relation? op <;> cases hscore : scoreOp? op <;> simp only [hrelation, hscore] at h <;>
        cases h
    | bool hb =>
      cases hrelation : relation? op with
      | some relation =>
        simp only [hrelation, compare] at h h'
        split at h
        next hequality =>
          rw [if_pos hequality] at h'
          obtain rfl : Value.bool _ = v := Except.ok.inj (congrArg Prod.fst h)
          obtain rfl : Value.bool _ = w := Except.ok.inj (congrArg Prod.fst h')
          exact .bool (erase_compareBools ha hb)
        next => cases h
      | none =>
        cases hscore : scoreOp? op with
        | some scoreOp =>
          simp only [hrelation, hscore] at h
          cases h
        | none =>
          simp only [hrelation, hscore] at h h'
          obtain rfl : Value.bool _ = v := Except.ok.inj (congrArg Prod.fst h)
          obtain rfl : Value.bool _ = w := Except.ok.inj (congrArg Prod.fst h')
          exact .bool (erase_logic ha hb)

theorem Value.Alike.unary {a a' : Value} {op : UnaryOp} (ha : a.Alike a') (h : (a.unary op).Yields e v e1)
    (h' : (a'.unary op).Yields e' w e1') : v.Alike w := by
  cases ha with
  | number ha =>
    cases op with
    | not => cases h
    | neg =>
      obtain rfl : Value.number _ = v := Except.ok.inj (congrArg Prod.fst h)
      obtain rfl : Value.number _ = w := Except.ok.inj (congrArg Prod.fst h')
      exact .number (erase_negate ha)
  | @bool d d' ha =>
    cases op with
    | neg => cases h
    | not =>
      cases d <;> cases d' <;> cases ha
      all_goals
        obtain rfl : Value.bool _ = v := Except.ok.inj (congrArg Prod.fst h)
        obtain rfl : Value.bool _ = w := Except.ok.inj (congrArg Prod.fst h')
        exact .bool rfl

end Operators

namespace Compile

variable {s s' t t' : CompilerState} {span : Span}

theorem eq_readName {name : String} (hname : isPlainName name = true) (hsame : t.frames.ancestors = s.frames.ancestors)
    (h : (readName name span).Yields env s v s') (h' : (readName name span).Yields env t w t') :
    v = w ∧ s' = s ∧ t' = t ∧ ∃ key var, s.frames.find? name = some (key, var) ∧ var.value = v := by
  have hfind : t.frames.find? name = s.frames.find? name := by rw [Frames.find?, hsame, ← Frames.find?]
  simp only [readName, yields_bind, yields_frames] at h h'
  obtain ⟨_, _, ⟨rfl, rfl⟩, h⟩ := h
  obtain ⟨_, _, ⟨rfl, rfl⟩, h'⟩ := h'
  rw [hfind] at h'
  cases hfound : s.frames.find? name with
  | some found =>
    rw [hfound] at h h'
    obtain ⟨rfl, rfl⟩ := yields_pure.mp h
    obtain ⟨rfl, rfl⟩ := yields_pure.mp h'
    exact ⟨rfl, rfl, rfl, found.1, found.2, rfl, rfl⟩
  | none =>
    rw [hfound] at h
    simp only [Option.isNone_iff_eq_none.mp hname] at h
    exact absurd h not_yields_fail

end Compile

open Compile in
theorem Syntax.Expr.alike_compile {expand : Expansion} : ∀ (e : Expr) {s s' t t' : CompilerState}
    {v w : Value}, e.isCore = true → t.frames.ancestors = s.frames.ancestors →
    (∀ name key var, s.frames.find? name = some (key, var) → var.value.IsScalar) →
    (e.compile expand).Yields env s v s' → (e.compile expand).Yields env t w t' →
      v.Alike w ∧ s'.frames = s.frames ∧ t'.frames = t.frames
  | .int _ _, s, s', t, t', v, w, _, _, _, h, h' => by
    obtain ⟨rfl, rfl⟩ := yields_pure.mp h
    obtain ⟨rfl, rfl⟩ := yields_pure.mp h'
    exact ⟨.number rfl, rfl, rfl⟩
  | .bool _ _, s, s', t, t', v, w, _, _, _, h, h' => by
    obtain ⟨rfl, rfl⟩ := yields_pure.mp h
    obtain ⟨rfl, rfl⟩ := yields_pure.mp h'
    exact ⟨.bool rfl, rfl, rfl⟩
  | .var name span, s, s', t, t', v, w, he, hsame, hvars, h, h' => by
    obtain ⟨rfl, rfl, rfl, key, var, hfind, rfl⟩ := eq_readName he hsame h h'
    refine ⟨?_, rfl, rfl⟩
    have hscalar := hvars name key var hfind
    revert hscalar
    cases var.value with
    | number d => exact fun _ => .number rfl
    | bool d => exact fun _ => .bool rfl
    | _ => exact False.elim
  | .unary op operand span, s, s', t, t', v, w, he, hsame, hvars, h, h' => by
    rw [Expr.compile] at h h'
    obtain ⟨a, s1, ha, h⟩ := yields_bind.mp h
    obtain ⟨a', t1, ha', h'⟩ := yields_bind.mp h'
    obtain ⟨hlike, hs, ht⟩ := Expr.alike_compile operand he hsame hvars ha ha'
    obtain ⟨_, hop, rfl⟩ := yields_tryEmitting.mp h
    obtain ⟨_, hop', rfl⟩ := yields_tryEmitting.mp h'
    exact ⟨hlike.unary hop hop', hs, ht⟩
  | .binary left op right span, s, s', t, t', v, w, he, hsame, hvars, h, h' => by
    simp only [Expr.isCore, Bool.and_eq_true] at he
    rw [Expr.compile] at h h'
    obtain ⟨a, s1, ha, h⟩ := yields_bind.mp h
    obtain ⟨b, s2, hb, h⟩ := yields_bind.mp h
    obtain ⟨a', t1, ha', h'⟩ := yields_bind.mp h'
    obtain ⟨b', t2, hb', h'⟩ := yields_bind.mp h'
    obtain ⟨hleft, hs, ht⟩ := Expr.alike_compile left he.1.1 hsame hvars ha ha'
    obtain ⟨hright, hs', ht'⟩ := Expr.alike_compile right he.2 (by rw [hs, ht, hsame]) (hs ▸ hvars) hb hb'
    obtain ⟨_, hop, rfl⟩ := yields_tryEmitting.mp h
    obtain ⟨_, hop', rfl⟩ := yields_tryEmitting.mp h'
    exact ⟨hleft.binary hright hop hop', hs'.trans hs, ht'.trans ht⟩

end Datapack
