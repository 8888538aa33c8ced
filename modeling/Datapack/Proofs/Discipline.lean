import Datapack.Proofs.CompileStep

/-!
What operators write. Whatever rules there are for cells and for the instructions that use them, an operator keeps to the
rules if its operands do, and so does its result.
-/

namespace Datapack

open Syntax List

variable {α β ε : Type}

def Datum.Places (P : Cell → Bool → Prop) : Datum α Cell → Prop
  | .static _ => True
  | .dynamic cell temporary => P cell temporary

theorem Datum.Places.mono {P Q : Cell → Bool → Prop} (h : ∀ c t, P c t → Q c t) {d : Datum α Cell}
    (hd : d.Places P) : d.Places Q := by
  cases d with
  | static _ => trivial
  | dynamic c t => exact h c t hd

/-- Rules for the cells of values with their marks, for those that are read, for the conditions that are tested, and for
the instructions that are written, once a number of temporaries is taken and some constants are asked for. A cell that is
marked as temporary may be written, and so may temporaries that are taken from a number on. -/
structure Discipline where
  base : Nat
  place : Nat → Cell → Bool → Prop
  read : Nat → Cell → Prop
  test : Nat → Condition → Prop
  write : Nat → List Int32 → Instr → Prop
  place_mono {n m : Nat} {c : Cell} {t : Bool} : n ≤ m → place n c t → place m c t
  read_mono {n m : Nat} {c : Cell} : n ≤ m → read n c → read m c
  test_mono {n m : Nat} {c : Condition} : n ≤ m → test n c → test m c
  write_mono {n m : Nat} {known more : List Int32} {i : Instr} :
    n ≤ m → known ⊆ more → write n known i → write m more i
  fresh {n : Nat} : base ≤ n → place (n + 1) (.temporary n) true
  reads {n : Nat} {c : Cell} {t : Bool} : place n c t → read n c
  range {n : Nat} {c : Cell} {negate : Bool} {low high : Option Int32} :
    read n c → test n ⟨negate, .range c low high⟩
  compare {n : Nat} {a b : Cell} {negate : Bool} {relation : Relation} :
    read n a → read n b → test n ⟨negate, .compare a relation b⟩
  set {n : Nat} {c : Cell} {value : Int32} : place n c true → write n [] (.setScore c value)
  add {n : Nat} {c : Cell} {value : Int32} : place n c true → write n [] (.addScore c value)
  copy {n : Nat} {c source : Cell} : place n c true → read n source → write n [] (.copyScore c source)
  operate {n : Nat} {c source : Cell} {op : ScoreOp} :
    place n c true → read n source → write n [] (.operate c op source)
  constant {n : Nat} {c : Cell} {op : ScoreOp} {value : Int32} {known : List Int32} :
    place n c true → value ∈ known → write n known (.operateConstant c op value)
  store {n : Nat} {c : Cell} {conditions : List Condition} :
    place n c true → (∀ x ∈ conditions, test n x) → write n [] (.storeCondition c conditions)

variable {D : Discipline} {next n : Nat}

structure Emission.Follows (D : Discipline) (e e' : Emission) : Prop where
  next_le : e.nextTemporary ≤ e'.nextTemporary
  constants_subset : e.constants.toList ⊆ e'.constants.toList
  written : ∃ new, e'.instrs.toList = e.instrs.toList ++ new ∧
    ∀ i ∈ new, D.write e'.nextTemporary e'.constants.toList i

namespace Emission.Follows

variable {e e' e'' : Emission}

theorem refl (e : Emission) : e.Follows D e := ⟨.refl, fun _ => id, [], by simp, by simp⟩

theorem trans (h : e.Follows D e') (h' : e'.Follows D e'') : e.Follows D e'' := by
  obtain ⟨new, hnew, hwritten⟩ := h.written
  obtain ⟨more, hmore, hwritten'⟩ := h'.written
  refine ⟨Nat.le_trans h.next_le h'.next_le, fun _ hc => h'.constants_subset (h.constants_subset hc), new ++ more,
    by rw [hmore, hnew, append_assoc], fun i hi => ?_⟩
  obtain hi | hi := mem_append.mp hi
  · exact D.write_mono h'.next_le h'.constants_subset (hwritten i hi)
  · exact hwritten' i hi

end Emission.Follows

/-- Whether an operation, from a number of temporaries on, keeps to given rules and gives a result as told. -/
def Emit.Obeys (D : Discipline) (next : Nat) (op : Emit α) (post : Nat → α → Prop) : Prop :=
  ∀ e, D.base ≤ e.nextTemporary → next ≤ e.nextTemporary →
    e.Follows D (op.run e).2 ∧ post (op.run e).2.nextTemporary (op.run e).1

def Emit.TryObeys (D : Discipline) (next : Nat) (op : ExceptT ε Emit α) (post : Nat → α → Prop) : Prop :=
  Emit.Obeys D next op.run fun n outcome => ∀ a, outcome = .ok a → post n a

namespace Emit

variable {P : Nat → α → Prop} {Q : Nat → β → Prop} {a : α} {op : Emit α}

theorem Obeys.pure (h : ∀ n, next ≤ n → P n a) : Obeys D next (Pure.pure a) P :=
  fun e _ hle => ⟨.refl e, h _ hle⟩

theorem Obeys.bind {f : α → Emit β} (h : Obeys D next op P)
    (hf : ∀ a n, next ≤ n → P n a → Obeys D n (f a) Q) : Obeys D next (op >>= f) Q := by
  intro e hbase hle
  obtain ⟨hfirst, ha⟩ := h e hbase hle
  obtain ⟨hsecond, hb⟩ := hf _ _ (Nat.le_trans hle hfirst.next_le) ha _ (Nat.le_trans hbase hfirst.next_le) .refl
  exact ⟨hfirst.trans hsecond, hb⟩

theorem Obeys.instr {i : Instr} (h : D.write next [] i) : Obeys D next (Emit.instr i) fun _ _ => True := by
  intro e _ hle
  refine ⟨⟨.refl, fun _ => id, [i], Array.toList_push, fun j hj => ?_⟩, trivial⟩
  cases mem_singleton.mp hj
  exact D.write_mono hle (nil_subset _) h

theorem Obeys.freshCell : Obeys D next Emit.freshCell fun n c => D.place n c true := fun e hbase _ =>
  ⟨⟨Nat.le_succ _, fun _ => id, [], by simp [Emit.freshCell, Emit.freshNumber]; rfl, by simp⟩,
    D.fresh hbase⟩

theorem Obeys.freshPath : Obeys D next Emit.freshPath fun n p => ∃ k < n, p = .temporary k := fun e _ _ =>
  ⟨⟨Nat.le_succ _, fun _ => id, [], by simp [Emit.freshPath, Emit.freshNumber]; rfl, by simp⟩,
    e.nextTemporary, .refl, rfl⟩

theorem TryObeys.pure (h : ∀ n, next ≤ n → P n a) : TryObeys D next (Pure.pure a : ExceptT ε Emit α) P :=
  Obeys.pure fun n hle _ heq => Except.ok.inj heq ▸ h n hle

theorem TryObeys.throw {error : ε} : TryObeys D next (throw error : ExceptT ε Emit α) P :=
  Obeys.pure fun _ _ _ heq => by cases heq

theorem TryObeys.bind {op : ExceptT ε Emit α} {f : α → ExceptT ε Emit β} (h : TryObeys D next op P)
    (hf : ∀ a n, next ≤ n → P n a → TryObeys D n (f a) Q) : TryObeys D next (op >>= f) Q := by
  change Obeys D next (op.run >>= ExceptT.bindCont f) _
  refine Obeys.bind h fun outcome n hle hP => ?_
  cases outcome with
  | ok a => exact hf a n hle (hP a rfl)
  | error error => exact Obeys.pure fun _ _ _ heq => by cases heq

theorem TryObeys.lift (h : Obeys D next op P) : TryObeys D next (liftM op : ExceptT ε Emit α) P :=
  fun e hbase hle => ⟨(h e hbase hle).1, fun _ heq => Except.ok.inj heq ▸ (h e hbase hle).2⟩

theorem TryObeys.of_yields {op : TryEmit α} {e e' : Emission} (h : TryObeys D e.nextTemporary op P)
    (hbase : D.base ≤ e.nextTemporary) (hop : op.Yields e a e') : e.Follows D e' ∧ P e'.nextTemporary a := by
  have hrun : StateT.run op.run e = (.ok a, e') := hop
  obtain ⟨hfollows, ha⟩ := h e hbase .refl
  rw [hrun] at hfollows ha
  exact ⟨hfollows, ha a rfl⟩

end Emit

def Value.HeadPlaces (C : Cell → Bool → Prop) : Value → Prop
  | .number d | .fixed d => d.Places C
  | .bool d => d.Places C
  | _ => True

def Value.Results (C : Cell → Bool → Prop) : Value → Prop
  | .number d | .fixed d => d.Places C
  | .bool d => d.Places C
  | .string (.static _) => True
  | _ => False

section Operators

open Emit

variable {cell target source : Cell} {op : ScoreOp} {value : Int32} {temporary : Bool} {a b : Datum Int32 Cell}
  {relation : Relation} {d : Datum α Cell} {conditions : List Condition}

theorem Datum.Places.later (hle : next ≤ n) (h : d.Places (D.place next)) : d.Places (D.place n) :=
  h.mono fun _ _ => D.place_mono hle

theorem Datum.Places.reads (h : d.Places (D.place next)) : d.Places fun c _ => D.read next c :=
  h.mono fun _ _ => D.reads

theorem obeys_owned (hcell : D.place next cell temporary) :
    Obeys D next (owned cell temporary) fun n c => D.place n c true := by
  unfold owned
  split
  next ht => exact .pure fun _ hle => D.place_mono hle (ht ▸ hcell)
  next =>
    refine .bind .freshCell fun target n hle htarget => .bind (.instr (D.copy htarget ?_)) ?_
    · exact D.reads (D.place_mono hle hcell)
    · exact fun _ _ hle' _ => .pure fun _ hle'' => D.place_mono (Nat.le_trans hle' hle'') htarget

theorem obeys_load : Obeys D next (load value) fun n c => D.place n c true := by
  refine .bind .freshCell fun target n _ htarget => .bind (.instr (D.set htarget)) ?_
  exact fun _ _ hle _ => .pure fun _ hle' => D.place_mono (Nat.le_trans hle hle') htarget

theorem obeys_testCell (hconditions : ∀ c ∈ conditions, D.test next c) :
    Obeys D next (testCell conditions) fun n c => D.place n c true := by
  refine .bind .freshCell fun target n hle htarget => .bind (.instr (D.store htarget fun c hc => ?_)) ?_
  · exact D.test_mono hle (hconditions c hc)
  · exact fun _ _ hle _ => .pure fun _ hle' => D.place_mono (Nat.le_trans hle hle') htarget

section

variable (htarget : D.place next target true)

include htarget

theorem obeys_applyWord : Obeys D next (applyWord target op value) fun _ _ => True := by
  unfold applyWord
  split
  · exact .instr (D.add htarget)
  · exact .instr (D.add htarget)
  · intro e _ hle
    refine ⟨⟨.refl, ?_, [.operateConstant target op value], Array.toList_push, fun i hi => ?_⟩, trivial⟩
    · exact fun c hc => Array.toList_push ▸ mem_append_left _ hc
    · cases mem_singleton.mp hi
      exact D.constant (D.place_mono hle htarget) (Array.mem_toList_iff.mpr Array.mem_push_self)

theorem obeys_applyCell (hsource : D.read next source) : Obeys D next (applyCell target op source) fun _ _ => True :=
  .instr (D.operate htarget hsource)

theorem obeys_result {m : Nat} (hle : next ≤ m) :
    TryObeys D m (return (.dynamic target true : Datum α Cell) : ExceptT ε Emit (Datum α Cell))
      fun n d => d.Places (D.place n) :=
  .pure fun _ hle' => D.place_mono (Nat.le_trans hle hle') htarget

end

theorem obeys_numberOp_onCell (hcell : D.place next cell temporary) :
    TryObeys D next (numberOp.onCell op cell temporary value) fun n d => d.Places (D.place n) := by
  unfold numberOp.onCell
  split
  · exact .throw
  · refine .bind (.lift (obeys_owned hcell)) fun target n _ htarget => ?_
    exact .bind (.lift (obeys_applyWord htarget)) fun _ _ hle _ => obeys_result htarget hle

theorem obeys_numberOp (ha : a.Places (D.place next)) (hb : b.Places (D.place next)) :
    TryObeys D next (numberOp a op b) fun n d => d.Places (D.place n) := by
  unfold numberOp
  split
  · split
    · exact .throw
    · exact .pure fun _ _ => trivial
  · exact obeys_numberOp_onCell ha
  · split
    · exact obeys_numberOp_onCell hb
    · refine .bind (.lift obeys_load) fun target n hle htarget => ?_
      refine .bind (.lift (obeys_applyCell htarget ?_)) fun _ _ hle _ => obeys_result htarget hle
      exact D.reads (D.place_mono hle hb)
  · refine .bind (.lift (obeys_owned ha)) fun target n hle htarget => ?_
    refine .bind (.lift (obeys_applyCell htarget ?_)) fun _ _ hle _ => obeys_result htarget hle
    exact D.reads (D.place_mono hle hb)

theorem obeys_fixedOp_onCell (hcell : D.place next cell temporary) :
    TryObeys D next (fixedOp.onCell op cell temporary value) fun n d => d.Places (D.place n) := by
  unfold fixedOp.onCell
  split
  · exact .throw
  · refine .bind (.lift (obeys_owned hcell)) fun target n _ htarget => ?_
    have htwice : ∀ {first second : ScoreOp} {v w : Int32}, TryObeys (ε := ValueError) D n (do
        applyWord target first v
        applyWord target second w
        return .dynamic target true) fun n d => Datum.Places (α := Int32) (D.place n) d := by
      intro first second v w
      refine .bind (.lift (obeys_applyWord htarget)) fun _ m hle _ => ?_
      refine .bind (.lift (obeys_applyWord (D.place_mono hle htarget))) fun _ _ hle' _ => ?_
      exact obeys_result (D.place_mono hle htarget) hle'
    dsimp only
    split
    · exact htwice
    · exact htwice
    · exact .bind (.lift (obeys_applyWord htarget)) fun _ _ hle _ => obeys_result htarget hle

theorem obeys_fixedOp_onCells {other : Cell} (hcell : D.place next cell temporary) (hother : D.read next other) :
    TryObeys D next (fixedOp.onCells op cell temporary other) fun n d => d.Places (D.place n) := by
  unfold fixedOp.onCells
  refine .bind (.lift (obeys_owned hcell)) fun target n hle htarget => ?_
  replace hother := D.read_mono hle hother
  dsimp only
  split
  · refine .bind (.lift (obeys_applyCell htarget hother)) fun _ m hle _ => ?_
    refine .bind (.lift (obeys_applyWord (D.place_mono hle htarget))) fun _ _ hle' _ => ?_
    exact obeys_result (D.place_mono hle htarget) hle'
  · refine .bind (.lift (obeys_applyWord htarget)) fun _ m hle _ => ?_
    refine .bind (.lift (obeys_applyCell (D.place_mono hle htarget) (D.read_mono hle hother))) fun _ _ hle' _ => ?_
    exact obeys_result (D.place_mono hle htarget) hle'
  · exact .bind (.lift (obeys_applyCell htarget hother)) fun _ _ hle _ => obeys_result htarget hle

theorem obeys_fixedOp (ha : a.Places (D.place next)) (hb : b.Places (D.place next)) :
    TryObeys D next (fixedOp a op b) fun n d => d.Places (D.place n) := by
  unfold fixedOp
  split
  · split
    · exact .throw
    · exact .pure fun _ _ => trivial
  · exact obeys_fixedOp_onCell ha
  · split
    · exact obeys_fixedOp_onCell hb
    · refine .bind (.lift obeys_load) fun lead n hle hlead => ?_
      exact obeys_fixedOp_onCells hlead (D.reads (D.place_mono hle hb))
  · exact obeys_fixedOp_onCells ha (D.reads hb)

theorem obeys_applyOwned (hcell : D.place next cell temporary) :
    Obeys D next (do
      let target ← owned cell temporary
      applyWord target op value
      return (.dynamic target true : Datum Int32 Cell)) fun n d => d.Places (D.place n) := by
  refine .bind (obeys_owned hcell) fun target n _ htarget => .bind (obeys_applyWord htarget) fun _ _ hle _ => ?_
  exact .pure fun _ hle' => D.place_mono (Nat.le_trans hle hle') htarget

section

variable (ha : a.Places (D.place next))

include ha

theorem obeys_toFixed : Obeys D next (toFixed a) fun n d => d.Places (D.place n) := by
  unfold toFixed
  split
  · exact .pure fun _ _ => trivial
  · exact obeys_applyOwned ha

theorem obeys_toNumber : Obeys D next (toNumber a) fun n d => d.Places (D.place n) := by
  unfold toNumber
  split
  · exact .pure fun _ _ => trivial
  · exact obeys_applyOwned ha

theorem obeys_negate : Obeys D next (negate a) fun n d => d.Places (D.place n) := by
  unfold negate
  split
  · exact .pure fun _ _ => trivial
  · exact obeys_applyOwned ha

end

theorem obeys_tested (hconditions : ∀ c ∈ conditions, D.test next c) :
    Obeys D next (do return (.dynamic (← testCell conditions) true : Datum Bool Cell))
      fun n d => d.Places (D.place n) :=
  .bind (obeys_testCell hconditions) fun _ _ _ htarget => .pure fun _ hle => D.place_mono hle htarget

theorem Discipline.test_rangeCondition (hcell : D.read next cell) :
    D.test next (rangeCondition cell relation value) := by
  cases relation <;> exact D.range hcell

theorem Discipline.test_cellCondition {a b : Cell} (ha : D.read next a) (hb : D.read next b) :
    D.test next (cellCondition a relation b) := by
  cases relation <;> exact D.compare ha hb

theorem obeys_compareWords (ha : a.Places fun c _ => D.read next c) (hb : b.Places fun c _ => D.read next c) :
    Obeys D next (compareWords a relation b) fun n d => d.Places (D.place n) := by
  unfold compareWords
  split
  · exact .pure fun _ _ => trivial
  · exact obeys_tested (forall_mem_singleton.mpr (D.test_rangeCondition ha))
  · exact obeys_tested (forall_mem_singleton.mpr (D.test_rangeCondition hb))
  · exact obeys_tested (forall_mem_singleton.mpr (D.test_cellCondition ha hb))

theorem obeys_boolCell {a : Datum Bool Cell} (ha : a.Places (D.place next)) :
    Obeys D next (boolCell a) fun n c => D.read n c := by
  unfold boolCell
  split
  · exact fun e hbase hle => (obeys_load e hbase hle).imp_right D.reads
  · exact .pure fun _ hle => D.reads (D.place_mono hle ha)

theorem obeys_compareBools {a b : Datum Bool Cell} (ha : a.Places (D.place next)) (hb : b.Places (D.place next)) :
    Obeys D next (compareBools a relation b) fun n d => d.Places (D.place n) := by
  unfold compareBools
  split
  · exact .pure fun _ _ => trivial
  · refine .bind (obeys_boolCell ha) fun left n hle hleft => ?_
    refine .bind (obeys_boolCell (hb.later hle)) fun right m hle' hright => ?_
    exact obeys_compareWords (D.read_mono hle' hleft) hright

theorem obeys_logic {isAnd : Bool} {a b : Datum Bool Cell} (ha : a.Places (D.place next))
    (hb : b.Places (D.place next)) : Obeys D next (logic isAnd a b) fun n d => d.Places (D.place n) := by
  have hother : ∀ {s : Bool} {other : Datum Bool Cell} {n : Nat}, other.Places (D.place next) → next ≤ n →
      (if s == isAnd then other else .static s).Places (D.place n) := by
    intro s other n h hle
    split
    · exact h.later hle
    · trivial
  unfold logic
  split
  · exact .pure fun _ _ => trivial
  · exact .pure fun _ => hother hb
  · exact .pure fun _ => hother ha
  · split
    · refine obeys_tested (forall_mem_cons.mpr ⟨D.range (D.reads ha), forall_mem_singleton.mpr ?_⟩)
      exact D.range (D.reads hb)
    · refine .bind (obeys_testCell (forall_mem_cons.mpr ⟨D.range (D.reads ha),
        forall_mem_singleton.mpr (D.range (D.reads hb))⟩)) fun neither n _ hneither => ?_
      exact obeys_tested (forall_mem_singleton.mpr (D.range (D.reads hneither)))

theorem Emit.TryObeys.wrap {op : ExceptT ε Emit (Datum α Cell)} {wrap : Datum α Cell → Value}
    (h : TryObeys D next op fun n d => d.Places (D.place n))
    (hwrap : ∀ (C : Cell → Bool → Prop) d, d.Places C → (wrap d).Results C) :
    TryObeys D next (do return wrap (← op)) fun n v => v.Results (D.place n) :=
  .bind h fun d _ _ hd => .pure fun _ hle => hwrap _ d (hd.later hle)

theorem obeys_compare {a b : Value} {op : BinaryOp} (ha : a.HeadPlaces (D.place next))
    (hb : b.HeadPlaces (D.place next)) :
    TryObeys D next (compare a op relation b) fun n v => v.Results (D.place n) := by
  unfold compare
  split
  · exact .wrap (.lift (obeys_compareWords ha.reads hb.reads)) fun _ _ => id
  · exact .wrap (.lift (obeys_compareWords ha.reads hb.reads)) fun _ _ => id
  · refine .bind (.lift (obeys_toFixed ha)) fun a n hle ha => ?_
    exact .wrap (.lift (obeys_compareWords ha.reads (.reads (.later hle hb)))) fun _ _ => id
  · refine .bind (.lift (obeys_toFixed hb)) fun b n hle hb => ?_
    exact .wrap (.lift (obeys_compareWords (.reads (.later hle ha)) hb.reads)) fun _ _ => id
  · split
    · exact .wrap (.lift (obeys_compareBools ha hb)) fun _ _ => id
    · exact .throw
  · split
    · exact .pure fun _ _ => trivial
    · exact .throw
  · split
    · exact .pure fun _ _ => trivial
    · exact .throw
  · exact .throw

theorem obeys_arithmetic {a b : Value} {op : BinaryOp} {scoreOp : ScoreOp} (ha : a.HeadPlaces (D.place next))
    (hb : b.HeadPlaces (D.place next)) :
    TryObeys D next (arithmetic a op scoreOp b) fun n v => v.Results (D.place n) := by
  unfold arithmetic
  split
  · exact .wrap (obeys_numberOp ha hb) fun _ _ => id
  · exact .wrap (obeys_fixedOp ha hb) fun _ _ => id
  · refine .bind (.lift (obeys_toFixed ha)) fun a n hle ha => ?_
    exact .wrap (obeys_fixedOp ha (.later hle hb)) fun _ _ => id
  · refine .bind (.lift (obeys_toFixed hb)) fun b n hle hb => ?_
    exact .wrap (obeys_fixedOp (.later hle ha) hb) fun _ _ => id
  iterate 2
    · split
      · split
        · exact .pure fun _ _ => trivial
        · exact .throw
      · exact .throw
  · exact .throw

theorem Value.obeys_binary {a b : Value} {op : BinaryOp} (ha : a.HeadPlaces (D.place next))
    (hb : b.HeadPlaces (D.place next)) : TryObeys D next (a.binary op b) fun n v => v.Results (D.place n) := by
  unfold binary
  split
  · exact obeys_compare ha hb
  · split
    · exact obeys_arithmetic ha hb
    · split
      · exact .wrap (.lift (obeys_logic ha hb)) fun _ _ => id
      · exact .throw

theorem Value.obeys_unary {a : Value} {op : UnaryOp} (ha : a.HeadPlaces (D.place next)) :
    TryObeys D next (a.unary op) fun n v => v.Results (D.place n) := by
  unfold unary
  split
  · exact .wrap (.lift (obeys_negate ha)) fun _ _ => id
  · exact .wrap (.lift (obeys_negate ha)) fun _ _ => id
  · exact .pure fun _ _ => trivial
  · exact .wrap (.lift (obeys_tested (forall_mem_singleton.mpr (D.range (D.reads ha))))) fun _ _ => id
  · exact .throw

end Operators

end Datapack
