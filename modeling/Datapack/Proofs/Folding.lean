import Datapack.Proofs.Operators

/-!
What the code for numbers of two scales computes, beside what is worked out when both operands are known. Whole numbers,
sums, differences and remainders agree. Comparisons agree but for the last words. Products and quotients of fixed-point
numbers are cut towards zero when they are worked out, and rounded down, from words that wrap, when they are computed.
-/

namespace Datapack

open Syntax Emit

variable {World : Type} {engine : Engine World} {next : Nat} {m : Machine World} {a b : Datum Int32 Cell} {x y : Int32}
  {op : BinaryOp} {scoreOp : ScoreOp} {p q : Bool}

def Value.ofWord (isFixed : Bool) (d : Datum Int32 Cell) : Value := if isFixed then .fixed d else .number d

def Word.scaled (isFixed other : Bool) (n : Int32) : Int32 := if !isFixed && other then n * Fixed.scale else n

theorem runs_compare (relation : Relation) (p q : Bool) (hm : m.HasConstants) (h : m.Holds next a b x y) :
    TryRuns engine next m (compare (.ofWord p a) op relation (.ofWord q b)) fun _ v m' => ∃ d, v = .bool d ∧
      d.Is Word.ofBool m'.cells (relation.holds (Word.scaled p q x) (Word.scaled q p y) ||
        relation.slips a.isStatic b.isStatic (Word.scaled p q x) (Word.scaled q p y)) := by
  have hwords : ∀ {next} {m : Machine World} {a b : Datum Int32 Cell} {x y}, a.Is id m.cells x → b.Is id m.cells y →
      TryRuns engine next m (do return Value.bool (← compareWords a relation b)) fun _ v m' => ∃ d, v = .bool d ∧
        d.Is Word.ofBool m'.cells (relation.holds x y || relation.slips a.isStatic b.isStatic x y) := fun hx hy =>
    .wrap (.lift ((runs_compareWords relation hx hy).mono fun _ _ _ htells => htells.is))
  cases p <;> cases q
  · exact hwords h.left h.right
  · refine .bind (.lift ((runs_toFixed hm h).mono fun n d m' ⟨hstatic, hscaled, _⟩ => ?_))
    exact hstatic ▸ hwords hscaled.left hscaled.right
  · refine .bind (.lift ((runs_toFixed hm h.symm).mono fun n d m' ⟨hstatic, hscaled, _⟩ => ?_))
    exact hstatic ▸ hwords hscaled.right hscaled.left
  · exact hwords h.left h.right

theorem Value.binary_of_relation {relation : Relation} (h : relation? op = some relation) (a b : Value) :
    a.binary op b = compare a op relation b := by
  unfold binary
  rw [h]

theorem compare_static (relation : Relation) (p q : Bool) (x y : Int32) (e : Emission) :
    (compare (.ofWord p (.static x)) op relation (.ofWord q (.static y))).Yields e
      (.bool (.static (relation.holds (Word.scaled p q x) (Word.scaled q p y)))) e := by
  cases p <;> cases q <;> rfl

theorem Value.binary_compares {op : BinaryOp} {relation : Relation} (hop : relation? op = some relation) (p q : Bool)
    (hm : m.HasConstants) (h : m.Holds next a b x y) :
    ∃ truth d e',
      ((ofWord p (.static x)).binary op (ofWord q (.static y))).Yields { nextTemporary := next }
        (.bool (.static truth)) { nextTemporary := next } ∧
      ((ofWord p a).binary op (ofWord q b)).Yields { nextTemporary := next } (.bool d) e' ∧
      d.Is Word.ofBool (engine.steps m e'.instrs.toList).cells
        (truth || relation.slips a.isStatic b.isStatic (Word.scaled p q x) (Word.scaled q p y)) := by
  simp only [binary_of_relation hop]
  have hruns : TryRuns engine next m (compare (.ofWord p a) op relation (.ofWord q b)) _ := runs_compare relation p q hm h
  obtain ⟨_, e', hyields, d, rfl, hd⟩ := hruns.yields
  exact ⟨_, d, e', compare_static relation p q x y _, hyields, hd⟩

noncomputable def Machine.loaded (n : Int32) : Machine Unit := primed.put (.temporary 0) n

theorem Machine.hasConstants_loaded (n : Int32) : (loaded n).HasConstants := fun value =>
  (primed.put_cells_of_ne n (Cell.constant_ne_temporary value 0)).trans (hasConstants_primed value)

theorem Machine.holds_loaded (n value : Int32) :
    (loaded n).Holds 1 (.dynamic (.temporary 0) true) (.static value) n value :=
  ⟨put_cells_self _ _ _, rfl, fun _ hk => Cell.temporary_injective hk ▸ Nat.zero_lt_one, trivial, nofun⟩

theorem Value.binary_compares_scaled :
    (Machine.loaded 2).Holds 1 (.dynamic (.temporary 0) true) (.static 2001) 2 2001 ∧ ∃ truth d e',
      ((Value.number (.static 2)).binary .less (.fixed (.static 2001))).Yields { nextTemporary := 1 }
        (.bool (.static truth)) { nextTemporary := 1 } ∧
      ((Value.number (.dynamic (.temporary 0) true)).binary .less (.fixed (.static 2001))).Yields
        { nextTemporary := 1 } (.bool d) e' ∧
      d.Is Word.ofBool (Engine.still.steps (Machine.loaded 2) e'.instrs.toList).cells
        (truth || Relation.less.slips false true 2000 2001) :=
  ⟨Machine.holds_loaded 2 2001, Value.binary_compares rfl false true (Machine.hasConstants_loaded 2)
    (Machine.holds_loaded 2 2001)⟩

/-- The least word is not below itself, but the code finds it there. -/
theorem Value.binary_compares_least :
    ((Value.number (.static Int32.minValue)).binary .less (.number (.static Int32.minValue))).Yields
      { nextTemporary := 1 } (.bool (.static false)) { nextTemporary := 1 } ∧
    ∃ d e', ((Value.number (.dynamic (.temporary 0) true)).binary .less (.number (.static Int32.minValue))).Yields
      { nextTemporary := 1 } (.bool d) e' ∧
      d.Is Word.ofBool (Engine.still.steps (Machine.loaded Int32.minValue) e'.instrs.toList).cells true := by
  refine ⟨rfl, _, _, rfl, ?_⟩
  simp [Datum.Is, Engine.steps, Engine.step, Engine.holdsAll, Engine.holds, Engine.passes, rangeCondition, Word.pred,
    Machine.loaded]

/-- The integers of whose quotient an operation on fixed-point numbers gives the word, if it has to change the scale. -/
def ScoreOp.quotient? : ScoreOp → Int32 → Int32 → Option (Int × Int)
  | .mul, a, b => some (a.toInt * b.toInt, Fixed.scale.toInt)
  | .div, a, b => some (a.toInt * Fixed.scale.toInt, b.toInt)
  | _, _, _ => none

theorem ScoreOp.onCells_eq_onFixed {op : ScoreOp} (h : op.quotient? x y = none) : op.onCells x y = op.onFixed x y := by
  cases op with
  | mul | div => cases h
  | _ => rfl

theorem Word.toInt_mul (h : Word.Fits (x.toInt * y.toInt)) : (x * y).toInt = x.toInt * y.toInt := by
  rw [← toInt_ofInt h, Int32.ofInt_mul, Int32.ofInt_toInt, Int32.ofInt_toInt]

theorem ScoreOp.onCells_eq_onFixed_iff {op : ScoreOp} (hzero : op.divides = true → y ≠ 0) {n k : Int}
    (h : op.quotient? x y = some (n, k)) (hn : Word.Fits n) :
    op.onCells x y = op.onFixed x y ↔ k ∣ n ∨ (n < 0 ↔ k < 0) := by
  cases op with
  | mul =>
    cases h
    have hscale : Fixed.scale ≠ 0 := by decide
    rw [← Word.toInt_mul hn, ← Word.floorDiv_eq_tdiv_iff hscale, Word.toInt_mul hn]
    rfl
  | div =>
    cases h
    rw [← Word.toInt_mul hn, ← Word.floorDiv_eq_tdiv_iff (hzero rfl), Word.toInt_mul hn]
    rfl
  | _ => cases h

theorem runs_arithmetic (hfixed : p = true ∨ q = true) (hm : m.HasConstants) (h : m.Holds next a b x y)
    (ha : a.SparesConstants) (hb : b.SparesConstants) (hzero : scoreOp.divides = true → Word.scaled q p y ≠ 0) :
    TryRuns engine next m (arithmetic (.ofWord p a) op scoreOp (.ofWord q b)) fun _ v m' => ∃ d, v = .fixed d ∧
      d.Is id m'.cells (if a.isStatic && b.isStatic then scoreOp.onFixed (Word.scaled p q x) (Word.scaled q p y)
        else scoreOp.onCells (Word.scaled p q x) (Word.scaled q p y)) := by
  cases p <;> cases q
  · cases hfixed <;> contradiction
  · refine .bind (.lift ((runs_toFixed hm h).mono fun n d m' ⟨hstatic, hscaled, hspares⟩ => ?_))
    exact hstatic ▸ .wrap (runs_fixedOp (hspares ha).2 hscaled (hspares ha).1 hb hzero)
  · refine .bind (.lift ((runs_toFixed hm h.symm).mono fun n d m' ⟨hstatic, hscaled, hspares⟩ => ?_))
    exact hstatic ▸ .wrap (runs_fixedOp (hspares hb).2 hscaled.symm ha (hspares hb).1 hzero)
  · exact .wrap (runs_fixedOp hm h ha hb hzero)

theorem Value.binary_of_scoreOp (h : scoreOp? op = some scoreOp) (a b : Value) :
    a.binary op b = arithmetic a op scoreOp b := by
  cases op <;> cases h <;> rfl

theorem arithmetic_static (hfixed : p = true ∨ q = true)
    (hzero : scoreOp.divides = true → Word.scaled q p y ≠ 0) (e : Emission) :
    (arithmetic (.ofWord p (.static x)) op scoreOp (.ofWord q (.static y))).Yields e
      (.fixed (.static (scoreOp.onFixed (Word.scaled p q x) (Word.scaled q p y)))) e := by
  have hfold : ∀ {u w : Int32}, (scoreOp.divides = true → w ≠ 0) →
      TryEmit.Yields (do return Value.fixed (← fixedOp (.static u) scoreOp (.static w))) e
        (.fixed (.static (scoreOp.onFixed u w))) e := by
    intro u w hw
    rw [fixedOp, if_neg fun hdivides => hw hdivides.1 hdivides.2]
    rfl
  cases p <;> cases q
  · cases hfixed <;> contradiction
  · exact hfold hzero
  · exact hfold hzero
  · exact hfold hzero

/-- What the code for fixed-point numbers leaves, beside what is worked out when both are known. -/
theorem Value.binary_computes_fixed {op : BinaryOp} {scoreOp : ScoreOp} (hop : scoreOp? op = some scoreOp)
    {p q : Bool} (hfixed : p = true ∨ q = true) (hm : m.HasConstants) (h : m.Holds next a b x y)
    (ha : a.SparesConstants) (hb : b.SparesConstants)
    (hzero : scoreOp.divides = true → Word.scaled q p y ≠ 0) :
    ∃ folded d e',
      ((ofWord p (.static x)).binary op (ofWord q (.static y))).Yields { nextTemporary := next }
        (.fixed (.static folded)) { nextTemporary := next } ∧
      ((ofWord p a).binary op (ofWord q b)).Yields { nextTemporary := next } (.fixed d) e' ∧
      d.Is id (engine.steps m e'.instrs.toList).cells (if a.isStatic && b.isStatic then folded
        else scoreOp.onCells (Word.scaled p q x) (Word.scaled q p y)) ∧
      (scoreOp.quotient? (Word.scaled p q x) (Word.scaled q p y) = none →
        scoreOp.onCells (Word.scaled p q x) (Word.scaled q p y) = folded) ∧
      ∀ n k, scoreOp.quotient? (Word.scaled p q x) (Word.scaled q p y) = some (n, k) → Word.Fits n →
        (scoreOp.onCells (Word.scaled p q x) (Word.scaled q p y) = folded ↔ k ∣ n ∨ (n < 0 ↔ k < 0)) := by
  simp only [binary_of_scoreOp hop]
  have hruns : TryRuns engine next m (arithmetic (.ofWord p a) op scoreOp (.ofWord q b)) _ :=
    runs_arithmetic hfixed hm h ha hb hzero
  obtain ⟨_, e', hyields, d, rfl, hd⟩ := hruns.yields
  exact ⟨_, d, e', arithmetic_static hfixed hzero _, hyields, hd, ScoreOp.onCells_eq_onFixed,
    fun _ _ => ScoreOp.onCells_eq_onFixed_iff hzero⟩

theorem Value.binary_computes_fixed_product :
    (Machine.loaded 3).Holds 1 (.dynamic (.temporary 0) true) (.static 1500) 3 1500 ∧ ∃ folded d e',
      ((Value.number (.static 3)).binary .mul (.fixed (.static 1500))).Yields { nextTemporary := 1 }
        (.fixed (.static folded)) { nextTemporary := 1 } ∧
      ((Value.number (.dynamic (.temporary 0) true)).binary .mul (.fixed (.static 1500))).Yields
        { nextTemporary := 1 } (.fixed d) e' ∧
      d.Is id (Engine.still.steps (Machine.loaded 3) e'.instrs.toList).cells
        (ScoreOp.mul.onCells 3000 1500) ∧ ScoreOp.mul.onCells 3000 1500 = folded := by
  obtain ⟨folded, d, e', hfolded, hyields, hd, -, hiff⟩ :=
    @Value.binary_computes_fixed _ Engine.still _ _ _ _ _ _ .mul _ rfl false true (Or.inr rfl)
      (Machine.hasConstants_loaded 3) (Machine.holds_loaded 3 1500)
      (fun _ value => Cell.constant_ne_temporary value 0) trivial nofun
  simp only [Datum.isStatic, Bool.false_and, Bool.false_eq_true, if_false] at hd
  exact ⟨Machine.holds_loaded 3 1500, folded, d, e', hfolded, hyields, hd,
    (hiff _ _ rfl (by decide)).mpr (by decide)⟩

/-- A thousandth below zero, halved, is worked out to be zero, but the code finds a thousandth below zero. -/
theorem Value.binary_computes_fixed_half :
    ((Value.fixed (.static (-1))).binary .mul (.fixed (.static 500))).Yields { nextTemporary := 1 }
      (.fixed (.static 0)) { nextTemporary := 1 } ∧
    ∃ d e', ((Value.fixed (.dynamic (.temporary 0) true)).binary .mul (.fixed (.static 500))).Yields
      { nextTemporary := 1 } (.fixed d) e' ∧
      d.Is id (Engine.still.steps (Machine.loaded (-1)) e'.instrs.toList).cells (-1) := by
  have hruns : TryRuns Engine.still 1 (Machine.loaded (-1)) (arithmetic (.ofWord true (.dynamic (.temporary 0) true))
      .mul .mul (.ofWord true (.static 500))) _ :=
    runs_arithmetic (Or.inl rfl) (Machine.hasConstants_loaded (-1)) (Machine.holds_loaded (-1) 500)
      (fun _ value => Cell.constant_ne_temporary value 0) trivial nofun
  obtain ⟨_, e', hyields, d, rfl, hd⟩ := hruns.yields
  have hword : ScoreOp.mul.onCells (-1) 500 = -1 := by decide
  exact ⟨rfl, d, e', hyields, hword ▸ hd⟩

/-- Whether code leaves the word that is worked out at once, with nothing written, if all operands are known. -/
def Emit.Agrees (engine : Engine World) (next : Nat) (m : Machine World) (wrap : Datum Int32 Cell → Value)
    (known code : TryEmit Value) : Prop :=
  ∃ folded d e', known.Yields { nextTemporary := next } (wrap (.static folded)) { nextTemporary := next } ∧
    code.Yields { nextTemporary := next } (wrap d) e' ∧ d.Is id (engine.steps m e'.instrs.toList).cells folded

theorem Emit.agrees_of_runs {wrap : Datum Int32 Cell → Value} {known code : TryEmit Value} (folded : Int32)
    (hknown : known.Yields { nextTemporary := next } (wrap (.static folded)) { nextTemporary := next })
    (h : TryRuns engine next m code fun _ v m' => ∃ d, v = wrap d ∧ d.Is id m'.cells folded) :
    Agrees engine next m wrap known code := by
  obtain ⟨_, e', hyields, d, rfl, hd⟩ := h.yields
  exact ⟨folded, d, e', hknown, hyields, hd⟩

theorem Emit.Maps.agrees {convert : Datum Int32 Cell → Emit (Datum Int32 Cell)} {f : Int32 → Int32} {op : ScoreOp}
    {value : Int32} (h : Maps convert f op value) (hm : m.HasConstants) (hx : a.Is id m.cells x)
    (wrap : Datum Int32 Cell → Value) :
    Agrees engine next m wrap (do return wrap (← convert (.static x))) (do return wrap (← convert a)) := by
  refine agrees_of_runs (f x) ?_ (.wrap (.lift (runs_maps h hm hx)))
  rw [h.known]
  rfl

theorem numberOp_zero (h : scoreOp.divides = true) (a : Datum Int32 Cell) :
    numberOp a scoreOp (.static 0) = throw .divisionByZero := by
  cases a with
  | static n => exact if_pos ⟨h, rfl⟩
  | dynamic cell temporary => exact if_pos ⟨h, rfl⟩

/-- Code for whole numbers leaves what is worked out if they are known, for every operator and conversion; a divisor
that is known to be zero is refused in any case. -/
theorem Value.number_code_agrees (hm : m.HasConstants) (hx : a.Is id m.cells x) (hy : b.Is id m.cells y)
    (hb : b.Places fun c _ => c.Before next) :
    (∀ op scoreOp, scoreOp? op = some scoreOp → (scoreOp.divides = true → y ≠ 0) →
      Agrees engine next m .number ((number (.static x)).binary op (.number (.static y)))
        ((number a).binary op (.number b))) ∧
      (∀ op scoreOp, scoreOp? op = some scoreOp → scoreOp.divides = true → ∀ left ∈ [.static x, a], ∀ e,
        ((number left).binary op (.number (.static 0))).run e = (.error .divisionByZero, e)) ∧
      Agrees engine next m .number ((number (.static x)).unary .neg) ((number a).unary .neg) ∧
      Agrees engine next m .fixed (do return .fixed (← toFixed (.static x))) (do return .fixed (← toFixed a)) ∧
      Agrees engine next m .number (do return .number (← toNumber (.static x))) (do return .number (← toNumber a)) := by
  refine ⟨fun op scoreOp hop hzero => ?_, fun op scoreOp hop hdivides left _ e => ?_, ?_, ?_, ?_⟩
  · rw [binary_of_scoreOp hop, binary_of_scoreOp hop]
    refine agrees_of_runs (scoreOp.onWords x y) ?_ (.wrap (runs_numberOp hm hb hx hy hzero))
    rw [arithmetic, numberOp, if_neg fun h => hzero h.1 h.2]
    rfl
  · rw [binary_of_scoreOp hop, arithmetic, numberOp_zero hdivides]
    rfl
  · exact maps_negate.agrees hm hx .number
  · exact maps_toFixed.agrees hm hx .fixed
  · exact maps_toNumber.agrees hm hx .number

/-- A number in a cell that may be changed, divided by itself. -/
theorem Value.number_code_agrees_same_cell :
    (Datum.dynamic (.temporary 0) true).Is id (Machine.loaded 6).cells 6 ∧
      Agrees Engine.still 1 (Machine.loaded 6) .number ((number (.static 6)).binary .div (.number (.static 6)))
        ((number (.dynamic (.temporary 0) true)).binary .div (.number (.dynamic (.temporary 0) true))) := by
  have hloaded := Machine.holds_loaded 6 0
  refine ⟨hloaded.left, ?_⟩
  exact (Value.number_code_agrees (Machine.hasConstants_loaded 6) hloaded.left hloaded.left hloaded.leftBefore).1 .div
    .div rfl fun _ => by decide

end Datapack
