import Datapack.Proofs.Discipline
import Datapack.Proofs.Machine
import Datapack.Proofs.Word

/-!
What operators compute. The instructions that an operator writes are run as they are written, on a machine where the
operands are known or in their cells; at the end the result is where the operator says it is.
-/

namespace Datapack

open Syntax List Cell ScoreOp

variable {c cell : Cell} {next n : Nat} {x value y : Int32} {a b : Datum Int32 Cell} {conditions : List Condition}
  {World α β : Type} {engine : Engine World}

def Engine.steps (engine : Engine World) (m : Machine World) (instrs : List Instr) : Machine World :=
  instrs.foldl engine.step m

theorem Engine.steps_append (m : Machine World) (instrs others : List Instr) :
    engine.steps m (instrs ++ others) = engine.steps (engine.steps m instrs) others :=
  foldl_append

def Cell.Before (next : Nat) (c : Cell) : Prop := ∀ k, c = .temporary k → k < next

theorem Cell.Before.mono {low high : Nat} (h : c.Before low) (hle : low ≤ high) : c.Before high :=
  fun k hk => (h k hk).trans_le hle

theorem Cell.Before.ne_temporary (h : c.Before next) : c ≠ .temporary next :=
  fun heq => Nat.lt_irrefl _ (h next heq)

theorem Cell.before_constant (next : Nat) (value : Int32) : (constant value).Before next :=
  fun k hk => absurd hk (constant_ne_temporary value k)

theorem Cell.before_temporary (next : Nat) : (temporary next).Before (next + 1) := fun _ hk =>
  temporary_injective hk ▸ Nat.lt_succ_self _

def Machine.HasConstants (m : Machine World) : Prop := ∀ value, m.cells (.constant value) = value

noncomputable def Machine.primed : Machine Unit := ⟨Function.invFun Cell.constant, (), []⟩

theorem Machine.hasConstants_primed : primed.HasConstants :=
  Function.leftInverse_invFun constant_injective

def Datum.Is (code : α → Int32) (cells : Cell → Int32) : Datum α Cell → α → Prop
  | .static value, x => value = x
  | .dynamic cell _, x => cells cell = code x

theorem Datum.Is.of_same {code : α → Int32} {cells cells' : Cell → Int32} {d : Datum α Cell} {x : α}
    (h : d.Is code cells x) (hd : d.Places fun c _ => c.Before next)
    (hsame : ∀ c, c.Before next → cells' c = cells c) : d.Is code cells' x := by
  cases d with
  | static => exact h
  | dynamic c _ => exact (hsame c hd).trans h

namespace Emit

/-- Whether the instructions that an operation writes lead from a machine to another, with a result and a number of
temporaries as told. -/
def Runs (engine : Engine World) (next : Nat) (m : Machine World) (op : Emit α)
    (post : Nat → α → Machine World → Prop) : Prop :=
  ∀ e : Emission, e.nextTemporary = next → ∃ new, (op.run e).2.instrs.toList = e.instrs.toList ++ new ∧
    post (op.run e).2.nextTemporary (op.run e).1 (engine.steps m new)

def TryRuns (engine : Engine World) (next : Nat) (m : Machine World) (op : TryEmit α)
    (post : Nat → α → Machine World → Prop) : Prop :=
  Runs engine next m op.run fun n outcome m' => ∃ a, outcome = .ok a ∧ post n a m'

variable {m : Machine World} {post : Nat → α → Machine World → Prop} {last : Nat → β → Machine World → Prop} {a : α}
  {op : TryEmit α} {other : Nat → α → Machine World → Prop} {e e' : Emission} {new : List Instr}

theorem Runs.pure (h : post next a m) : Runs engine next m (Pure.pure a) post := by
  rintro e rfl
  exact ⟨[], (append_nil _).symm, h⟩

theorem Runs.bind {op : Emit α} {f : α → Emit β} (h : Runs engine next m op fun n a m' => Runs engine n m' (f a) last) :
    Runs engine next m (op >>= f) last := by
  intro e he
  obtain ⟨new, hnew, hf⟩ := h e he
  obtain ⟨more, hmore, hlast⟩ := hf (op.run e).2 rfl
  refine ⟨new ++ more, ?_, ?_⟩
  · rw [← append_assoc, ← hnew]
    exact hmore
  · rw [Engine.steps_append]
    exact hlast

theorem Runs.mono {op : Emit α} (h : Runs engine next m op post)
    (himp : ∀ n a m', post n a m' → other n a m') : Runs engine next m op other := by
  intro e he
  obtain ⟨new, hnew, hpost⟩ := h e he
  exact ⟨new, hnew, himp _ _ _ hpost⟩

theorem Runs.instr {i : Instr} {post : Nat → Unit → Machine World → Prop} (h : post next () (engine.step m i)) :
    Runs engine next m (Emit.instr i) post := by
  rintro e rfl
  exact ⟨[i], Array.toList_push, h⟩

theorem Runs.freshCell {post : Nat → Cell → Machine World → Prop} (h : post (next + 1) (.temporary next) m) :
    Runs engine next m Emit.freshCell post := by
  rintro e rfl
  exact ⟨[], (append_nil _).symm, h⟩

theorem Runs.constant {post : Nat → Unit → Machine World → Prop} (h : post next () m) :
    Runs engine next m (Emit.constant value) post := by
  rintro e rfl
  exact ⟨[], (append_nil _).symm, h⟩

theorem TryRuns.pure (h : post next a m) : TryRuns engine next m (Pure.pure a) post :=
  Runs.pure ⟨a, rfl, h⟩

theorem TryRuns.bind {f : α → TryEmit β} (h : TryRuns engine next m op fun n a m' => TryRuns engine n m' (f a) last) :
    TryRuns engine next m (op >>= f) last := by
  change Runs engine next m (op.run >>= ExceptT.bindCont f) _
  refine Runs.bind (Runs.mono h ?_)
  rintro n _ m' ⟨a, rfl, ha⟩
  exact ha

theorem TryRuns.lift {op : Emit α} (h : Runs engine next m op post) :
    TryRuns engine next m (liftM op : TryEmit α) post := by
  intro e he
  obtain ⟨new, hnew, hpost⟩ := h e he
  exact ⟨new, hnew, _, rfl, hpost⟩

theorem TryRuns.mono (h : TryRuns engine next m op post)
    (himp : ∀ n a m', post n a m' → other n a m') : TryRuns engine next m op other := by
  refine Runs.mono h ?_
  rintro n _ m' ⟨a, rfl, ha⟩
  exact ⟨a, rfl, himp n a m' ha⟩

theorem TryRuns.wrap {wrap : α → β} (h : TryRuns engine next m op post) :
    TryRuns engine next m (do return wrap (← op)) fun n b m' => ∃ a, b = wrap a ∧ post n a m' :=
  .bind (h.mono fun _ a _ ha => .pure ⟨a, rfl, ha⟩)

theorem Runs.of_yields {op : Emit α} (h : Runs engine e.nextTemporary m op post) (hop : op.Yields e a e')
    (hnew : e'.instrs.toList = e.instrs.toList ++ new) : post e'.nextTemporary a (engine.steps m new) := by
  have hrun : StateT.run op e = (a, e') := hop
  obtain ⟨more, hmore, hpost⟩ := h e rfl
  rw [hrun] at hmore hpost
  obtain rfl : more = new := append_cancel_left (hmore.symm.trans hnew)
  exact hpost

theorem TryRuns.of_yields (h : TryRuns engine e.nextTemporary m op post) (hop : op.Yields e a e')
    (hnew : e'.instrs.toList = e.instrs.toList ++ new) : post e'.nextTemporary a (engine.steps m new) := by
  obtain ⟨_, heq, hpost⟩ := Runs.of_yields h hop hnew
  exact Except.ok.inj heq ▸ hpost

theorem TryRuns.yields (h : TryRuns engine next m op post) : ∃ a e', op.Yields { nextTemporary := next } a e' ∧
      post e'.nextTemporary a (engine.steps m e'.instrs.toList) := by
  obtain ⟨_, rfl, a, ha, hpost⟩ := h { nextTemporary := next } rfl
  exact ⟨a, _, Prod.ext ha rfl, hpost⟩

end Emit

section Words

open Emit

variable {m : Machine World} {target source : Cell} {temporary : Bool} {op : ScoreOp}
  {post : Nat → Cell → Machine World → Prop} {w : Int32}

/-- Whether a cell may be changed instead of another: the cell itself if it is temporary, otherwise a fresh one. -/
def Cell.Obtained (next : Nat) (cell : Cell) (temporary : Bool) (n : Nat) (target : Cell) : Prop :=
  temporary = true ∧ target = cell ∧ n = next ∨ target = .temporary next ∧ n = next + 1

namespace Cell.Obtained

section

variable (h : Obtained next cell temporary n target)

include h

theorem cells_eq (m : Machine World) (hc : c.Before next) : (m.put target (m.cells cell)).cells c = m.cells c := by
  obtain ⟨-, rfl, -⟩ | ⟨rfl, -⟩ := h
  · rw [m.put_self]
  · exact m.put_cells_of_ne _ hc.ne_temporary

theorem ne (hc : c.Before next) (hcell : temporary = true → c ≠ cell) : c ≠ target := by
  obtain ⟨ht, rfl, -⟩ | ⟨rfl, -⟩ := h
  · exact hcell ht
  · exact hc.ne_temporary

theorem before (hcell : cell.Before next) : next ≤ n ∧ target.Before n := by
  obtain ⟨-, rfl, rfl⟩ | ⟨rfl, rfl⟩ := h
  · exact ⟨.refl, hcell⟩
  · exact ⟨Nat.le_succ _, before_temporary next⟩

end

end Cell.Obtained

theorem runs_owned
    (h : ∀ n target, Obtained next cell temporary n target → post n target (m.put target (m.cells cell))) :
    Runs engine next m (owned cell temporary) post := by
  unfold owned
  split
  next ht =>
    refine .pure ?_
    simpa using h next cell (.inl ⟨ht, rfl, rfl⟩)
  next => exact .bind (.freshCell (.bind (.instr (.pure (h _ _ (.inr ⟨rfl, rfl⟩))))))

theorem runs_load (h : post (next + 1) (.temporary next) (m.put (.temporary next) value)) :
    Runs engine next m (load value) post :=
  .bind (.freshCell (.bind (.instr (.pure h))))

theorem runs_testCell
    (h : post (next + 1) (.temporary next) (m.put (.temporary next) (Word.ofBool (engine.holdsAll m conditions)))) :
    Runs engine next m (testCell conditions) post :=
  .bind (.freshCell (.bind (.instr (.pure h))))

theorem runs_applyWord {post : Nat → Unit → Machine World → Prop} (hvalue : m.cells (.constant value) = value)
    (h : post next () (m.put target (op.result (m.cells target) value))) :
    Runs engine next m (applyWord target op value) post := by
  unfold applyWord
  split
  · exact .instr h
  · refine .instr ?_
    simpa [Engine.step, ScoreOp.result, ScoreOp.divides, ScoreOp.onWords, Int32.sub_eq_add_neg] using h
  · refine .bind (.constant (.instr ?_))
    simpa [Engine.step, hvalue] using h

theorem ScoreOp.result_eq {b : Int32} (h : op.divides = true → b ≠ 0) (a : Int32) : op.result a b = op.onWords a b :=
  if_neg fun hzero => h hzero.1 hzero.2

theorem ScoreOp.onWords_comm (h : op.commutes = true) (a b : Int32) : op.onWords a b = op.onWords b a := by
  cases op with
  | add => exact Int32.add_comm a b
  | mul => exact Int32.mul_comm a b
  | _ => cases h

def Emit.Leaves (next : Nat) (cell : Cell) (temporary : Bool) (m : Machine World) (w : Int32) (n : Nat)
    (d : Datum Int32 Cell) (m' : Machine World) : Prop :=
  ∃ target, Obtained next cell temporary n target ∧ d = .dynamic target true ∧ m' = m.put target w

theorem Emit.Leaves.is {r : Int32} {d : Datum Int32 Cell} {m' : Machine World}
    (h : Leaves next cell temporary m w n d m') (hw : w = r) : d.Is id m'.cells r := by
  obtain ⟨target, -, rfl, rfl⟩ := h
  exact (m.put_cells_self target w).trans hw

section

variable (hm : m.HasConstants)

include hm

theorem runs_applyOwned :
    Runs engine next m (do
      let target ← owned cell temporary
      applyWord target op value
      return .dynamic target true) (Leaves next cell temporary m (op.result (m.cells cell) value)) := by
  refine .bind (runs_owned fun n target htarget => .bind (runs_applyWord ?_ (.pure ⟨target, htarget, rfl, ?_⟩)))
  · rw [htarget.cells_eq m (before_constant next value), hm value]
  · simp

theorem runs_numberOp_onCell (hvalue : op.divides = true → value ≠ 0) :
    TryRuns engine next m (numberOp.onCell op cell temporary value)
      (Leaves next cell temporary m (op.result (m.cells cell) value)) := by
  rw [numberOp.onCell, if_neg fun h => hvalue h.1 h.2]
  exact .lift (runs_applyOwned hm)

theorem runs_numberOp_cell (hb : b.Places fun c _ => c.Before next) (hy : b.Is id m.cells y)
    (hknown : b.isStatic = true → op.divides = true → y ≠ 0) :
    TryRuns engine next m (numberOp (.dynamic cell temporary) op b)
      (Leaves next cell temporary m (op.result (m.cells cell) y)) := by
  cases b with
  | static value =>
    obtain rfl : value = y := hy
    exact runs_numberOp_onCell hm (hknown rfl)
  | dynamic source u =>
    obtain rfl : m.cells source = y := hy
    refine .bind (.lift (runs_owned fun n target htarget => .bind (.lift (.instr (.pure ⟨target, htarget, rfl, ?_⟩)))))
    simp [Engine.step, htarget.cells_eq m hb]

theorem runs_numberOp (hb : b.Places fun c _ => c.Before next) (hx : a.Is id m.cells x) (hy : b.Is id m.cells y)
    (hzero : op.divides = true → y ≠ 0) :
    TryRuns engine next m (numberOp a op b) fun _ d m' => d.Is id m'.cells (op.onWords x y) := by
  cases a with
  | dynamic a temporary =>
    obtain rfl : m.cells a = x := hx
    exact (runs_numberOp_cell hm hb hy fun _ => hzero).mono fun _ _ _ h => h.is (result_eq hzero _)
  | static a =>
    obtain rfl : a = x := hx
    cases b with
    | static b =>
      obtain rfl : b = y := hy
      rw [numberOp, if_neg fun h => hzero h.1 h.2]
      exact .pure rfl
    | dynamic b temporary =>
      obtain rfl : m.cells b = y := hy
      rw [numberOp]
      split
      next hcommutes =>
        have hdivides : op.divides = true → a ≠ 0 := fun h => by cases op <;> cases hcommutes <;> cases h
        refine (runs_numberOp_onCell hm hdivides).mono fun _ _ _ h => h.is ?_
        rw [result_eq hdivides, onWords_comm hcommutes]
      next =>
        refine .bind (.lift (runs_load (.bind (.lift (.instr (.pure ?_))))))
        simp [Datum.Is, Engine.step, m.put_cells_of_ne _ (Before.ne_temporary hb), result_eq hzero]

end

/-- Whether an operation gives the image of a number: that of a known one at once, and that of any other by one step of
arithmetic in a cell that may be changed. -/
structure Emit.Maps (convert : Datum Int32 Cell → Emit (Datum Int32 Cell)) (f : Int32 → Int32) (op : ScoreOp)
    (value : Int32) : Prop where
  known : ∀ n, convert (.static n) = pure (.static (f n))
  computed : ∀ cell temporary, convert (.dynamic cell temporary) = do
    let target ← owned cell temporary
    applyWord target op value
    return .dynamic target true
  result_eq : ∀ n, op.result n value = f n

theorem maps_negate : Maps negate (- ·) .mul (-1) where
  known _ := rfl
  computed _ _ := rfl
  result_eq n := (Int32.mul_comm n (-1)).trans (Int32.neg_eq_neg_one_mul n).symm

theorem maps_toFixed : Maps toFixed (· * Fixed.scale) .mul Fixed.scale := ⟨fun _ => rfl, fun _ _ => rfl, fun _ => rfl⟩

theorem maps_toNumber : Maps toNumber (Word.floorDiv · Fixed.scale) .div Fixed.scale :=
  ⟨fun _ => rfl, fun _ _ => rfl, fun _ => rfl⟩

theorem runs_maps {convert : Datum Int32 Cell → Emit (Datum Int32 Cell)} {f : Int32 → Int32}
    (hconvert : Maps convert f op value) (hm : m.HasConstants) (hx : a.Is id m.cells x) :
    Runs engine next m (convert a) fun _ d m' => d.Is id m'.cells (f x) := by
  cases a with
  | static n =>
    rw [hconvert.known]
    exact .pure (congrArg f hx)
  | dynamic cell temporary =>
    obtain rfl : m.cells cell = x := hx
    rw [hconvert.computed]
    exact (runs_applyOwned hm).mono fun _ _ _ h => h.is (hconvert.result_eq _)

def Datum.SparesConstants (d : Datum Int32 Cell) : Prop :=
  d.Places fun c temporary => temporary = true → ∀ value, .constant value ≠ c

/-- Whether two numbers are given words on a machine, known or in two cells that are not about to be taken. -/
structure Machine.Holds (next : Nat) (m : Machine World) (a b : Datum Int32 Cell) (x y : Int32) : Prop where
  left : a.Is id m.cells x
  right : b.Is id m.cells y
  leftBefore : a.Places fun c _ => c.Before next
  rightBefore : b.Places fun c _ => c.Before next
  apart : ∀ c t u, a = .dynamic c t → b ≠ .dynamic c u

theorem Machine.Holds.symm (h : m.Holds next a b x y) : m.Holds next b a y x :=
  ⟨h.right, h.left, h.rightBefore, h.leftBefore, fun c t u hb ha => h.apart c u t ha hb⟩

theorem runs_toFixed (hm : m.HasConstants) (h : m.Holds next a b x y) :
    Runs engine next m (toFixed a) fun n d m' =>
      d.isStatic = a.isStatic ∧ m'.Holds n d b (x * Fixed.scale) y ∧
        (a.SparesConstants → d.SparesConstants ∧ m'.HasConstants) := by
  cases a with
  | static n =>
    obtain rfl : n = x := h.left
    exact .pure ⟨rfl, ⟨rfl, h.right, trivial, h.rightBefore, nofun⟩, fun _ => ⟨trivial, hm⟩⟩
  | dynamic cell temporary =>
    obtain rfl : m.cells cell = x := h.left
    refine (runs_applyOwned hm).mono ?_
    rintro n _ _ ⟨target, htarget, rfl, rfl⟩
    obtain ⟨hle, hbefore⟩ := htarget.before h.leftBefore
    have hother : ∀ c u, b = .dynamic c u → c ≠ target := by
      rintro c u rfl
      exact htarget.ne h.rightBefore fun _ heq => h.apart c temporary u (heq ▸ rfl) rfl
    refine ⟨rfl, ⟨Machine.put_cells_self _ _ _, ?_, hbefore, ?_, ?_⟩, fun hspares => ?_⟩
    · cases b with
      | static => exact h.right
      | dynamic c u => exact (m.put_cells_of_ne _ (hother c u rfl)).trans h.right
    · exact h.rightBefore.mono fun c _ hc => hc.mono hle
    · rintro c t u heq rfl
      cases heq
      exact hother _ u rfl rfl
    · have hconstant : ∀ value, .constant value ≠ target := fun value =>
        htarget.ne (before_constant next value) fun ht => hspares ht value
      refine ⟨fun _ => hconstant, fun value => ?_⟩
      rw [m.put_cells_of_ne _ (hconstant value), hm value]

def ScoreOp.onCells : ScoreOp → Int32 → Int32 → Int32
  | .mul, a, b => Word.floorDiv (a * b) Fixed.scale
  | .div, a, b => Word.floorDiv (a * Fixed.scale) b
  | op, a, b => op.onWords a b

def ScoreOp.fixedResult : ScoreOp → Int32 → Int32 → Int32
  | .mul, a, b => div.result (a * b) Fixed.scale
  | .div, a, b => div.result (a * Fixed.scale) b
  | op, a, b => op.result a b

theorem ScoreOp.fixedResult_eq {b : Int32} (h : op.divides = true → b ≠ 0) (a : Int32) :
    op.fixedResult a b = op.onCells a b := by
  cases op with
  | mul => rfl
  | div => exact result_eq h _
  | _ => exact result_eq h a

theorem ScoreOp.onCells_comm (h : op.commutes = true) (a b : Int32) : op.onCells a b = op.onCells b a := by
  cases op with
  | add => exact Int32.add_comm _ _
  | mul => exact congrArg (Word.floorDiv · Fixed.scale) (Int32.mul_comm _ _)
  | _ => cases h

theorem runs_applyWord_put {post : Nat → Unit → Machine World → Prop} (hm : m.HasConstants)
    (htarget : ∀ value, .constant value ≠ target) (h : post next () (m.put target (op.result w value))) :
    Runs engine next (m.put target w) (applyWord target op value) post := by
  refine runs_applyWord ?_ ?_
  · rw [m.put_cells_of_ne _ (htarget value), hm value]
  · simpa using h

theorem runs_applyCell_put {post : Nat → Unit → Machine World → Prop} (hsource : (m.put target w).cells source = y)
    (h : post next () (m.put target (op.result w y))) :
    Runs engine next (m.put target w) (applyCell target op source) post := by
  refine .instr ?_
  simpa [Engine.step, hsource] using h

section

variable (hm : m.HasConstants) (hcell : temporary = true → ∀ value, .constant value ≠ cell)

include hm hcell

theorem runs_fixedOp_onCell (hzero : op.divides = true → value ≠ 0) :
    TryRuns engine next m (fixedOp.onCell op cell temporary value)
      (Leaves next cell temporary m (op.fixedResult (m.cells cell) value)) := by
  rw [fixedOp.onCell, if_neg fun h => hzero h.1 h.2]
  refine .bind (.lift (runs_owned fun n target htarget => ?_))
  have hconstant : ∀ value, .constant value ≠ target := fun value =>
    htarget.ne (before_constant next value) fun ht => hcell ht value
  dsimp only
  split
  · refine .bind (.lift (runs_applyWord_put hm hconstant (.bind (.lift (runs_applyWord_put hm hconstant ?_)))))
    exact .pure ⟨target, htarget, rfl, rfl⟩
  · refine .bind (.lift (runs_applyWord_put hm hconstant (.bind (.lift (runs_applyWord_put hm hconstant ?_)))))
    exact .pure ⟨target, htarget, rfl, rfl⟩
  next hmul hdiv =>
    refine .bind (.lift (runs_applyWord_put hm hconstant (.pure ⟨target, htarget, rfl, ?_⟩)))
    rw [ScoreOp.fixedResult]
    · exact hmul
    · exact hdiv

/-- A dividend is scaled before it is divided, so a divisor in the cell that is changed would be scaled too. -/
theorem runs_fixedOp_onCells (hsource : source.Before next) (hapart : temporary = true → op = .div → source ≠ cell) :
    TryRuns engine next m (fixedOp.onCells op cell temporary source)
      (Leaves next cell temporary m (op.fixedResult (m.cells cell) (m.cells source))) := by
  refine .bind (.lift (runs_owned fun n target htarget => ?_))
  have hconstant : ∀ value, .constant value ≠ target := fun value =>
    htarget.ne (before_constant next value) fun ht => hcell ht value
  have hfirst := htarget.cells_eq m hsource
  dsimp only
  split
  · refine .bind (.lift (runs_applyCell_put hfirst (.bind (.lift (runs_applyWord_put hm hconstant ?_)))))
    exact .pure ⟨target, htarget, rfl, rfl⟩
  · have hother := fun w => m.put_cells_of_ne w (htarget.ne hsource fun ht => hapart ht rfl)
    refine .bind (.lift (runs_applyWord_put hm hconstant (.bind (.lift (runs_applyCell_put (hother _) ?_)))))
    exact .pure ⟨target, htarget, rfl, rfl⟩
  next hmul hdiv =>
    refine .bind (.lift (runs_applyCell_put hfirst (.pure ⟨target, htarget, rfl, ?_⟩)))
    rw [ScoreOp.fixedResult]
    · exact hmul
    · exact hdiv

theorem runs_fixedOp_cell (hb : b.Places fun c _ => c.Before next) (hy : b.Is id m.cells y)
    (hknown : b.isStatic = true → op.divides = true → y ≠ 0)
    (hapart : temporary = true → op = .div → ∀ u, b ≠ .dynamic cell u) :
    TryRuns engine next m (fixedOp (.dynamic cell temporary) op b)
      (Leaves next cell temporary m (op.fixedResult (m.cells cell) y)) := by
  cases b with
  | static value =>
    obtain rfl : value = y := hy
    exact runs_fixedOp_onCell hm hcell (hknown rfl)
  | dynamic source u =>
    obtain rfl : m.cells source = y := hy
    exact runs_fixedOp_onCells hm hcell hb fun ht hop heq => hapart ht hop u (heq ▸ rfl)

end

theorem runs_fixedOp (hm : m.HasConstants) (h : m.Holds next a b x y) (ha : a.SparesConstants)
    (hb : b.SparesConstants) (hzero : op.divides = true → y ≠ 0) :
    TryRuns engine next m (fixedOp a op b) fun _ d m' => d.Is id m'.cells
      (if a.isStatic && b.isStatic then op.onFixed x y else op.onCells x y) := by
  cases a with
  | dynamic a temporary =>
    obtain rfl : m.cells a = x := h.left
    refine (runs_fixedOp_cell hm ha h.rightBefore h.right (fun _ => hzero) fun _ _ u => ?_).mono fun _ _ _ h => ?_
    · exact h.apart a temporary u rfl
    · exact h.is (fixedResult_eq hzero _)
  | static a =>
    obtain rfl : a = x := h.left
    cases b with
    | static b =>
      obtain rfl : b = y := h.right
      rw [fixedOp, if_neg fun h => hzero h.1 h.2]
      exact .pure rfl
    | dynamic b temporary =>
      obtain rfl : m.cells b = y := h.right
      simp only [Datum.isStatic, Bool.and_false, Bool.false_eq_true, if_false]
      rw [fixedOp]
      split
      next hcommutes =>
        have hdivides : op.divides = true → a ≠ 0 := fun h => by cases op <;> cases hcommutes <;> cases h
        refine (runs_fixedOp_onCell hm hb hdivides).mono fun _ _ _ h => h.is ?_
        rw [fixedResult_eq hdivides, onCells_comm hcommutes]
      next =>
        have hfresh : b ≠ .temporary next := Before.ne_temporary h.rightBefore
        have hlead := m.put_cells_of_ne a hfresh
        refine .bind (.lift (runs_load (.mono (runs_fixedOp_onCells ?_ ?_ ?_ fun _ _ => hfresh) ?_)))
        · intro value
          rw [m.put_cells_of_ne _ (constant_ne_temporary value next), hm value]
        · exact fun _ value => constant_ne_temporary value next
        · exact Before.mono h.rightBefore (Nat.le_succ _)
        · intro n d m' hd
          refine hd.is ?_
          rw [hlead, m.put_cells_self, fixedResult_eq hzero]

end Words

def Relation.isVoid : Relation → Int32 → Bool
  | .less, bound => bound == Int32.minValue
  | .greater, bound => bound == Int32.maxValue
  | _, _ => false

/-- Whether the code for a comparison takes two words to be in a relation although they are not: one of them is known and
is the last word, and the other would have to be beyond it. -/
def Relation.slips (relation : Relation) (known known' : Bool) (x y : Int32) : Bool :=
  x == y && match known, known' with
    | false, true => relation.isVoid y
    | true, false => relation.swapped.isVoid x
    | _, _ => false

section Truth

open Emit

variable {m : Machine World} {truth x : Bool} {d : Datum Bool Cell} {relation : Relation} {a b : Datum Bool Cell}
  {y : Bool}

/-- A range tests a relation, except that a bound which cannot be moved lets its own word through. -/
theorem holds_rangeCondition (m : Machine World) (cell : Cell) (relation : Relation) (value : Int32) :
    engine.holds m (rangeCondition cell relation value) =
      (relation.holds (m.cells cell) value || relation.isVoid value && m.cells cell == value) := by
  have hequal : (decide (value ≤ m.cells cell) && decide (m.cells cell ≤ value)) =
      (m.cells cell == value) := by
    rw [Bool.beq_eq_decide_eq, ← Bool.decide_and, decide_eq_decide]
    constructor
    · exact fun ⟨hlow, hhigh⟩ => Int32.le_antisymm hhigh hlow
    · exact fun heq => heq ▸ ⟨Int32.le_refl _, Int32.le_refl _⟩
  cases relation with
  | equal => simpa [Engine.holds, rangeCondition, Engine.passes, Relation.holds, Relation.isVoid] using hequal
  | notEqual =>
    have hnot := congrArg Bool.not hequal
    simpa [Engine.holds, rangeCondition, Engine.passes, Relation.holds, Relation.isVoid, bne] using hnot
  | lessEqual | greaterEqual =>
    simp [Engine.holds, rangeCondition, Engine.passes, Relation.holds, Relation.isVoid]
  | less =>
    by_cases hvalue : value = Int32.minValue
    · subst hvalue
      simp [Engine.holds, rangeCondition, Engine.passes, Relation.holds, Relation.isVoid, Word.pred,
        Bool.beq_eq_decide_eq]
    · simp [Engine.holds, rangeCondition, Engine.passes, Relation.holds, Relation.isVoid, hvalue,
        Word.le_pred_iff hvalue]
  | greater =>
    by_cases hvalue : value = Int32.maxValue
    · subst hvalue
      simp [Engine.holds, rangeCondition, Engine.passes, Relation.holds, Relation.isVoid, Word.succ,
        Bool.beq_eq_decide_eq]
    · simp [Engine.holds, rangeCondition, Engine.passes, Relation.holds, Relation.isVoid, hvalue,
        Word.succ_le_iff hvalue]

theorem holds_cellCondition (m : Machine World) (a : Cell) (relation : Relation) (b : Cell) :
    engine.holds m (cellCondition a relation b) = relation.holds (m.cells a) (m.cells b) := by
  cases relation with
  | notEqual => simp [Engine.holds, cellCondition, Engine.passes, Relation.holds, bne]
  | _ => simp [Engine.holds, cellCondition, Engine.passes]

theorem Relation.holds_swapped (relation : Relation) (a b : Int32) :
    relation.swapped.holds b a = relation.holds a b := by
  cases relation with
  | equal => exact Bool.beq_comm
  | notEqual => exact congrArg Bool.not Bool.beq_comm
  | _ => rfl

/-- Whether a truth value is known or in a cell that was taken before, where nothing but fresh cells was written. -/
structure Emit.Tells (next : Nat) (m : Machine World) (truth : Bool) (n : Nat) (d : Datum Bool Cell)
    (m' : Machine World) : Prop where
  is : d.Is Word.ofBool m'.cells truth
  next_le : next ≤ n
  before : d.Places fun c _ => c.Before n
  same : ∀ c, c.Before next → m'.cells c = m.cells c

theorem Emit.Tells.after {next' : Nat} {m1 m' : Machine World} (h : Tells next' m1 truth n d m') (hle : next ≤ next')
    (hsame : ∀ c, c.Before next → m1.cells c = m.cells c) : Tells next m truth n d m' where
  is := h.is
  next_le := hle.trans h.next_le
  before := h.before
  same c hc := (h.same c (hc.mono hle)).trans (hsame c hc)

theorem Emit.tells_unchanged (hd : d.Places fun c _ => c.Before next) (h : d.Is Word.ofBool m.cells truth) :
    Tells next m truth next d m :=
  ⟨h, .refl, hd, fun _ _ => rfl⟩

theorem runs_tested (h : engine.holdsAll m conditions = truth) :
    Runs engine next m (do return (.dynamic (← testCell conditions) true : Datum Bool Cell)) (Tells next m truth) := by
  refine .bind (runs_testCell (.pure ⟨?_, Nat.le_succ _, before_temporary next, fun c hc => ?_⟩))
  · exact (m.put_cells_self _ _).trans (congrArg Word.ofBool h)
  · exact m.put_cells_of_ne _ hc.ne_temporary

theorem runs_compareWords {a b : Datum Int32 Cell} {x y : Int32} (relation : Relation) (hx : a.Is id m.cells x)
    (hy : b.Is id m.cells y) :
    Runs engine next m (compareWords a relation b)
      (Tells next m (relation.holds x y || relation.slips a.isStatic b.isStatic x y)) := by
  unfold compareWords
  split
  next a b =>
    obtain ⟨rfl, rfl⟩ : a = x ∧ b = y := ⟨hx, hy⟩
    refine .pure (tells_unchanged trivial ?_)
    simp [Datum.Is, Relation.slips, Datum.isStatic]
  next a _ b =>
    obtain ⟨rfl, rfl⟩ : m.cells a = x ∧ b = y := ⟨hx, hy⟩
    refine runs_tested ?_
    rw [Engine.holdsAll_singleton, holds_rangeCondition, Bool.and_comm]
    rfl
  next a b _ =>
    obtain ⟨rfl, rfl⟩ : a = x ∧ m.cells b = y := ⟨hx, hy⟩
    refine runs_tested ?_
    rw [Engine.holdsAll_singleton, holds_rangeCondition, Relation.holds_swapped, Bool.and_comm, Bool.beq_comm]
    rfl
  next a _ b _ =>
    obtain ⟨rfl, rfl⟩ : m.cells a = x ∧ m.cells b = y := ⟨hx, hy⟩
    refine runs_tested ?_
    rw [Engine.holdsAll_singleton, holds_cellCondition]
    simp [Relation.slips, Datum.isStatic]

theorem Relation.holds_ofBool (h : relation.isEquality = true) (a b : Bool) :
    relation.holds (Word.ofBool a) (Word.ofBool b) = ((a == b) == (relation == .equal)) := by
  cases relation with
  | equal | notEqual => cases a <;> cases b <;> decide
  | _ => cases h

theorem runs_boolCell (hd : d.Places fun c _ => c.Before next) (hx : d.Is Word.ofBool m.cells x) :
    Runs engine next m (boolCell d) fun n c m' => next ≤ n ∧ c.Before n ∧ m'.cells c = Word.ofBool x ∧
      ∀ other, other.Before next → m'.cells other = m.cells other := by
  cases d with
  | static b =>
    obtain rfl : b = x := hx
    refine runs_load ⟨Nat.le_succ _, ?_, m.put_cells_self _ _, fun other hother => ?_⟩
    · exact before_temporary next
    · exact m.put_cells_of_ne _ hother.ne_temporary
  | dynamic c temporary => exact .pure ⟨.refl, hd, hx, fun _ _ => rfl⟩

theorem runs_compareBools (hrelation : relation.isEquality = true) (ha : a.Places fun c _ => c.Before next)
    (hb : b.Places fun c _ => c.Before next) (hx : a.Is Word.ofBool m.cells x) (hy : b.Is Word.ofBool m.cells y) :
    Runs engine next m (compareBools a relation b) (Tells next m ((x == y) == (relation == .equal))) := by
  unfold compareBools
  split
  next a b =>
    obtain ⟨rfl, rfl⟩ : a = x ∧ b = y := ⟨hx, hy⟩
    exact .pure (tells_unchanged trivial rfl)
  next =>
    refine .bind (.mono (runs_boolCell ha hx) fun n first m1 ⟨hle, hbefore, hfirst, hsame⟩ => ?_)
    have hy' : b.Is Word.ofBool m1.cells y := hy.of_same hb hsame
    refine .bind (.mono (runs_boolCell (hb.mono fun _ _ hc => hc.mono hle) hy') ?_)
    rintro n' second m2 ⟨hle', -, hsecond, hsame'⟩
    rw [← Relation.holds_ofBool hrelation]
    have hcompare : Runs engine n' m2 (compareWords (.dynamic first false) relation (.dynamic second false)) _ :=
      runs_compareWords relation ((hsame' first hbefore).trans hfirst) hsecond
    simp only [Relation.slips, Datum.isStatic, Bool.and_false, Bool.or_false] at hcompare
    refine hcompare.mono fun _ _ _ h => h.after (hle.trans hle') fun c hc => ?_
    exact (hsame' c (hc.mono hle)).trans (hsame c hc)

theorem holds_isTrue {b : Bool} (h : m.cells cell = Word.ofBool b) :
    engine.holds m (.isTrue cell) = b ∧ engine.holds m (Condition.isTrue cell).negated = !b := by
  simp only [Engine.holds, Condition.isTrue, Condition.negated, Engine.passes, h, Option.all_some,
    Option.all_none, Bool.and_true]
  cases b <;> decide

theorem runs_logic {isAnd : Bool} (ha : a.Places fun c _ => c.Before next)
    (hb : b.Places fun c _ => c.Before next) (hx : a.Is Word.ofBool m.cells x) (hy : b.Is Word.ofBool m.cells y) :
    Runs engine next m (logic isAnd a b) (Tells next m (if isAnd then x && y else x || y)) := by
  unfold logic
  split
  next a b =>
    obtain ⟨rfl, rfl⟩ : a = x ∧ b = y := ⟨hx, hy⟩
    exact .pure (tells_unchanged trivial rfl)
  next s _ =>
    obtain rfl : s = x := hx
    cases s <;> cases isAnd <;> first | exact .pure (tells_unchanged hb hy) | exact .pure (tells_unchanged trivial rfl)
  next s _ =>
    obtain rfl : s = y := hy
    cases s <;> cases isAnd <;> cases x <;>
      first | exact .pure (tells_unchanged ha hx) | exact .pure (tells_unchanged trivial rfl)
  next a _ b _ =>
    split
    next hand =>
      refine runs_tested ?_
      simp [Engine.holdsAll, holds_isTrue hx, holds_isTrue hy]
    next hand =>
      have hneither : (m.put (.temporary next) (Word.ofBool (engine.holdsAll m
          [(Condition.isTrue a).negated, (Condition.isTrue b).negated]))).cells (.temporary next) =
            Word.ofBool (!x && !y) := by
        simp [Engine.holdsAll, holds_isTrue hx, holds_isTrue hy]
      refine .bind (runs_testCell ((runs_tested ?_).mono fun _ _ _ h => h.after (Nat.le_succ _) fun c hc => ?_))
      · rw [Engine.holdsAll_singleton, (holds_isTrue hneither).2]
        simp
      · exact m.put_cells_of_ne _ hc.ne_temporary

theorem runs_not (hx : m.cells cell = Word.ofBool x) :
    Runs engine next m (do return (.dynamic (← testCell [(Condition.isTrue cell).negated]) true : Datum Bool Cell))
      (Tells next m (!x)) := by
  refine runs_tested ?_
  rw [Engine.holdsAll_singleton, (holds_isTrue hx).2]

end Truth

end Datapack
