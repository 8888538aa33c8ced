import Mathlib.Data.Rat.Floor
import Datapack.Compile.Call

/-!
Ranges. A range is an arithmetic progression: it has one number for each multiple of the step that leaves the start short
of the stop, each of them a word that needs no wrapping around. The loop that lists them ends by itself, or because of
the limit, after at most one round more than the limit.
-/

namespace Datapack.Compile

open List

/-- Whether a number comes before the stop of a progression, which for a negative step means above it. -/
abbrev Precedes (stop step i : Int) : Prop := 0 < step ∧ i < stop ∨ step < 0 ∧ stop < i

def progressionLength (start stop step : Int) : Nat := ⌈((stop - start : Int) : ℚ) / step⌉.toNat

variable {start stop step : Int} {limit : Nat}

theorem lt_progressionLength (hstep : step ≠ 0) (k : Nat) :
    k < progressionLength start stop step ↔ Precedes stop step (start + k * step) := by
  have hreal : k < progressionLength start stop step ↔ (k : ℚ) < ((stop - start : Int) : ℚ) / step := by
    rw [progressionLength, Int.lt_toNat, Int.lt_ceil, Int.cast_natCast]
  rw [hreal, Precedes]
  obtain hneg | hpos := lt_or_gt_of_ne hstep
  · rw [lt_div_iff_of_neg (Int.cast_lt_zero.mpr hneg), ← Int.cast_natCast, ← Int.cast_mul, Int.cast_lt]
    omega
  · rw [lt_div_iff₀ (Int.cast_pos.mpr hpos), ← Int.cast_natCast, ← Int.cast_mul, Int.cast_lt]
    omega

theorem progressionLength_next (hstep : step ≠ 0) (h : Precedes stop step start) :
    progressionLength start stop step = progressionLength (start + step) stop step + 1 := by
  have hsame : ∀ k, k < progressionLength (start + step) stop step ↔ k + 1 < progressionLength start stop step := by
    intro k
    rw [lt_progressionLength hstep, lt_progressionLength hstep, Nat.cast_succ, add_one_mul, add_right_comm, add_assoc]
  have hpos : 0 < progressionLength start stop step := by
    rw [lt_progressionLength hstep]
    simpa using h
  have hbelow := hsame (progressionLength (start + step) stop step)
  have hlast := hsame (progressionLength start stop step - 1)
  omega

def progressionItems (start step : Int) (length : Nat) : List Value :=
  (List.range length).map fun (k : Nat) => .number (.static (.ofInt (start + k * step)))

theorem progressionItems_succ (start step : Int) (length : Nat) :
    progressionItems start step (length + 1) =
      .number (.static (.ofInt start)) :: progressionItems (start + step) step length := by
  simp only [progressionItems, range_succ_eq_map, map_cons, map_map]
  congr 1
  · simp
  · refine map_congr_left fun k _ => ?_
    simp only [Function.comp_apply, Nat.succ_eq_add_one, Nat.cast_add, Nat.cast_one, add_one_mul]
    rw [add_assoc, add_comm step]

theorem progressionLength_eq_zero (hstep : step ≠ 0) (h : ¬ Precedes stop step start) :
    progressionLength start stop step = 0 := by
  by_contra hne
  have hfirst := (lt_progressionLength hstep 0).mp (Nat.pos_of_ne_zero hne)
  rw [Nat.cast_zero, zero_mul, add_zero] at hfirst
  exact h hfirst

theorem progression?_eq (hstep : step ≠ 0) : progression? stop step limit start =
    if progressionLength start stop step ≤ limit then
      some (progressionItems start step (progressionLength start stop step))
    else none := by
  induction limit generalizing start with
  | zero =>
    rw [progression?]
    split
    next h => rw [progressionLength_next hstep h, if_neg (by omega)]
    next h => rw [progressionLength_eq_zero hstep h, if_pos (Nat.le_refl 0), progressionItems, range_zero, map_nil]
  | succ limit ih =>
    rw [progression?]
    split
    next h =>
      simp only [ih, progressionLength_next hstep h, Nat.add_le_add_iff_right, progressionItems_succ]
      split <;> rfl
    next h => rw [progressionLength_eq_zero hstep h, if_pos (Nat.zero_le _), progressionItems, range_zero, map_nil]

/-- The loop that lists a progression, between two rounds: the numbers so far, and the one to look at next. -/
structure Listing where
  items : List Value
  next : Int

/-- One round of the loop. It ends with the numbers listed, or without any because they are too many, or there is
another round. -/
def Listing.round (stop step : Int) (listing : Listing) : Option (List Value) ⊕ Listing :=
  if Precedes stop step listing.next then
    if rangeLimit ≤ listing.items.length then .inl none
    else .inr ⟨listing.items ++ [.number (.static (.ofInt listing.next))], listing.next + step⟩
  else .inl (some listing.items)

def Listing.ends? (stop step : Int) : (rounds : Nat) → Listing → Option (Option (List Value))
  | 0, _ => none
  | rounds + 1, listing =>
    match listing.round stop step with
    | .inl outcome => some outcome
    | .inr next => next.ends? stop step rounds

theorem Listing.ends?_eq (items : List Value) (h : items.length + limit = rangeLimit) :
    ends? stop step (limit + 1) ⟨items, start⟩ = some ((progression? stop step limit start).map (items ++ ·)) := by
  induction limit generalizing items start with
  | zero =>
    have hfull : rangeLimit ≤ items.length := by omega
    by_cases hmore : Precedes stop step start <;> simp [ends?, round, progression?, hmore, hfull]
  | succ limit ih =>
    have hroom : ¬ rangeLimit ≤ items.length := by omega
    have hrest := @ih (start + step) (items ++ [.number (.static (.ofInt start))]) (by simp; omega)
    rw [ends?, round, progression?]
    by_cases hmore : Precedes stop step start
    · simp only [if_pos hmore, if_neg hroom, hrest, Option.map_map]
      congr 2
      funext more
      simp
    · simp [hmore]

theorem rangeItems_known (start stop step : Int32) :
    rangeItems (Builtin.known start) (Builtin.known stop) (Builtin.known step) =
      if step = 0 then .error (.invalidArgument "`range` needs a step other than 0")
      else if progressionLength start.toInt stop.toInt step.toInt ≤ rangeLimit then
        .ok (.array (progressionItems start.toInt step.toInt (progressionLength start.toInt stop.toInt step.toInt)))
      else
        .error (.invalidArgument ("`range` cannot unroll into more than " ++ toString rangeLimit ++ " elements")) := by
  change (if step = 0 then _ else _) = _
  split
  next => rfl
  next hstep =>
    have hitems := @progression?_eq start.toInt stop.toInt step.toInt rangeLimit fun h => hstep (Int32.toInt_inj.mp h)
    simp only [Builtin.known, knownWord?, Option.getD_some, hitems]
    by_cases hlength : progressionLength start.toInt stop.toInt step.toInt ≤ rangeLimit
    · rw [if_pos hlength, if_pos hlength]
    · rw [if_neg hlength, if_neg hlength]

theorem toInt_ofInt_progression {start stop step : Int32} (hstep : step.toInt ≠ 0) {k : Nat}
    (hk : k < progressionLength start.toInt stop.toInt step.toInt) :
    (Int32.ofInt (start.toInt + k * step.toInt)).toInt = start.toInt + k * step.toInt := by
  have hbefore := (lt_progressionLength hstep k).mp hk
  have hstart := And.intro start.le_toInt start.toInt_lt
  have hstop := And.intro stop.le_toInt stop.toInt_lt
  obtain ⟨hpos, hlt⟩ | ⟨hneg, hlt⟩ := hbefore
  · have hsteps : 0 ≤ (k : Int) * step.toInt := Int.mul_nonneg (by omega) (by omega)
    exact Int32.toInt_ofInt_of_le (by omega) (by omega)
  · have hsteps : (k : Int) * step.toInt ≤ 0 := Int.mul_nonpos_of_nonneg_of_nonpos (by omega) (by omega)
    exact Int32.toInt_ofInt_of_le (by omega) (by omega)

/-- The range of three words is the progression from the start by the step that comes before the stop: as many words as
there are numbers before the stop, each equal to its number. It is refused if the step is zero or if there are more than
ten thousand numbers. The start is zero and the step is one unless they are told, and the loop ends for all words. -/
theorem range_lists_progression (start stop step : Int32) (span : Span) :
    (step = 0 ∨ 10000 < progressionLength start.toInt stop.toInt step.toInt → ∃ message,
      callBuiltin .range [Builtin.known start, Builtin.known stop, Builtin.known step] span =
        fail (.invalidArgument message) span) ∧
    (step ≠ 0 → progressionLength start.toInt stop.toInt step.toInt ≤ 10000 → ∃ words : List Int32,
      callBuiltin .range [Builtin.known start, Builtin.known stop, Builtin.known step] span =
        pure (.array (words.map Builtin.known)) ∧
      words.map Int32.toInt = (List.range (progressionLength start.toInt stop.toInt step.toInt)).map
        fun (k : Nat) => start.toInt + k * step.toInt) ∧
    (step ≠ 0 → ∀ k : Nat, k < progressionLength start.toInt stop.toInt step.toInt ↔
      Precedes stop.toInt step.toInt (start.toInt + k * step.toInt)) ∧
    callBuiltin .range [Builtin.known stop] span =
      callBuiltin .range [Builtin.known 0, Builtin.known stop, Builtin.known 1] span ∧
    callBuiltin .range [Builtin.known start, Builtin.known stop] span =
      callBuiltin .range [Builtin.known start, Builtin.known stop, Builtin.known 1] span ∧
    Listing.ends? stop.toInt step.toInt 10001 ⟨[], start.toInt⟩ =
      some (progression? stop.toInt step.toInt rangeLimit start.toInt) := by
  have hcall : callBuiltin .range [Builtin.known start, Builtin.known stop, Builtin.known step] span =
      orFail span (rangeItems (Builtin.known start) (Builtin.known stop) (Builtin.known step)) := rfl
  have hzero : step.toInt = 0 → step = 0 := fun h => Int32.toInt_inj.mp h
  have hlimit : rangeLimit = 10000 := rfl
  rw [hcall, rangeItems_known, hlimit]
  refine ⟨fun h => ?_, fun hstep hlength => ?_, fun hstep => lt_progressionLength (mt hzero hstep), rfl, rfl, ?_⟩
  · split
    next => exact ⟨_, rfl⟩
    next hstep => exact ⟨_, by rw [if_neg (Nat.not_le.mpr (h.resolve_left hstep)), orFail]⟩
  · refine ⟨(List.range (progressionLength start.toInt stop.toInt step.toInt)).map
      fun (k : Nat) => .ofInt (start.toInt + k * step.toInt), ?_, ?_⟩
    · rw [if_neg hstep, if_pos hlength, orFail, progressionItems, List.map_map]
      rfl
    · rw [List.map_map]
      exact List.map_congr_left fun k hk => toInt_ofInt_progression (mt hzero hstep) (List.mem_range.mp hk)
  · have hends := @Listing.ends?_eq start.toInt stop.toInt step.toInt 10000 [] rfl
    rw [hends, Option.map_congr fun items _ => List.nil_append items, Option.map_id']

theorem range_lists_progression_falling : ∃ words : List Int32,
    callBuiltin .range [Builtin.known 5, Builtin.known (-5), Builtin.known (-4)] Span.zero =
      pure (.array (words.map Builtin.known)) ∧ words.map Int32.toInt = [5, 1, -3] := by
  have hlength : progressionLength (5 : Int32).toInt (-5 : Int32).toInt (-4 : Int32).toInt = 3 := by
    have hceil : ⌈((-5 - 5 : Int) : ℚ) / (-4 : Int)⌉ = 3 := by norm_num [Int.ceil_eq_iff]
    exact congrArg Int.toNat hceil
  have hprogression := range_lists_progression 5 (-5) (-4) Span.zero
  rw [hlength] at hprogression
  exact hprogression.2.1 (by decide) (by decide)

end Datapack.Compile
