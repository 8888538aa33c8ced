import Datapack.Value.Operator
import Mathlib.Data.Rat.Floor

/-!
Arithmetic of words as arithmetic of integers. The quotient that is rounded down differs from the one that is cut towards
zero by one where the division leaves a remainder and the signs differ; its remainder is exact.
-/

namespace Datapack.Word

variable {a b : Int32}

theorem le_pred_iff (h : b ≠ Int32.minValue) : a ≤ pred b ↔ a < b := by
  have hb : b.toInt ≠ -2 ^ 31 := fun heq => h (Int32.toInt_inj.mp heq)
  have hlow := b.le_toInt
  have hhigh := b.toInt_lt
  have hone : (1 : Int32).toInt = 1 := rfl
  rw [pred, if_neg h, Int32.le_iff_toInt_le, Int32.lt_iff_toInt_lt, Int32.toInt_sub, hone, Int.bmod_eq_of_le]
  all_goals omega

theorem succ_le_iff (h : a ≠ Int32.maxValue) : succ a ≤ b ↔ a < b := by
  have ha : a.toInt ≠ 2 ^ 31 - 1 := fun heq => h (Int32.toInt_inj.mp heq)
  have hlow := a.le_toInt
  have hhigh := a.toInt_lt
  have hone : (1 : Int32).toInt = 1 := rfl
  rw [succ, if_neg h, Int32.le_iff_toInt_le, Int32.lt_iff_toInt_lt, Int32.toInt_add, hone, Int.bmod_eq_of_le]
  all_goals omega

def Fits (n : Int) : Prop := Int32.minValue.toInt ≤ n ∧ n ≤ Int32.maxValue.toInt

instance (n : Int) : Decidable (Fits n) := inferInstanceAs (Decidable (_ ∧ _))

theorem toInt_ofInt {n : Int} (h : Fits n) : (Int32.ofInt n).toInt = n :=
  Int32.toInt_ofInt_of_le h.1 (Int.lt_add_one_iff.mpr h.2)

theorem fdiv_eq {a b : Int} (hb : b ≠ 0) : a.fdiv b = a.tdiv b - if b ∣ a ∨ (a < 0 ↔ b < 0) then 0 else 1 := by
  rw [Int.fdiv_eq_tdiv]
  congr 1
  by_cases hdvd : b ∣ a
  · simp [hdvd]
  · simp only [hdvd, if_false, false_or]
    obtain hneg | hpos := Int.lt_or_gt_of_ne hb
    · rw [Int.sign_eq_neg_one_of_neg hneg]
      split <;> split <;> split <;> omega
    · rw [Int.sign_eq_one_of_pos hpos]
      split <;> split <;> split <;> omega

theorem neg_iff (a : Int32) : a < 0 ↔ a.toInt < 0 := Int32.lt_iff_toInt_lt

theorem toInt_ne_zero (h : a ≠ 0) : a.toInt ≠ 0 := fun heq => h (Int32.toInt_inj.mp heq)

theorem floorDiv_eq (hb : b ≠ 0) : floorDiv a b = .ofInt (a.toInt.fdiv b.toInt) := by
  have hquotient : a / b = .ofInt (a.toInt.tdiv b.toInt) := by
    rw [← Int32.toInt_inj, Int32.toInt_div, Int32.toInt_ofInt]
  have hexact : a % b = 0 ↔ b.toInt ∣ a.toInt := by
    rw [← Int32.toInt_inj, Int32.toInt_mod, Int.dvd_iff_tmod_eq_zero]
    rfl
  rw [fdiv_eq (toInt_ne_zero hb), Int32.ofInt_sub, ← hquotient, floorDiv]
  simp only [ne_eq, hexact, neg_iff, decide_eq_decide, ← not_or]
  rw [ite_not]
  split
  · exact (Int32.sub_zero _).symm
  · rfl

theorem floorDiv_eq_tdiv_iff (hb : b ≠ 0) :
    floorDiv a b = .ofInt (a.toInt.tdiv b.toInt) ↔ b.toInt ∣ a.toInt ∨ (a.toInt < 0 ↔ b.toInt < 0) := by
  rw [floorDiv_eq hb, fdiv_eq (toInt_ne_zero hb), Int32.ofInt_sub]
  split
  next h => exact iff_of_true (Int32.sub_zero _) h
  next h =>
    refine iff_of_false (fun heq => ?_) h
    have hone : Int32.ofInt 1 = 0 := (Int32.sub_right_inj _).mp (heq.trans (Int32.sub_zero _).symm)
    exact absurd hone (by decide)

theorem floor_eq_fdiv (a b : Int) : ⌊(a / b : ℚ)⌋ = a.fdiv b := by
  obtain hb | hb := Int.le_total 0 b
  · rw [Int.floor_div_cast_of_nonneg hb, Int.floor_intCast, Int.fdiv_eq_ediv_of_nonneg a hb]
  · rw [← neg_div_neg_eq, ← Int.cast_neg, ← Int.cast_neg, Int.floor_div_cast_of_nonneg (by omega),
      Int.floor_intCast, ← Int.fdiv_eq_ediv_of_nonneg _ (by omega), Int.neg_fdiv_neg]

theorem fmod_eq {a b : Int} (hb : b ≠ 0) :
    a.fmod b = a.tmod b + if a.tmod b ≠ 0 ∧ ¬(a.tmod b < 0 ↔ b < 0) then b else 0 := by
  have hsign : a.tmod b ≠ 0 → (a.tmod b < 0 ↔ a < 0) := by
    intro hne
    obtain ha | ha := lt_or_ge a 0
    · have := Int.neg_tmod .. ▸ Int.tmod_nonneg b (Int.neg_nonneg_of_nonpos ha.le)
      omega
    · have := Int.tmod_nonneg b ha
      omega
  rw [Int.fmod_def, fdiv_eq hb, mul_sub, ← sub_add, ← Int.tmod_def]
  by_cases hzero : a.tmod b = 0
  · simp [hzero, Int.dvd_iff_tmod_eq_zero]
  · simp [hzero, hsign hzero, Int.dvd_iff_tmod_eq_zero]

theorem toInt_floorMod (hb : b ≠ 0) : (floorMod a b).toInt = a.toInt.fmod b.toInt := by
  have hzero : a % b ≠ 0 ↔ a.toInt.tmod b.toInt ≠ 0 := by
    rw [Ne, ← Int32.toInt_inj, Int32.toInt_mod]
    rfl
  have hr := Int32.toInt_mod a b ▸ (a % b).le_toInt
  have hr' := Int32.toInt_mod a b ▸ (a % b).toInt_lt
  have hlow := b.le_toInt
  have hhigh := b.toInt_lt
  rw [fmod_eq (toInt_ne_zero hb), floorMod]
  simp only [hzero, neg_iff, ne_eq, decide_eq_decide, Int32.toInt_mod]
  split
  -- the remainder and the divisor differ in sign here, so that their sum does not wrap
  · rw [Int32.toInt_add, Int32.toInt_mod, Int.bmod_eq_of_le] <;> omega
  · rw [Int32.toInt_mod, Int.add_zero]

theorem fmod_bounds {a b : Int} (hb : b ≠ 0) :
    (a.fmod b = 0 ∨ (a.fmod b).sign = b.sign) ∧ (a.fmod b).natAbs < b.natAbs := by
  obtain hneg | hpos := Int.lt_or_gt_of_ne hb
  · have hlow := Int.fmod_nonneg_of_pos (-a) (Int.neg_pos_of_neg hneg)
    have hhigh := Int.fmod_lt_of_pos (-a) (Int.neg_pos_of_neg hneg)
    rw [Int.neg_fmod_neg] at hlow hhigh
    refine ⟨or_iff_not_imp_left.mpr fun hne => ?_, by omega⟩
    rw [Int.sign_eq_neg_one_of_neg hneg, Int.sign_eq_neg_one_of_neg (by omega)]
  · have hlow := Int.fmod_nonneg_of_pos a hpos
    have hhigh := Int.fmod_lt_of_pos a hpos
    refine ⟨or_iff_not_imp_left.mpr fun hne => ?_, by omega⟩
    rw [Int.sign_eq_one_of_pos hpos, Int.sign_eq_one_of_pos (by omega)]

/-- Division of words rounds down and its remainder goes with it. The quotient is the floor of the exact one, wrapped; the
remainder is exact, has the sign of the divisor unless it is zero, and is closer to zero than the divisor. Together they
give the dividend back. -/
theorem floor_division_recombines (hb : b ≠ 0) :
    floorDiv a b = .ofInt ⌊(a.toInt / b.toInt : ℚ)⌋ ∧
    (floorMod a b).toInt = a.toInt - b.toInt * ⌊(a.toInt / b.toInt : ℚ)⌋ ∧
    ((floorMod a b).toInt = 0 ∨ (floorMod a b).toInt.sign = b.toInt.sign) ∧
    (floorMod a b).toInt.natAbs < b.toInt.natAbs ∧
    floorDiv a b * b + floorMod a b = a := by
  obtain ⟨hsign, hbound⟩ := fmod_bounds (a := a.toInt) (toInt_ne_zero hb)
  have hmod := toInt_floorMod (a := a) hb
  refine ⟨?_, ?_, hmod ▸ hsign, hmod ▸ hbound, ?_⟩
  · rw [floor_eq_fdiv, floorDiv_eq hb]
  · rw [floor_eq_fdiv, hmod, Int.fmod_def]
  · calc floorDiv a b * b + floorMod a b
        = .ofInt (b.toInt * a.toInt.fdiv b.toInt + a.toInt.fmod b.toInt) := by
          rw [floorDiv_eq hb, ← hmod, Int.mul_comm, Int32.ofInt_add, Int32.ofInt_mul, Int32.ofInt_toInt,
            Int32.ofInt_toInt]
      _ = a := by rw [Int.mul_fdiv_add_fmod, Int32.ofInt_toInt]

theorem floor_division_recombines_least :
    (-1 : Int32) ≠ 0 ∧ floorDiv .minValue (-1) = .ofInt ⌊(Int32.minValue.toInt / (-1 : Int32).toInt : ℚ)⌋ ∧
      floorDiv .minValue (-1) * -1 + floorMod .minValue (-1) = .minValue := by
  obtain ⟨hquotient, -, -, -, hsum⟩ := floor_division_recombines (a := .minValue) (b := -1) (by decide)
  exact ⟨by decide, hquotient, hsum⟩

end Datapack.Word
