import Mathlib.Data.Rat.Floor
import ScoreScript.Compile.Arithmetic

/-!
# Division that rounds down

A quotient of scores is truncated first, and then made smaller by one where something was cut off and the
signs differ. No step leaves the range of scores, and the result is the floor of the exact quotient.
-/

namespace ScoreScript

namespace Score

variable {a b q : Score}

/-! ## Integers -/

/-- What a division by `b` that rounds down can leave. -/
def IsRemainder (r b : Int) : Prop :=
  (0 ≤ r ∧ r < b) ∨ (b < r ∧ r ≤ 0)

instance (r b : Int) : Decidable (IsRemainder r b) :=
  inferInstanceAs (Decidable (_ ∨ _))

private theorem floor_eq_of_isRemainder {a b q : Int} (left : IsRemainder (a - q * b) b) : ⌊(a : ℚ) / b⌋ = q := by
  rw [Int.floor_eq_iff]
  rcases left with ⟨atLeast, less⟩ | ⟨more, atMost⟩
  · have positive : (0 : ℚ) < b := by exact_mod_cast Int.lt_of_le_of_lt atLeast less
    rw [le_div_iff₀ positive, div_lt_iff₀ positive]
    exact ⟨by exact_mod_cast sub_nonneg.mp atLeast, by norm_cast; linarith⟩
  · have negative : (b : ℚ) < 0 := by exact_mod_cast Int.lt_of_lt_of_le more atMost
    rw [le_div_iff_of_neg negative, div_lt_iff_of_neg negative]
    exact ⟨by exact_mod_cast sub_nonpos.mp atMost, by norm_cast; linarith⟩

/-- Truncation leaves something with the sign of the dividend. Where that is not the sign of the divisor,
the quotient one below leaves something that has it. -/
private theorem isRemainder_tmod (a : Int) {b : Int} (nonzero : b ≠ 0) :
    if a.tmod b ≠ 0 ∧ ¬(a < 0 ↔ b < 0) then IsRemainder (a.tmod b + b) b else IsRemainder (a.tmod b) b := by
  have small : (a.tmod b).natAbs < b.natAbs := by
    rw [Int.natAbs_tmod]
    exact Nat.mod_lt _ (Int.natAbs_pos.mpr nonzero)
  have above : 0 ≤ a → 0 ≤ a.tmod b := Int.tmod_nonneg b
  have below : a ≤ 0 → a.tmod b ≤ 0 := by
    intro negative
    have opposite := Int.tmod_nonneg b (Int.neg_nonneg_of_nonpos negative)
    rw [Int.neg_tmod] at opposite
    omega
  unfold IsRemainder
  split <;> omega

/-! ## The steps -/

/-- There is a quotient that is a score. -/
def Divides (a b : Score) : Prop :=
  b ≠ 0 ∧ ¬(a = Int32.minValue ∧ b = -1)

private theorem toInt_mod_eq_zero : a.toInt.tmod b.toInt = 0 ↔ a % b = 0 := by
  rw [← Int32.toInt_mod, ← Int32.toInt_zero, Int32.toInt_inj]

section

variable (defined : Divides a b)
include defined

theorem Divides.toInt_ne_zero : b.toInt ≠ 0 :=
  fun zero => defined.1 (Int32.toInt_inj.mp zero)

theorem Divides.toInt_div : (a / b).toInt = a.toInt.tdiv b.toInt := by
  by_cases least : a = Int32.minValue
  · exact Int32.toInt_div_of_ne_right a b (fun minus => defined.2 ⟨least, minus⟩)
  · exact Int32.toInt_div_of_ne_left a b least

/-- Where something is cut off, the divisor is at least two in size, and the quotient is not the least
score. -/
theorem Divides.toInt_div_sub_one (rest : a % b ≠ 0) : (a / b - 1).toInt = (a / b).toInt - 1 := by
  have cut : a.toInt.tmod b.toInt ≠ 0 := mt toInt_mod_eq_zero.mp rest
  have large : 2 ≤ b.toInt.natAbs := by
    have notZero := defined.toInt_ne_zero
    have notOne : b.toInt ≠ 1 := fun one => cut (by rw [one, Int.tmod_one])
    have notMinusOne : b.toInt ≠ -1 := fun minus => cut (by rw [minus, Int.tmod_neg, Int.tmod_one])
    omega
  have half : (a / b).toInt.natAbs ≤ a.toInt.natAbs / 2 := by
    rw [defined.toInt_div, Int.natAbs_tdiv]
    exact Nat.div_le_div_left large (by decide)
  have bounds := And.intro a.le_toInt a.toInt_lt
  have lowered : a / b - 1 = Int32.ofInt ((a / b).toInt - 1) := by
    rw [Int32.ofInt_sub, Int32.ofInt_toInt]
    rfl
  rw [lowered, Int32.toInt_ofInt_of_le (by omega) (by omega)]

/-! ## The results -/

theorem Divides.exists_quotient : ∃ q, floorDiv? a b = some q ∧ IsRemainder (a.toInt - q.toInt * b.toInt) b.toInt := by
  have left := isRemainder_tmod a.toInt defined.toInt_ne_zero
  have truncated := Int.tmod_def a.toInt b.toInt
  have lowers : (a % b ≠ 0 ∧ (decide (a < 0) != decide (b < 0))) ↔
      a.toInt.tmod b.toInt ≠ 0 ∧ ¬(a.toInt < 0 ↔ b.toInt < 0) := by
    simp [toInt_mod_eq_zero, Int32.lt_iff_toInt_lt]
  rw [floorDiv?, if_neg (not_or.mpr defined)]
  split
  · next cut =>
      rw [if_pos (lowers.mp cut), truncated] at left
      refine ⟨_, rfl, ?_⟩
      rw [defined.toInt_div_sub_one cut.1, defined.toInt_div]
      convert left using 1
      ring
  · next whole =>
      rw [if_neg (mt lowers.mpr whole), truncated, mul_comm] at left
      exact ⟨_, rfl, defined.toInt_div ▸ left⟩

end

/-- The product may wrap, but the difference is exact again. -/
private theorem toInt_sub_mul (left : IsRemainder (a.toInt - q.toInt * b.toInt) b.toInt) :
    (a - q * b).toInt = a.toInt - q.toInt * b.toInt := by
  have wrapped : a - q * b = Int32.ofInt (a.toInt - q.toInt * b.toInt) := by
    rw [Int32.ofInt_sub, Int32.ofInt_mul, Int32.ofInt_toInt, Int32.ofInt_toInt, Int32.ofInt_toInt]
  have bounds := And.intro b.le_toInt b.toInt_lt
  unfold IsRemainder at left
  rw [wrapped, Int32.toInt_ofInt_of_le (by omega) (by omega)]

theorem floorDiv?_eq_none_iff : floorDiv? a b = none ↔ b = 0 ∨ (a = Int32.minValue ∧ b = -1) := by
  by_cases undefined : b = 0 ∨ (a = Int32.minValue ∧ b = -1)
  · rw [floorDiv?, if_pos undefined, eq_self, true_iff]
    exact undefined
  · obtain ⟨q, quotient, _⟩ := Divides.exists_quotient (not_or.mp undefined)
    simp only [quotient, undefined, reduceCtorEq]

/-- Folding gives the floor of the quotient, which wraps for the one pair without a quotient, and what is
left then. -/
theorem fold_divide_modulo (nonzero : b ≠ 0) : Operator.fold .divide a b = .ok (Int32.ofInt ⌊(a.toInt : ℚ) / b.toInt⌋) ∧
      Operator.fold .modulo a b = .ok (Int32.ofInt (a.toInt - ⌊(a.toInt : ℚ) / b.toInt⌋ * b.toInt)) := by
  simp only [Operator.fold, if_neg nonzero, floorMod?]
  by_cases excluded : a = Int32.minValue ∧ b = -1
  · obtain ⟨rfl, rfl⟩ := excluded
    rw [floor_eq_of_isRemainder (show IsRemainder (_ - 2 ^ 31 * _) _ by decide)]
    exact ⟨rfl, rfl⟩
  · obtain ⟨q, quotient, left⟩ := Divides.exists_quotient ⟨nonzero, excluded⟩
    rw [quotient, floor_eq_of_isRemainder left, ← toInt_sub_mul left, Int32.ofInt_toInt, Int32.ofInt_toInt]
    exact ⟨rfl, rfl⟩

/-- Only zero and one pair of scores have no quotient. Otherwise every step to the quotient is exact, it is
the floor of the exact one, and the remainder is smaller than the divisor and of its sign. -/
theorem floorDiv?_exact (a b : Score) : (floorDiv? a b = none ↔ b = 0 ∨ (a = Int32.minValue ∧ b = -1)) ∧
    (floorMod? a b = none ↔ b = 0 ∨ (a = Int32.minValue ∧ b = -1)) ∧
    (¬(b = 0 ∨ (a = Int32.minValue ∧ b = -1)) →
      ((a / b).toInt = a.toInt.tdiv b.toInt ∧ (a % b).toInt = a.toInt.tmod b.toInt ∧
        (a % b ≠ 0 → (a / b - 1).toInt = (a / b).toInt - 1)) ∧
      ∃ q r, floorDiv? a b = some q ∧ floorMod? a b = some r ∧
        q.toInt = ⌊(a.toInt : ℚ) / b.toInt⌋ ∧ a.toInt = q.toInt * b.toInt + r.toInt ∧
        (r = 0 ∨ (r < 0 ↔ b < 0)) ∧ |r.toInt| < |b.toInt|) ∧
    (b ≠ 0 → Operator.fold .divide a b = .ok (Int32.ofInt ⌊(a.toInt : ℚ) / b.toInt⌋) ∧
      Operator.fold .modulo a b = .ok (Int32.ofInt (a.toInt - ⌊(a.toInt : ℚ) / b.toInt⌋ * b.toInt))) := by
  refine ⟨floorDiv?_eq_none_iff, ?_, fun there => ?_, fold_divide_modulo⟩
  · rw [floorMod?, Option.map_eq_none_iff, floorDiv?_eq_none_iff]
  · have defined : Divides a b := not_or.mp there
    obtain ⟨q, quotient, left⟩ := defined.exists_quotient
    have rest := toInt_sub_mul left
    refine ⟨⟨defined.toInt_div, Int32.toInt_mod a b, defined.toInt_div_sub_one⟩, q, a - q * b, quotient, ?_, ?_⟩
    · rw [floorMod?, quotient, Option.map_some]
    · refine ⟨(floor_eq_of_isRemainder left).symm, by omega, ?_⟩
      rw [← Int32.toInt_inj, Int32.lt_iff_toInt_lt, Int32.lt_iff_toInt_lt, Int32.toInt_zero, rest,
        Int.abs_eq_natAbs, Int.abs_eq_natAbs]
      unfold IsRemainder at left
      omega

/-- The product of this quotient and the divisor is no score. -/
theorem floorDiv?_exact_wrapping : floorDiv? Int32.minValue 3 = some (-715827883) ∧
    floorMod? Int32.minValue 3 = some 1 ∧ ⌊(Int32.minValue.toInt : ℚ) / (3 : Score).toInt⌋ = -715827883 := by
  obtain ⟨_, q, r, quotient, rest, floor, _⟩ := (floorDiv?_exact Int32.minValue 3).2.2.1 (by decide)
  have isQuotient : floorDiv? Int32.minValue 3 = some (-715827883) := by decide
  cases quotient.symm.trans isQuotient
  exact ⟨isQuotient, by decide, floor.symm⟩

end Score

end ScoreScript
