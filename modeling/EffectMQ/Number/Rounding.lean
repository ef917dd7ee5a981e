import Mathlib.Algebra.Order.Floor.Ring
import Mathlib.Data.Int.Log
import Mathlib.Tactic.Ring

/-!
# Rounding to a number of digits

A number is rounded to the nearest multiple of the power of the base at which its last kept digit stands, a tie to the
even multiple. The number of digits is all that is bounded: exponents are not.
-/

namespace Rounding

variable {K : Type*} [Field K] [LinearOrder K] [IsStrictOrderedRing K] [FloorRing K]

/-! ### To an integer -/

/-- The nearest integer, the even one of two. -/
def roundEven (x : K) : ℤ :=
  if Int.fract x * 2 < 1 ∨ Int.fract x * 2 = 1 ∧ ⌊x⌋ % 2 = 0 then ⌊x⌋ else ⌊x⌋ + 1

theorem roundEven_intCast (n : ℤ) : roundEven (n : K) = n := by
  simp [roundEven]

omit [IsStrictOrderedRing K] in
theorem le_roundEven {n : ℤ} {x : K} (h : (n : K) ≤ x) : n ≤ roundEven x := by
  have hfloor : n ≤ ⌊x⌋ := Int.le_floor.mpr h
  rw [roundEven]
  split
  · exact hfloor
  · omega

/-! ### To a number of digits -/

/-- At or after the point every integer is a multiple of a place. -/
theorem intCast_div_place {F : Type*} [DivisionRing F] (b : ℕ) (n : ℤ) {e : ℤ} (he : e ≤ 0) :
    (n : F) / (b : F) ^ e = ((n * (b : ℤ) ^ (-e).toNat : ℤ) : F) := by
  obtain ⟨k, hk⟩ := Int.eq_ofNat_of_zero_le (neg_nonneg.mpr he)
  have hcast : (b : F) ^ k = ((b : ℤ) ^ k : ℤ) := by push_cast; rfl
  rw [show e = -(k : ℤ) by omega, zpow_neg, zpow_natCast, div_inv_eq_mul, hcast, neg_neg, Int.toNat_natCast,
    Int.cast_mul]

/-- The exponent of the last of `p` digits to the base `b`. -/
def lastPlace (b p : ℕ) (x : K) : ℤ := Int.log b |x| + 1 - p

/-- `x` rounded to `p` digits to the base `b`. -/
def round (b p : ℕ) (x : K) : K := roundEven (x / (b : K) ^ lastPlace b p x) * (b : K) ^ lastPlace b p x

section

variable {b p : ℕ} {x : K}

theorem place_pos (hb : 1 < b) (e : ℤ) : (0 : K) < (b : K) ^ e :=
  zpow_pos (by exact_mod_cast Nat.zero_lt_of_lt hb) e

/-- The leading digit of a number stands `p - 1` places before the last. -/
theorem place_le (hb : 1 < b) (hx : 0 < x) : (b : K) ^ (p - 1 : ℤ) * (b : K) ^ lastPlace b p x ≤ x := by
  have hb0 : (b : K) ≠ 0 := by exact_mod_cast (Nat.zero_lt_of_lt hb).ne'
  rw [← zpow_add₀ hb0, lastPlace, abs_of_pos hx, show (p - 1 + (Int.log b x + 1 - p) : ℤ) = Int.log b x by ring]
  exact Int.zpow_log_le_self hb hx

/-- A number below `b ^ p` has its last place at or after the point. -/
theorem lastPlace_nonpos (hb : 1 < b) (hx : x ≠ 0) (hlt : |x| < (b : K) ^ p) : lastPlace b p x ≤ 0 := by
  have hlog : Int.log b |x| < (p : ℤ) :=
    (Int.lt_zpow_iff_log_lt hb (abs_pos.mpr hx)).mp (by rwa [zpow_natCast])
  rw [lastPlace]
  omega

/-- A multiple of its last place is kept. -/
theorem round_of_multiple (hb : 1 < b) {n : ℤ} (h : x / (b : K) ^ lastPlace b p x = n) : round b p x = x := by
  rw [round, h, roundEven_intCast, ← h, div_mul_cancel₀ _ (place_pos hb _).ne']

/-- An integer of at most `p` digits is kept. -/
theorem round_intCast (hb : 1 < b) {n : ℤ} (hlt : |(n : K)| < (b : K) ^ p) : round b p (n : K) = n := by
  rcases eq_or_ne n 0 with rfl | hn
  · rw [round, Int.cast_zero, zero_div, ← Int.cast_zero, roundEven_intCast, Int.cast_zero, zero_mul]
  · have hplace : lastPlace b p (n : K) ≤ 0 := lastPlace_nonpos hb (Int.cast_ne_zero.mpr hn) hlt
    exact round_of_multiple hb (intCast_div_place b n hplace)

theorem round_natCast (hb : 1 < b) {n : ℕ} (hlt : n < b ^ p) : round b p (n : K) = n := by
  have habs : |((n : ℤ) : K)| < (b : K) ^ p := by
    rw [Int.cast_natCast, abs_of_nonneg n.cast_nonneg]
    exact_mod_cast hlt
  simpa using round_intCast hb habs

/-- Rounding does not pass a natural number of at most `p` digits. -/
theorem natCast_le_round (hb : 1 < b) (hp : 1 ≤ p) {n : ℕ} (hlt : n < b ^ p) (h : (n : K) ≤ x) : (n : K) ≤ round b p x := by
  have hplace := place_pos (K := K) hb (lastPlace b p x)
  rcases (n.cast_nonneg.trans h).eq_or_lt with hzero | hx
  · have hn : (n : K) = 0 := le_antisymm (hzero ▸ h) n.cast_nonneg
    rw [round, ← hzero, zero_div, ← Int.cast_zero, roundEven_intCast, Int.cast_zero, zero_mul, hn]
  rcases le_or_gt (lastPlace b p x) 0 with hnonpos | hpos
  · -- the point stands before the last place: `n` is one of the multiples that `x` is rounded to
    have hmultiple := intCast_div_place (F := K) b n hnonpos
    have hquotient : ((n * (b : ℤ) ^ (-lastPlace b p x).toNat : ℤ) : K) ≤ x / (b : K) ^ lastPlace b p x := by
      rw [← hmultiple, Int.cast_natCast]
      exact div_le_div_of_nonneg_right h hplace.le
    have hround := Int.cast_le (R := K).mpr (le_roundEven hquotient)
    rwa [← hmultiple, div_le_iff₀ hplace, Int.cast_natCast] at hround
  · -- the last place stands before the point: the rounded number has its leading digit at `b ^ p` or beyond
    have hlead : (((b : ℤ) ^ (p - 1) : ℤ) : K) ≤ x / (b : K) ^ lastPlace b p x := by
      rw [le_div_iff₀ hplace, Int.cast_pow, Int.cast_natCast, ← zpow_natCast, Nat.cast_sub hp, Nat.cast_one]
      exact place_le hb hx
    have hround := mul_le_mul_of_nonneg_right (Int.cast_le (R := K).mpr (le_roundEven hlead)) hplace.le
    have hb1 : (1 : K) ≤ b := by exact_mod_cast hb.le
    calc (n : K) ≤ (b : K) ^ p := by exact_mod_cast hlt.le
      _ = (b : K) ^ (p - 1) * (b : K) ^ (1 : ℤ) := by rw [zpow_one, ← pow_succ, Nat.sub_add_cancel hp]
      _ ≤ (b : K) ^ (p - 1) * (b : K) ^ lastPlace b p x := by
        exact mul_le_mul_of_nonneg_left (zpow_le_zpow_right₀ hb1 hpos) (pow_nonneg (zero_le_one.trans hb1) _)
      _ ≤ round b p x := by rwa [Int.cast_pow, Int.cast_natCast] at hround

end

end Rounding
