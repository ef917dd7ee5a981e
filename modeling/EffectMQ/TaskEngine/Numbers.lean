import EffectMQ.Number.Rounding
import Mathlib

/-!
# The numbers of the script

A Lua number is a double. `redis.call` and `cmsgpack` take a number as it is; `cjson` and the `..` operator write it with
fourteen digits.
-/

namespace EffectMQ

/-- The double nearest to a number: what the sum of two numbers is stored as. -/
def double (x : ℚ) : ℚ := Rounding.round 2 53 x

/-- The number that a reader finds where `cjson` wrote one. -/
def cjsonNumber (x : ℚ) : ℚ := double (Rounding.round 10 14 x)

/-- The text of a natural number as `..` writes it, which is `%.14g`. -/
def luaNumber (n : ℕ) : String :=
  if n < 10 ^ 14 then n.repr
  else
    let rounded := (Rounding.round 10 14 (double n)).num.toNat
    let exponent := Nat.log 10 rounded
    let digits := (rounded / 10 ^ (exponent - 13)).repr.toList
    let fraction := (digits.drop 1).rdropWhile (· = '0')
    String.ofList (digits.take 1 ++ (if fraction = [] then [] else '.' :: fraction) ++ ['e', '+']) ++ exponent.repr

example : [10 ^ 14 - 1, 10 ^ 14, 10 ^ 14 + 1, 123456789012345678].map luaNumber =
    ["99999999999999", "1e+14", "1e+14", "1.2345678901235e+17"] := by decide +kernel

/-! ### Doubles -/

theorem cjsonNumber_natCast {n : ℕ} (h : n < 10 ^ 14) : cjsonNumber n = n := by
  rw [cjsonNumber, Rounding.round_natCast (by norm_num) h]
  exact Rounding.round_natCast (by norm_num) (h.trans (by norm_num))

/-- A sum is not rounded below its whole part. -/
theorem natCast_le_double {n : ℕ} {x : ℚ} (hn : n < 2 ^ 53) (h : (n : ℚ) ≤ x) : (n : ℚ) ≤ double x :=
  Rounding.natCast_le_round (by norm_num) (by norm_num) hn h

theorem double_nonneg {x : ℚ} (h : 0 ≤ x) : 0 ≤ double x := by
  exact_mod_cast natCast_le_double (n := 0) (by norm_num) (by exact_mod_cast h)

/-! ### Texts -/

theorem isDigit_of_mem_repr {n : ℕ} {c : Char} (h : c ∈ n.repr.toList) : c.isDigit = true := by
  rw [Nat.toList_repr] at h
  exact Nat.isDigit_of_mem_toDigits (by norm_num) (by norm_num) h

theorem luaNumber_of_lt {n : ℕ} (h : n < 10 ^ 14) : luaNumber n = n.repr := if_pos h

theorem exponent_mem_luaNumber {n : ℕ} (h : 10 ^ 14 ≤ n) : 'e' ∈ (luaNumber n).toList := by
  rw [luaNumber, if_neg h.not_gt]
  simp

/-- Lua writes apart the numbers of which one has at most fourteen digits. -/
theorem luaNumber_inj {n m : ℕ} (hn : n < 10 ^ 14) (h : luaNumber n = luaNumber m) : n = m := by
  rcases lt_or_ge m (10 ^ 14) with hm | hm
  · rw [luaNumber_of_lt hn, luaNumber_of_lt hm] at h
    exact Nat.repr_inj.mp h
  · have hexponent := exponent_mem_luaNumber hm
    rw [← h, luaNumber_of_lt hn] at hexponent
    exact absurd (isDigit_of_mem_repr hexponent) (by decide)

theorem colon_notMem_repr (n : ℕ) : ':' ∉ n.repr.toList := fun h => absurd (isDigit_of_mem_repr h) (by decide)

theorem colon_notMem_luaNumber (n : ℕ) : ':' ∉ (luaNumber n).toList := by
  rw [luaNumber]
  split
  · exact colon_notMem_repr n
  · intro h
    simp only [String.toList_append, String.toList_ofList, List.mem_append, or_assoc] at h
    rcases h with hdigit | hfraction | hexponent | hnumber
    · exact colon_notMem_repr _ (List.mem_of_mem_take hdigit)
    · split at hfraction
      · exact absurd hfraction (by simp)
      · rcases List.mem_cons.mp hfraction with hpoint | hdigit
        · exact absurd hpoint (by decide)
        · exact colon_notMem_repr _ (List.mem_of_mem_drop ((List.rdropWhile_prefix _ _).subset hdigit))
    · exact absurd hexponent (by decide)
    · exact colon_notMem_repr _ hnumber

end EffectMQ
