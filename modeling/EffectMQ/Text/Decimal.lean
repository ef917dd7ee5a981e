import Mathlib

/-!
# Decimal numbers as texts

The digits of a number without leading zeros, how they are recognized, and how their order as texts of one length agrees
with the order of the numbers.
-/

namespace Decimal

variable {l m : List Char} {c d : Char}

/-- `0`, or digits that do not begin with `0`. -/
def isDecimal : List Char → Bool
  | [] => false
  | ['0'] => true
  | first :: digits => first ≠ '0' && first.isDigit && digits.all Char.isDigit

/-- The number that digits stand for. -/
def value (digits : List Char) : ℕ := Nat.ofDigitChars 10 digits 0

def digit (c : Char) : ℕ := c.toNat - '0'.toNat

theorem isDecimal_iff : isDecimal l = true ↔ l = ['0'] ∨ ∃ c m, l = c :: m ∧ c ≠ '0' ∧ c.isDigit ∧ ∀ d ∈ m, d.isDigit := by
  unfold isDecimal
  split
  · simp
  · simp
  · next c digits hne =>
    simp only [ne_eq, Bool.and_eq_true, decide_eq_true_eq, List.all_eq_true]
    constructor
    · exact fun ⟨⟨hc, hdigit⟩, hall⟩ => Or.inr ⟨c, digits, rfl, hc, hdigit, hall⟩
    · rintro (heq | ⟨_, _, heq, hc, hdigit, hall⟩)
      · obtain ⟨rfl, rfl⟩ := List.cons.inj heq
        exact absurd rfl (fun h => hne h rfl)
      · obtain ⟨rfl, rfl⟩ := List.cons.inj heq
        exact ⟨⟨hc, hdigit⟩, hall⟩

theorem isDigit_iff : c.isDigit = true ↔ 48 ≤ c.toNat ∧ c.toNat ≤ 57 := by
  unfold Char.isDigit
  simp only [Bool.and_eq_true, decide_eq_true_eq, ge_iff_le, UInt32.le_iff_toNat_le]
  exact Iff.rfl

theorem digit_lt (h : c.isDigit = true) : digit c < 10 := by
  obtain ⟨_, hle⟩ := isDigit_iff.mp h
  have hzero : '0'.toNat = 48 := rfl
  unfold digit
  omega

theorem toDigits_digit (h : c.isDigit = true) : Nat.toDigits 10 (digit c) = [c] := by
  obtain ⟨hge, hle⟩ := isDigit_iff.mp h
  have hc : c = Char.ofNat c.toNat := (Char.ofNat_toNat c).symm
  rw [hc]
  generalize c.toNat = n at hge hle
  interval_cases n <;> rfl

theorem value_append : value (l ++ [c]) = 10 * value l + digit c := by
  rw [value, Nat.ofDigitChars_append, Nat.ofDigitChars_cons, Nat.ofDigitChars_nil]
  rfl

theorem digit_pos (hdigit : c.isDigit = true) (hc : c ≠ '0') : 0 < digit c := by
  obtain ⟨hge, _⟩ := isDigit_iff.mp hdigit
  have hne : c.toNat ≠ 48 := fun h => hc (Char.toNat_inj.mp (h.trans rfl))
  have hzero : '0'.toNat = 48 := rfl
  unfold digit
  omega

/-- Digits that do not begin with zero are the digits of their number. -/
theorem toDigits_value_cons (hc : c ≠ '0') (hdigit : c.isDigit = true) (hall : ∀ d ∈ m, d.isDigit = true) :
    0 < value (c :: m) ∧ Nat.toDigits 10 (value (c :: m)) = c :: m := by
  induction m using List.reverseRecOn with
  | nil =>
    have hvalue : value [c] = digit c := by simp [value, digit, Nat.ofDigitChars_cons]
    rw [hvalue]
    exact ⟨digit_pos hdigit hc, toDigits_digit hdigit⟩
  | append_singleton m d ih =>
    obtain ⟨hpos, hdigits⟩ := ih fun x hx => hall x (List.mem_append_left _ hx)
    have hd : d.isDigit = true := hall d (List.mem_append_right _ (List.mem_singleton_self d))
    rw [← List.cons_append, value_append]
    refine ⟨by omega, ?_⟩
    rw [← Nat.toDigits_append_toDigits (by norm_num) hpos (digit_lt hd), hdigits, toDigits_digit hd]

theorem toDigits_value (h : isDecimal l = true) : Nat.toDigits 10 (value l) = l := by
  rcases isDecimal_iff.mp h with rfl | ⟨c, m, rfl, hc, hdigit, hall⟩
  · rfl
  · exact (toDigits_value_cons hc hdigit hall).2

theorem value_toDigits (n : ℕ) : value (Nat.toDigits 10 n) = n := Nat.ofDigitChars_ten_toDigits

theorem isDecimal_toDigits (n : ℕ) : isDecimal (Nat.toDigits 10 n) = true := by
  rw [isDecimal_iff]
  induction n using Nat.strong_induction_on with
  | _ n ih =>
    rcases Nat.eq_zero_or_pos n with rfl | hpos
    · exact Or.inl rfl
    rcases Nat.lt_or_ge n 10 with hlt | hge
    · rw [Nat.toDigits_of_lt_base hlt]
      refine Or.inr ⟨n.digitChar, [], rfl, ?_, ?_, by simp⟩
      · simpa using hpos.ne'
      · rw [Nat.isDigit_digitChar]
        exact decide_eq_true hlt
    · rw [Nat.toDigits_of_base_le (by norm_num) hge]
      rcases ih (n / 10) (by omega) with hzero | ⟨c, m, hm, hc, hdigit, hall⟩
      · have hvalue := value_toDigits (n / 10)
        rw [hzero] at hvalue
        have : n / 10 = 0 := hvalue.symm
        omega
      · refine Or.inr ⟨c, m ++ [(n % 10).digitChar], by rw [hm, List.cons_append], hc, hdigit, fun d hd => ?_⟩
        rcases List.mem_append.mp hd with hd | hd
        · exact hall d hd
        · rw [List.mem_singleton.mp hd, Nat.isDigit_digitChar]
          exact decide_eq_true (Nat.mod_lt _ (by norm_num))

/-! ### Order -/

theorem value_cons : value (c :: l) = 10 ^ l.length * digit c + value l := by
  rw [value, Nat.ofDigitChars_cons, Nat.ofDigitChars_eq_ofDigitChars_zero]
  simp [value, digit]

theorem value_lt (hl : ∀ c ∈ l, c.isDigit = true) : value l < 10 ^ l.length := by
  induction l with
  | nil => simp [value]
  | cons c l ih =>
    have hc := digit_lt (hl c List.mem_cons_self)
    have hrest := ih fun d hd => hl d (List.mem_cons_of_mem c hd)
    rw [value_cons, List.length_cons, pow_succ]
    calc 10 ^ l.length * digit c + value l < 10 ^ l.length * digit c + 10 ^ l.length := by omega
      _ = 10 ^ l.length * (digit c + 1) := by rw [Nat.mul_succ]
      _ ≤ 10 ^ l.length * 10 := Nat.mul_le_mul_left _ hc

theorem digit_lt_iff (hc : c.isDigit = true) (hd : d.isDigit = true) : c < d ↔ digit c < digit d := by
  obtain ⟨hc, _⟩ := isDigit_iff.mp hc
  obtain ⟨hd, _⟩ := isDigit_iff.mp hd
  have hlt : c < d ↔ c.toNat < d.toNat := Iff.rfl
  have hzero : '0'.toNat = 48 := rfl
  rw [hlt, digit, digit]
  omega

theorem digit_inj (hc : c.isDigit = true) (hd : d.isDigit = true) (h : digit c = digit d) : c = d :=
  List.singleton_inj.mp ((toDigits_digit hc).symm.trans (h ▸ toDigits_digit hd))

/-- Among digits of one length the order of texts is the order of numbers. -/
theorem lt_iff_value (hlength : l.length = m.length) (hl : ∀ c ∈ l, c.isDigit = true) (hm : ∀ c ∈ m, c.isDigit = true) :
    l < m ↔ value l < value m := by
  induction l generalizing m with
  | nil =>
    obtain rfl := List.length_eq_zero_iff.mp hlength.symm
    simp
  | cons c l ih =>
    cases m with
    | nil => exact absurd hlength (by simp)
    | cons d m =>
      rw [List.length_cons, List.length_cons, Nat.add_right_cancel_iff] at hlength
      have hc := hl c List.mem_cons_self
      have hd := hm d List.mem_cons_self
      have hl' := fun x hx => hl x (List.mem_cons_of_mem c hx)
      have hm' := fun x hx => hm x (List.mem_cons_of_mem d hx)
      have hlt := value_lt hl'
      have hlt' := value_lt hm'
      rw [List.cons_lt_cons_iff, ih hlength hl' hm', value_cons, value_cons, hlength, digit_lt_iff hc hd]
      rw [hlength] at hlt
      have hscale : digit c < digit d → 10 ^ m.length * digit c + 10 ^ m.length ≤ 10 ^ m.length * digit d := fun h => by
        rw [← Nat.mul_succ]
        exact Nat.mul_le_mul_left _ h
      have hscale' : digit d < digit c → 10 ^ m.length * digit d + 10 ^ m.length ≤ 10 ^ m.length * digit c := fun h => by
        rw [← Nat.mul_succ]
        exact Nat.mul_le_mul_left _ h
      constructor
      · rintro (h | ⟨rfl, h⟩)
        · have := hscale h
          omega
        · omega
      · intro h
        rcases Nat.lt_trichotomy (digit c) (digit d) with hless | heq | hmore
        · exact Or.inl hless
        · have hcd := digit_inj hc hd heq
          subst hcd
          exact Or.inr ⟨rfl, by omega⟩
        · have := hscale' hmore
          omega

end Decimal
