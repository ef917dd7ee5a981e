import EffectMQ.Text.Decimal

/-!
# Times as dates

A time counts milliseconds from the first of January 1970, and its text names the day of the proleptic Gregorian
calendar and the time of that day. Years begin in March here, so that the leap day is the last one of its year: then the
day of a year says the month by one division. Different times have different texts.
-/

namespace IsoDate

/-- A day within its four hundred years: the century, the four years, the year and the day. -/
structure EraDay where
  era : ℤ
  century : ℤ
  quad : ℤ
  year : ℤ
  day : ℤ

/-- The day so many days after the first of January 1970. The last century and the last year may have a day more. -/
def eraDay (days : ℤ) : EraDay :=
  let inEra := (days + 719468) % 146097
  let century := min (inEra / 36524) 3
  let inCentury := inEra - 36524 * century
  let inQuad := inCentury % 1461
  let year := min (inQuad / 365) 3
  ⟨(days + 719468) / 146097, century, inCentury / 1461, year, inQuad - 365 * year⟩

/-- The month of a day, counted from March. -/
def EraDay.month (d : EraDay) : ℤ := (5 * d.day + 2) / 153

/-- A day of the calendar. -/
@[ext] structure CivilDate where
  year : ℤ
  month : ℕ
  day : ℕ

def civilDate (days : ℤ) : CivilDate :=
  let d := eraDay days
  { year := 400 * d.era + 100 * d.century + 4 * d.quad + d.year + if d.month < 10 then 0 else 1
    month := (if d.month < 10 then d.month + 3 else d.month - 9).toNat
    day := (d.day - (153 * d.month + 2) / 5 + 1).toNat }

structure EraDay.Valid (d : EraDay) : Prop where
  century : 0 ≤ d.century ∧ d.century ≤ 3
  quad : 0 ≤ d.quad ∧ d.quad ≤ 24
  year : 0 ≤ d.year ∧ d.year ≤ 3
  day : 0 ≤ d.day ∧ d.day ≤ 365

theorem eraDay_spec (days : ℤ) : (eraDay days).Valid ∧
    days = 146097 * (eraDay days).era + 36524 * (eraDay days).century + 1461 * (eraDay days).quad +
      365 * (eraDay days).year + (eraDay days).day - 719468 := by
  have hera : 0 ≤ (days + 719468) % 146097 ∧ (days + 719468) % 146097 < 146097 := by omega
  unfold eraDay
  refine ⟨⟨?_, ?_, ?_, ?_⟩, ?_⟩
  all_goals dsimp only
  all_goals omega

theorem EraDay.Valid.month_bounds {d : EraDay} (h : d.Valid) : 0 ≤ d.month ∧ d.month ≤ 11 := by
  have hday := h.day
  unfold EraDay.month
  omega

/-- The day of the month, counted from zero. -/
theorem EraDay.Valid.day_bounds {d : EraDay} (h : d.Valid) :
    0 ≤ d.day - (153 * d.month + 2) / 5 ∧ d.day - (153 * d.month + 2) / 5 ≤ 30 := by
  have hday := h.day
  unfold EraDay.month
  omega

theorem civilDate_bounds (days : ℤ) : (civilDate days).month < 100 ∧ (civilDate days).day < 100 := by
  obtain ⟨hvalid, -⟩ := eraDay_spec days
  have hmonth := hvalid.month_bounds
  have hday := hvalid.day_bounds
  unfold civilDate
  dsimp only
  constructor
  · split <;> omega
  · omega

/-- Two days of one date are one day. -/
theorem civilDate_injective : Function.Injective civilDate := by
  intro days days' h
  obtain ⟨hvalid, hdays⟩ := eraDay_spec days
  obtain ⟨hvalid', hdays'⟩ := eraDay_spec days'
  have hmonths := hvalid.month_bounds
  have hmonths' := hvalid'.month_bounds
  have hbounds := hvalid.day_bounds
  have hbounds' := hvalid'.day_bounds
  unfold civilDate at h
  dsimp only at h
  obtain ⟨hyear, hmonth, hday⟩ := CivilDate.mk.inj h
  have hm : (eraDay days).month = (eraDay days').month := by
    split at hmonth <;> split at hmonth <;> omega
  rw [hm] at hyear hday hbounds
  have hd : (eraDay days).day = (eraDay days').day := by omega
  obtain ⟨hc, hq, hy, -⟩ := hvalid
  obtain ⟨hc', hq', hy', -⟩ := hvalid'
  omega

/-! ### Texts -/

/-- A number with at least so many digits. -/
def pad (width n : ℕ) : List Char := (Nat.toDigits 10 n).leftpad width '0'

theorem pad_length {width n : ℕ} (hwidth : 0 < width) (hn : n < 10 ^ width) : (pad width n).length = width := by
  have hle : (Nat.toDigits 10 n).length ≤ width := (Nat.length_toDigits_le_iff (by omega) hwidth).mpr hn
  rw [pad, List.length_leftpad]
  omega

theorem pad_injective (width : ℕ) : Function.Injective (pad width) := by
  have hvalue : ∀ n, Decimal.value (pad width n) = n := by
    intro n
    rw [pad, List.leftpad, Decimal.value, Nat.ofDigitChars_append, Nat.ofDigitChars_replicate_zero, Nat.mul_zero]
    exact Decimal.value_toDigits n
  intro n m h
  rw [← hvalue n, h, hvalue m]

/-- A number of fixed width at the start of a text. -/
theorem pad_append_inj {width n m : ℕ} {l l' : List Char} (hwidth : 0 < width) (hn : n < 10 ^ width)
    (hm : m < 10 ^ width) (h : pad width n ++ l = pad width m ++ l') : n = m ∧ l = l' := by
  obtain ⟨hpad, hl⟩ := List.append_inj h ((pad_length hwidth hn).trans (pad_length hwidth hm).symm)
  exact ⟨pad_injective width hpad, hl⟩

/-- Four digits, or a sign and at least six. -/
def yearText (year : ℤ) : List Char :=
  if 0 ≤ year ∧ year ≤ 9999 then pad 4 year.toNat else (if year < 0 then '-' else '+') :: pad 6 year.natAbs

theorem isDigit_of_mem_pad {width n : ℕ} {c : Char} (h : c ∈ pad width n) : c.isDigit = true := by
  rcases List.mem_append.mp h with hzero | hdigit
  · rw [(List.mem_replicate.mp hzero).2]
    rfl
  · exact Nat.isDigit_of_mem_toDigits (by omega) le_rfl hdigit

/-- Digits do not begin with a sign. -/
theorem pad_ne_cons {width n : ℕ} {c : Char} {l : List Char} (hc : c.isDigit = false) : pad width n ≠ c :: l := by
  intro h
  have hdigit := isDigit_of_mem_pad (h ▸ List.mem_cons_self : c ∈ pad width n)
  exact absurd (hc.symm.trans hdigit) (by simp)

theorem yearText_injective : Function.Injective yearText := by
  intro year year' h
  have hsign : ∀ year : ℤ, (if year < 0 then '-' else '+').isDigit = false := by
    intro year
    split <;> rfl
  unfold yearText at h
  by_cases hfour : 0 ≤ year ∧ year ≤ 9999
  · rw [if_pos hfour] at h
    by_cases hfour' : 0 ≤ year' ∧ year' ≤ 9999
    · rw [if_pos hfour'] at h
      have hyears := pad_injective 4 h
      omega
    · rw [if_neg hfour'] at h
      exact absurd h (pad_ne_cons (hsign year'))
  · rw [if_neg hfour] at h
    by_cases hfour' : 0 ≤ year' ∧ year' ≤ 9999
    · rw [if_pos hfour'] at h
      exact absurd h.symm (pad_ne_cons (hsign year))
    · rw [if_neg hfour'] at h
      obtain ⟨hsigns, hdigits⟩ := List.cons.inj h
      have hyears := pad_injective 6 hdigits
      split at hsigns
      · split at hsigns
        · omega
        · exact absurd hsigns (by decide)
      · split at hsigns
        · exact absurd hsigns (by decide)
        · omega

/-- The text of a date after its year, and of a time of day. -/
def dayText (month day hours minutes seconds millis : ℕ) : List Char :=
  '-' :: pad 2 month ++ ('-' :: pad 2 day ++ ('T' :: pad 2 hours ++ (':' :: pad 2 minutes ++
    (':' :: pad 2 seconds ++ ('.' :: pad 3 millis ++ ['Z'])))))

/-- `Date.toISOString`. -/
def toISOString (time : ℤ) : String :=
  let date := civilDate (time / 86400000)
  let millis := (time % 86400000).toNat
  .ofList (yearText date.year ++ dayText date.month date.day (millis / 3600000) (millis / 60000 % 60)
    (millis / 1000 % 60) (millis % 1000))

example : toISOString 1767225660000 = "2026-01-01T00:01:00.000Z" := by decide +kernel

section

variable {month month' day day' hours hours' minutes minutes' seconds seconds' millis millis' : ℕ}

theorem dayText_length (hmonth : month < 100) (hday : day < 100) (hhours : hours < 100) (hminutes : minutes < 100)
    (hseconds : seconds < 100) (hmillis : millis < 1000) :
    (dayText month day hours minutes seconds millis).length = 20 := by
  have htwo : ∀ {n}, n < 100 → (pad 2 n).length = 2 := fun hn => pad_length (by omega) hn
  have hthree : (pad 3 millis).length = 3 := pad_length (by omega) hmillis
  simp [dayText, htwo hmonth, htwo hday, htwo hhours, htwo hminutes, htwo hseconds, hthree]

theorem dayText_inj (hmonth : month < 100) (hday : day < 100) (hhours : hours < 100) (hminutes : minutes < 100)
    (hseconds : seconds < 100) (hmillis : millis < 1000) (hmonth' : month' < 100) (hday' : day' < 100)
    (hhours' : hours' < 100) (hminutes' : minutes' < 100) (hseconds' : seconds' < 100) (hmillis' : millis' < 1000)
    (h : dayText month day hours minutes seconds millis = dayText month' day' hours' minutes' seconds' millis') :
    month = month' ∧ day = day' ∧ hours = hours' ∧ minutes = minutes' ∧ seconds = seconds' ∧ millis = millis' := by
  have htwo : ∀ {n m : ℕ} {c : Char} {l l' : List Char}, n < 100 → m < 100 →
      c :: pad 2 n ++ l = c :: pad 2 m ++ l' → n = m ∧ l = l' :=
    fun hn hm h => pad_append_inj (by omega) hn hm (List.cons.inj h).2
  obtain ⟨hmonths, h₁⟩ := htwo hmonth hmonth' h
  obtain ⟨hdays, h₂⟩ := htwo hday hday' h₁
  obtain ⟨hhour, h₃⟩ := htwo hhours hhours' h₂
  obtain ⟨hminute, h₄⟩ := htwo hminutes hminutes' h₃
  obtain ⟨hsecond, h₅⟩ := htwo hseconds hseconds' h₄
  exact ⟨hmonths, hdays, hhour, hminute, hsecond, (pad_append_inj (by omega) hmillis hmillis' (List.cons.inj h₅).2).1⟩

end

/-- Two times of one text are one time. -/
theorem toISOString_injective : Function.Injective toISOString := by
  intro time time' h
  have htext := String.ofList_injective h
  obtain ⟨hmonth, hday⟩ := civilDate_bounds (time / 86400000)
  obtain ⟨hmonth', hday'⟩ := civilDate_bounds (time' / 86400000)
  have hbound : ∀ time : ℤ, (time % 86400000).toNat < 86400000 := fun time => by omega
  have hlt := hbound time
  have hlt' := hbound time'
  obtain ⟨hyear, hrest⟩ := List.append_inj' htext
    ((dayText_length hmonth hday (by omega) (by omega) (by omega) (by omega)).trans
      (dayText_length hmonth' hday' (by omega) (by omega) (by omega) (by omega)).symm)
  obtain ⟨hmonths, hdays, hhours, hminutes, hseconds, hmillis⟩ := dayText_inj hmonth hday (by omega) (by omega) (by omega)
    (by omega) hmonth' hday' (by omega) (by omega) (by omega) (by omega) hrest
  have hdate := civilDate_injective (CivilDate.ext (yearText_injective hyear) hmonths hdays)
  omega

end IsoDate
