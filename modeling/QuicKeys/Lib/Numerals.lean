import Mathlib.Algebra.Order.Field.Power
import Mathlib.Data.Int.Log
import Mathlib.Data.List.DropRight
import Mathlib.Data.Rat.Floor
import Mathlib.Tactic.FieldSimp
import Mathlib.Tactic.Linarith

/-!
# Numbers as text

Decimal numerals, and the general format of C and C++ for floating point numbers (`%g`): a
number is rounded to `p` significant digits and written in fixed notation while its decimal
exponent is at least `-4` and below `p`, in scientific notation otherwise, in both without
trailing zeros behind the point.
-/

namespace Numerals

/-! ## Digits -/

/-- The `d` low digits of `m`. -/
def lowDigits : ℕ → ℕ → List Char
  | 0, _ => []
  | d + 1, m => lowDigits d (m / 10) ++ [Nat.digitChar (m % 10)]

/-- What the digits behind a decimal point are worth. -/
def fraction (cs : List Char) : ℚ := Nat.ofDigitChars 10 cs 0 / 10 ^ cs.length

@[simp] lemma length_lowDigits (d m : ℕ) : (lowDigits d m).length = d := by
  induction d generalizing m with
  | zero => rfl
  | succ d ih => rw [lowDigits, List.length_append, ih, List.length_singleton]

lemma ofDigitChars_lowDigits (d m : ℕ) : Nat.ofDigitChars 10 (lowDigits d m) 0 = m % 10 ^ d := by
  induction d generalizing m with
  | zero => rw [lowDigits, Nat.ofDigitChars_nil, pow_zero, Nat.mod_one]
  | succ d ih =>
    rw [lowDigits, Nat.ofDigitChars_append, ih,
      Nat.ofDigitChars_cons_digitChar_of_lt_ten (Nat.mod_lt m (by norm_num)),
      Nat.ofDigitChars_nil, pow_succ', Nat.mod_mul, add_comm]

lemma isDigit_of_mem_lowDigits {d m : ℕ} {c : Char} (h : c ∈ lowDigits d m) : c.isDigit = true := by
  induction d generalizing m with
  | zero => exact absurd h List.not_mem_nil
  | succ d ih =>
    rcases List.mem_append.mp h with h | h
    · exact ih h
    · rw [List.mem_singleton.mp h, Nat.isDigit_digitChar]
      simpa using Nat.mod_lt m (by norm_num)

lemma fraction_lowDigits (d m : ℕ) : fraction (lowDigits d m) = (m % 10 ^ d : ℕ) / 10 ^ d := by
  rw [fraction, ofDigitChars_lowDigits, length_lowDigits]

/-- A trailing zero behind the point is worth nothing. -/
lemma fraction_concat_zero (cs : List Char) : fraction (cs ++ ['0']) = fraction cs := by
  have hvalue : Nat.ofDigitChars 10 (cs ++ ['0']) 0 = 10 * Nat.ofDigitChars 10 cs 0 := by
    rw [Nat.ofDigitChars_append, Nat.ofDigitChars_cons, Nat.ofDigitChars_nil]
    rfl
  rw [fraction, hvalue, List.length_append, List.length_singleton, pow_succ', Nat.cast_mul,
    Nat.cast_ofNat, mul_div_mul_left _ _ (by norm_num), fraction]

lemma fraction_rdropWhile (cs : List Char) : fraction (cs.rdropWhile (· == '0')) = fraction cs := by
  induction cs using List.reverseRecOn with
  | nil => rw [List.rdropWhile_nil]
  | append_singleton cs c ih =>
    by_cases hc : c = '0'
    · rw [hc, List.rdropWhile_concat_pos _ _ _ rfl, ih, fraction_concat_zero]
    · rw [List.rdropWhile_concat_neg _ _ _ (by simpa using hc)]

/-! ## Rounding -/

/-- The nearest integer, the even one of two that are equally near. -/
def roundHalfEven (q : ℚ) : ℕ :=
  let f := ⌊q⌋₊
  if q - f < 1 / 2 then f
  else if 1 / 2 < q - f then f + 1
  else if f % 2 = 0 then f
  else f + 1

lemma abs_roundHalfEven_sub_le {q : ℚ} (hq : 0 ≤ q) : |roundHalfEven q - q| ≤ 1 / 2 := by
  have hfloor := Nat.floor_le hq
  have hlt := Nat.lt_floor_add_one q
  rw [abs_le]
  simp only [roundHalfEven]
  split_ifs <;> push_cast <;> constructor <;> linarith

/-- Numbers below an even one are rounded to it from half a unit below on. -/
lemma roundHalfEven_eq_iff {q : ℚ} (hq : 0 ≤ q) {n : ℕ} (hn : q < n) (heven : n % 2 = 0) :
    roundHalfEven q = n ↔ (n : ℚ) - 1 / 2 ≤ q := by
  have hfloor := Nat.floor_le hq
  have hlt := Nat.lt_floor_add_one q
  have hfn : ⌊q⌋₊ < n := (Nat.floor_lt hq).mpr hn
  constructor
  · intro h
    have habs := abs_le.mp (abs_roundHalfEven_sub_le hq)
    rw [h] at habs
    linarith [habs.2]
  · intro h
    have hf : ⌊q⌋₊ + 1 = n := by
      have hcast : (n : ℚ) < (⌊q⌋₊ + 2 : ℕ) := by push_cast; linarith
      have := Nat.cast_lt.mp hcast
      omega
    have hcast : ((⌊q⌋₊ : ℚ) + 1) = n := by exact_mod_cast hf
    simp only [roundHalfEven]
    rw [if_neg (by linarith), if_neg (by omega : ¬⌊q⌋₊ % 2 = 0), hf, ite_self]

lemma roundHalfEven_mem (q : ℚ) : ⌊q⌋₊ ≤ roundHalfEven q ∧ roundHalfEven q ≤ ⌊q⌋₊ + 1 := by
  simp only [roundHalfEven]
  split_ifs <;> omega

/-- `p` significant digits of `q`, and the decimal exponent of the first of them. -/
def scientific (p : ℕ) (q : ℚ) : ℕ × ℤ :=
  let x := Int.log 10 q
  let m := roundHalfEven (q / 10 ^ (x + 1 - p))
  -- all nines were rounded up
  if m = 10 ^ p then (10 ^ (p - 1), x + 1) else (m, x)

section Scientific

variable {p : ℕ} {q : ℚ} {j : ℤ}

lemma pow_mul_unit (p : ℕ) (x : ℤ) : (10 : ℚ) ^ p * 10 ^ (x + 1 - p) = 10 ^ (x + 1) := by
  rw [← zpow_natCast, ← zpow_add₀ (by norm_num)]
  congr 1
  ring

lemma log_le_self (hq : 0 < q) : (10 : ℚ) ^ Int.log 10 q ≤ q :=
  Int.zpow_log_le_self (by norm_num) hq

lemma lt_succ_log_self (q : ℚ) : q < (10 : ℚ) ^ (Int.log 10 q + 1) :=
  Int.lt_zpow_succ_log_self (by norm_num) q

/-- In units of the last digit, a number has `p` digits. -/
lemma scaled_mem (hp : 0 < p) (hq : 0 < q) :
    ((10 ^ (p - 1) : ℕ) : ℚ) ≤ q / 10 ^ (Int.log 10 q + 1 - p)
      ∧ q / 10 ^ (Int.log 10 q + 1 - p) < (10 ^ p : ℕ) := by
  have hunit : (0 : ℚ) < 10 ^ (Int.log 10 q + 1 - p) := by positivity
  constructor
  · have hpred := pow_mul_unit (p - 1) (Int.log 10 q - 1)
    rw [sub_add_cancel, Nat.cast_pred hp, sub_sub_eq_add_sub] at hpred
    rw [le_div_iff₀ hunit, Nat.cast_pow, Nat.cast_ofNat, hpred]
    exact log_le_self hq
  · rw [div_lt_iff₀ hunit, Nat.cast_pow, Nat.cast_ofNat, pow_mul_unit]
    exact lt_succ_log_self q

/-- The digits are `p` digits. -/
lemma scientific_fst_mem (hp : 0 < p) (hq : 0 < q) :
    10 ^ (p - 1) ≤ (scientific p q).1 ∧ (scientific p q).1 < 10 ^ p := by
  rcases scaled_mem hp hq with ⟨hlow, hhigh⟩
  have hround := roundHalfEven_mem (q / 10 ^ (Int.log 10 q + 1 - p))
  have hfloor := Nat.le_floor hlow
  have hceil := (Nat.floor_lt ((Nat.cast_nonneg _).trans hlow)).mpr hhigh
  simp only [scientific]
  split_ifs with hcarry
  · exact ⟨le_rfl, Nat.pow_lt_pow_right (by norm_num) (by omega)⟩
  · exact ⟨hfloor.trans hround.1, by simp only; omega⟩

/-- **The rounding error** is at most half a unit of the last digit. -/
theorem abs_scientific_sub_le (hp : 0 < p) (hq : 0 < q) :
    |(scientific p q).1 * (10 : ℚ) ^ ((scientific p q).2 + 1 - p) - q|
      ≤ q * 10 ^ (1 - p : ℤ) / 2 := by
  have hunit : (0 : ℚ) < 10 ^ (Int.log 10 q + 1 - p) := by positivity
  -- a carry does not change the value
  have hvalue : (scientific p q).1 * (10 : ℚ) ^ ((scientific p q).2 + 1 - p)
      = roundHalfEven (q / 10 ^ (Int.log 10 q + 1 - p)) * 10 ^ (Int.log 10 q + 1 - p) := by
    simp only [scientific]
    split_ifs with hcarry
    · have hpred := pow_mul_unit (p - 1) (Int.log 10 q)
      rw [Nat.cast_pred hp, sub_sub_eq_add_sub] at hpred
      rw [hcarry, Nat.cast_pow, Nat.cast_pow, Nat.cast_ofNat, pow_mul_unit, hpred]
    · rfl
  have hround := abs_roundHalfEven_sub_le (q := q / 10 ^ (Int.log 10 q + 1 - p)) (by positivity)
  have hq' : q = q / 10 ^ (Int.log 10 q + 1 - p) * 10 ^ (Int.log 10 q + 1 - p) := by field_simp
  have hlast : (10 : ℚ) ^ (Int.log 10 q + 1 - p) ≤ q * 10 ^ (1 - p : ℤ) := by
    rw [add_sub_assoc, zpow_add₀ (by norm_num)]
    exact mul_le_mul_of_nonneg_right (log_le_self hq) (by positivity)
  calc |(scientific p q).1 * (10 : ℚ) ^ ((scientific p q).2 + 1 - p) - q|
      = |roundHalfEven (q / 10 ^ (Int.log 10 q + 1 - p)) - q / 10 ^ (Int.log 10 q + 1 - p)|
          * 10 ^ (Int.log 10 q + 1 - p) := by
        rw [hvalue, ← abs_of_pos hunit, ← abs_mul, abs_of_pos hunit, sub_mul, ← hq']
    _ ≤ 1 / 2 * 10 ^ (Int.log 10 q + 1 - p) := mul_le_mul_of_nonneg_right hround hunit.le
    _ ≤ q * 10 ^ (1 - p : ℤ) / 2 := by linarith

/-- All nines are rounded up from half a unit of the last digit on. -/
lemma carry_iff (hp : 0 < p) (hq : 0 < q) :
    roundHalfEven (q / 10 ^ (Int.log 10 q + 1 - p)) = 10 ^ p
      ↔ (10 : ℚ) ^ (Int.log 10 q + 1) - 10 ^ (Int.log 10 q + 1 - p) / 2 ≤ q := by
  have hunit : (0 : ℚ) < 10 ^ (Int.log 10 q + 1 - p) := by positivity
  have heven : 10 ^ p % 2 = 0 := by
    rcases Nat.exists_eq_succ_of_ne_zero hp.ne' with ⟨k, rfl⟩
    rw [pow_succ]
    omega
  rw [roundHalfEven_eq_iff (by positivity) (scaled_mem hp hq).2 heven, le_div_iff₀ hunit, sub_mul,
    Nat.cast_pow, Nat.cast_ofNat, pow_mul_unit, one_div_mul_eq_div]

/-- **The decimal exponent** reaches `j` half a unit of the last digit below `10 ^ j`. -/
theorem le_scientific_snd_iff (hp : 0 < p) (hq : 0 < q) :
    j ≤ (scientific p q).2 ↔ (10 : ℚ) ^ j - 10 ^ (j - p) / 2 ≤ q := by
  have hsnd : (scientific p q).2 = Int.log 10 q ∨ (scientific p q).2 = Int.log 10 q + 1 := by
    simp only [scientific]
    split_ifs
    · exact Or.inr rfl
    · exact Or.inl rfl
  have hlast : (10 : ℚ) ^ (j - p) ≤ 10 ^ j := zpow_le_zpow_right₀ (by norm_num) (by omega)
  have hpos : (0 : ℚ) < 10 ^ (j - p) := by positivity
  rcases lt_trichotomy j (Int.log 10 q + 1) with hj | hj | hj
  · -- the exponent is there already
    have hle : (10 : ℚ) ^ j ≤ 10 ^ Int.log 10 q := zpow_le_zpow_right₀ (by norm_num) (by omega)
    exact iff_of_true (by omega) (by linarith [log_le_self hq])
  · rw [hj, ← carry_iff hp hq]
    simp only [scientific]
    split_ifs with hcarry
    · simp [hcarry]
    · simp [hcarry]
  · -- not even a carry reaches it
    have hle : (10 : ℚ) ^ (Int.log 10 q + 1) ≤ 10 ^ (j - 1) :=
      zpow_le_zpow_right₀ (by norm_num) (by omega)
    have hpred : (10 : ℚ) ^ j = 10 ^ (j - 1) * 10 := by
      rw [← zpow_add_one₀ (by norm_num), sub_add_cancel]
    have hnonneg : (0 : ℚ) < 10 ^ (j - 1) := by positivity
    refine iff_of_false (by omega) ?_
    linarith [lt_succ_log_self q]

end Scientific

/-! ## The text -/

/-- The digits behind the point, without trailing zeros. -/
def fractionDigits (m d : ℕ) : List Char := (lowDigits d m).rdropWhile (· == '0')

/-- `m / 10 ^ d`, without trailing zeros behind the point. -/
def fixed (m d : ℕ) : List Char :=
  Nat.toDigits 10 (m / 10 ^ d) ++
    if fractionDigits m d = [] then [] else '.' :: fractionDigits m d

/-- The exponent of scientific notation, in two digits at least. -/
def exponent (x : ℤ) : List Char :=
  'e' :: (if x < 0 then '-' else '+') ::
    if x.natAbs < 100 then lowDigits 2 x.natAbs else Nat.toDigits 10 x.natAbs

/-- A number with `p` significant digits, as `%g` writes it. -/
def general (p : ℕ) (q : ℚ) : List Char :=
  if q = 0 then ['0']
  else
    let sign := if q < 0 then ['-'] else []
    let (m, x) := scientific p |q|
    if -4 ≤ x ∧ x < p then sign ++ fixed m (p - 1 - x).toNat
    else sign ++ fixed m (p - 1) ++ exponent x

section Text

variable {p m d : ℕ} {q : ℚ}

lemma isDigit_of_mem_fractionDigits {c : Char} (h : c ∈ fractionDigits m d) : c.isDigit = true :=
  isDigit_of_mem_lowDigits ((List.rdropWhile_prefix _ _).subset h)

lemma general_zero (p : ℕ) : general p 0 = ['0'] := if_pos rfl

/-- Both sides of the point together are worth `m / 10 ^ d`. -/
theorem value_fixed (m d : ℕ) :
    Nat.ofDigitChars 10 (Nat.toDigits 10 (m / 10 ^ d)) 0 + fraction (fractionDigits m d)
      = (m : ℚ) / 10 ^ d := by
  have hsplit : (10 : ℚ) ^ d * (m / 10 ^ d : ℕ) + (m % 10 ^ d : ℕ) = m := by
    exact_mod_cast Nat.div_add_mod m (10 ^ d)
  rw [Nat.ofDigitChars_ten_toDigits, fractionDigits, fraction_rdropWhile, fraction_lowDigits,
    eq_div_iff (by positivity), add_mul, div_mul_cancel₀ _ (by positivity), mul_comm]
  exact hsplit

/-- **Fixed notation** keeps the value up to the rounding. -/
theorem general_of_mem (hp : 0 < p) (hq : 0 < q)
    (hlow : (10 : ℚ) ^ (-4 : ℤ) - 10 ^ (-4 - p : ℤ) / 2 ≤ q) (hhigh : q < 10 ^ p - 1 / 2) :
    ∃ m d, general p q = fixed m d ∧ |(m : ℚ) / 10 ^ d - q| ≤ q * 10 ^ (1 - p : ℤ) / 2 := by
  have hx4 := (le_scientific_snd_iff (j := -4) hp hq).mpr hlow
  have hxp : (scientific p q).2 < p := by
    by_contra hle
    have hge := (le_scientific_snd_iff (j := p) hp hq).mp (by omega)
    rw [sub_self, zpow_zero, zpow_natCast] at hge
    linarith
  refine ⟨(scientific p q).1, (p - 1 - (scientific p q).2).toNat, ?_, ?_⟩
  · simp only [general]
    rw [if_neg hq.ne', if_neg hq.not_gt, abs_of_pos hq, if_pos ⟨hx4, hxp⟩, List.nil_append]
  · have herror := abs_scientific_sub_le hp hq
    have hexp : (scientific p q).2 + 1 - p = -((p - 1 - (scientific p q).2).toNat : ℤ) := by omega
    rwa [hexp, zpow_neg, zpow_natCast, ← div_eq_mul_inv] at herror

/-- **Scientific notation** starts with one digit before the point. -/
theorem general_of_not_mem (hp : 0 < p) (hq : 0 < q)
    (h : q < (10 : ℚ) ^ (-4 : ℤ) - 10 ^ (-4 - p : ℤ) / 2 ∨ 10 ^ p - 1 / 2 ≤ q) :
    ∃ m x, general p q = fixed m (p - 1) ++ exponent x ∧ 10 ^ (p - 1) ≤ m ∧ m < 10 ^ p := by
  have hout : ¬(-4 ≤ (scientific p q).2 ∧ (scientific p q).2 < p) := by
    rintro ⟨hx4, hxp⟩
    rcases h with hlow | hhigh
    · exact absurd ((le_scientific_snd_iff hp hq).mp hx4) (not_le_of_gt hlow)
    · have hge := (le_scientific_snd_iff (j := p) hp hq).mpr (by
        rw [sub_self, zpow_zero, zpow_natCast]
        exact hhigh)
      omega
  refine ⟨(scientific p q).1, (scientific p q).2, ?_, scientific_fst_mem hp hq⟩
  simp only [general]
  rw [if_neg hq.ne', if_neg hq.not_gt, abs_of_pos hq, if_neg hout, List.nil_append]

end Text

end Numerals
