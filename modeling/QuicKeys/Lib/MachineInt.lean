import Mathlib.Algebra.Order.Ring.Nat
import Mathlib.Data.List.Induction
import Mathlib.Tactic.Common

/-!
# Fixed-width machine integers, read as numbers

What wrapping 64-bit subtraction, sign extension and big-endian packing mean in `ℕ`, in
the form in which `omega` can go on.
-/

namespace MachineInt

/-! ## Wrapping subtraction -/

/-- An unsigned difference is the exact one, or wraps once. -/
lemma toNat_sub_eq (a b : UInt64) :
    (a - b).toNat
      = if b.toNat ≤ a.toNat then a.toNat - b.toNat else 2 ^ 64 + a.toNat - b.toNat := by
  rw [UInt64.toNat_sub]
  have ha := a.toNat_lt
  have hb := b.toNat_lt
  split <;> omega

lemma toNat_sub_of_le {a b : UInt64} (h : b.toNat ≤ a.toNat) :
    (a - b).toNat = a.toNat - b.toNat := by
  rw [toNat_sub_eq, if_pos h]

lemma toNat_sub_of_lt {a b : UInt64} (h : a.toNat < b.toNat) :
    (a - b).toNat = 2 ^ 64 + a.toNat - b.toNat := by
  rw [toNat_sub_eq, if_neg (Nat.not_le.mpr h)]

lemma toNat_ne_zero {a : UInt64} : a.toNat ≠ 0 ↔ a ≠ 0 := by
  rw [Ne, Ne, ← UInt64.toNat_inj, UInt64.toNat_zero]

/-! ## Widening a positive `int` -/

/-- Widening a positive `int` to 64 unsigned bits keeps its value. -/
lemma toNat_toUInt64_of_pos {x : Int32} (h : 0 < x) :
    x.toInt64.toUInt64.toNat = x.toInt.toNat := by
  have hx : 0 < x.toInt := by simpa using Int32.lt_iff_toInt_lt.mp h
  have hval : x.toInt64.toBitVec.toInt = x.toInt := Int32.toInt_toInt64 x
  have hlt := x.toInt64.toBitVec.isLt
  rw [BitVec.toInt_eq_toNat_cond] at hval
  show x.toInt64.toBitVec.toNat = x.toInt.toNat
  split at hval <;> omega

/-- A positive `int` times a factor below `2 ^ 32` does not overflow 64 bits. -/
lemma toNat_toUInt64_mul {x : Int32} (h : 0 < x) {c : UInt64} (hc : c.toNat < 2 ^ 32) :
    (x.toInt64.toUInt64 * c).toNat = x.toInt.toNat * c.toNat := by
  have hx : x.toInt < 2 ^ 31 := Int32.toInt_lt x
  have hx' : x.toInt.toNat < 2 ^ 31 := by omega
  rw [UInt64.toNat_mul, toNat_toUInt64_of_pos h]
  apply Nat.mod_eq_of_lt
  calc x.toInt.toNat * c.toNat
      < 2 ^ 31 * 2 ^ 32 := Nat.mul_lt_mul'' hx' hc
    _ < 2 ^ 64 := by decide

/-! ## Big-endian words -/

lemma toUInt8_shiftLeft {x : UInt32} {k : UInt32} (hk : k = 8 ∨ k = 16 ∨ k = 24) :
    (x <<< k).toUInt8 = 0 := by
  rw [← UInt8.toNat_inj]
  rcases hk with rfl | rfl | rfl <;>
    simp [UInt32.toNat_shiftLeft, Nat.shiftLeft_eq] <;> omega

/-- The low byte of a big-endian 32-bit word is its last byte. -/
lemma toUInt8_bigEndian (a b c d : UInt8) :
    UInt32.toUInt8 ((a.toUInt32 <<< 24 ||| b.toUInt32 <<< 16 ||| c.toUInt32 <<< 8
      ||| d.toUInt32) &&& 0xFF) = d := by
  rw [UInt32.toUInt8_and, UInt32.toUInt8_or, UInt32.toUInt8_or, UInt32.toUInt8_or,
    toUInt8_shiftLeft (.inr (.inr rfl)), toUInt8_shiftLeft (.inr (.inl rfl)),
    toUInt8_shiftLeft (.inl rfl), UInt8.toUInt8_toUInt32]
  rw [← UInt8.toNat_inj]
  have hd := d.toNat_lt
  simp only [UInt8.zero_or, UInt8.toNat_and]
  show d.toNat &&& (2 ^ 8 - 1) = d.toNat
  rw [Nat.and_two_pow_sub_one_eq_mod]
  omega

/-- The number that bytes stand for, the most significant one first. -/
def bigEndian (l : List UInt8) : ℕ := l.foldl (fun n b => 256 * n + b.toNat) 0

lemma bigEndian_concat (l : List UInt8) (b : UInt8) :
    bigEndian (l ++ [b]) = 256 * bigEndian l + b.toNat := by
  rw [bigEndian, List.foldl_append]
  rfl

lemma bigEndian_append (l l' : List UInt8) :
    bigEndian (l ++ l') = 256 ^ l'.length * bigEndian l + bigEndian l' := by
  induction l' using List.reverseRecOn with
  | nil => simp [bigEndian]
  | append_singleton l' b ih =>
    rw [← List.append_assoc, bigEndian_concat, bigEndian_concat, ih, List.length_append,
      List.length_singleton, Nat.pow_succ']
    rw [Nat.mul_add, Nat.mul_assoc, Nat.add_assoc]

lemma bigEndian_lt (l : List UInt8) : bigEndian l < 256 ^ l.length := by
  induction l using List.reverseRecOn with
  | nil => decide
  | append_singleton l b ih =>
    have hb := b.toNat_lt
    rw [bigEndian_concat, List.length_append, List.length_singleton, Nat.pow_succ]
    omega

/-- **Four bytes or-ed into their places** are their number. -/
lemma toNat_or_shiftLeft (a b c d : UInt8) :
    (a.toUInt32 <<< 24 ||| b.toUInt32 <<< 16 ||| c.toUInt32 <<< 8 ||| d.toUInt32).toNat
      = bigEndian [a, b, c, d] := by
  have ha := a.toNat_lt
  have hb := b.toNat_lt
  have hc := c.toNat_lt
  have hd := d.toNat_lt
  have hmod : ∀ n k : ℕ, n < 256 → k ≤ 24 → n <<< k % 2 ^ 32 = n <<< k := by
    intro n k hn hk
    refine Nat.mod_eq_of_lt ?_
    rw [Nat.shiftLeft_eq]
    calc n * 2 ^ k ≤ 255 * 2 ^ k := Nat.mul_le_mul_right _ (by omega)
      _ ≤ 255 * 2 ^ 24 := Nat.mul_le_mul_left _ (Nat.pow_le_pow_right (by decide) hk)
      _ < 2 ^ 32 := by decide
  have hab : a.toNat <<< 24 ||| b.toNat <<< 16 = (256 * a.toNat + b.toNat) <<< 16 := by
    rw [← Nat.shiftLeft_add_eq_or_of_lt (by rw [Nat.shiftLeft_eq]; omega)]
    simp only [Nat.shiftLeft_eq]
    omega
  have habc : (256 * a.toNat + b.toNat) <<< 16 ||| c.toNat <<< 8
      = (256 * (256 * a.toNat + b.toNat) + c.toNat) <<< 8 := by
    rw [← Nat.shiftLeft_add_eq_or_of_lt (by rw [Nat.shiftLeft_eq]; omega)]
    simp only [Nat.shiftLeft_eq]
    omega
  simp only [UInt32.toNat_or, UInt32.toNat_shiftLeft, UInt8.toNat_toUInt32]
  show a.toNat <<< 24 % 2 ^ 32 ||| b.toNat <<< 16 % 2 ^ 32 ||| c.toNat <<< 8 % 2 ^ 32 ||| d.toNat
    = bigEndian [a, b, c, d]
  rw [hmod _ _ ha (by decide), hmod _ _ hb (by decide), hmod _ _ hc (by decide), hab, habc,
    ← Nat.shiftLeft_add_eq_or_of_lt hd]
  simp only [bigEndian, List.foldl_cons, List.foldl_nil, Nat.shiftLeft_eq]
  omega

/-- A word with room for one more byte takes it as its last one. -/
lemma toNat_shiftLeft_or {a : UInt64} (ha : a.toNat < 2 ^ 56) (b : UInt8) :
    (a <<< 8 ||| b.toUInt64).toNat = 256 * a.toNat + b.toNat := by
  have hshift : (a <<< 8).toNat = a.toNat <<< 8 := by
    rw [UInt64.toNat_shiftLeft]
    show a.toNat <<< 8 % 2 ^ 64 = _
    rw [Nat.shiftLeft_eq]
    omega
  rw [UInt64.toNat_or, hshift, UInt8.toNat_toUInt64,
    ← Nat.shiftLeft_add_eq_or_of_lt (show b.toNat < 2 ^ 8 from b.toNat_lt), Nat.shiftLeft_eq]
  omega

/-- **Shifting bytes in** one after the other reads their number, as long as they fit. -/
lemma toNat_foldl_shiftLeft_or {l : List UInt8} (hl : l.length ≤ 8) :
    (l.foldl (fun (v : UInt64) b => v <<< 8 ||| b.toUInt64) 0).toNat = bigEndian l := by
  induction l using List.reverseRecOn with
  | nil => rfl
  | append_singleton l b ih =>
    rw [List.length_append, List.length_singleton] at hl
    have hread := ih (by omega)
    have hlt := bigEndian_lt l
    have hpow : 256 ^ l.length ≤ 256 ^ 7 := Nat.pow_le_pow_right (by decide) (by omega)
    rw [List.foldl_append, List.foldl_cons, List.foldl_nil, toNat_shiftLeft_or (by omega), hread,
      bigEndian_concat]

end MachineInt
