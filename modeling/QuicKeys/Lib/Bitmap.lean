import Mathlib.Data.List.Basic
import Mathlib.Data.Nat.Bitwise

/-!
# Sets of small numbers as byte strings

Bit `n` of a byte string is bit `n % 8` of byte `n / 8`, least significant bit first.
-/

namespace Bitmap

/-- Bit `n` of a byte string; the bits behind its end are clear. -/
def bit (l : List UInt8) (n : ℕ) : Bool := (l.getD (n / 8) 0).toNat.testBit (n % 8)

/-- Set bit `n`. -/
def setBit (l : List UInt8) (n : ℕ) : List UInt8 :=
  l.set (n / 8) (UInt8.ofNat ((l.getD (n / 8) 0).toNat ||| 1 <<< (n % 8)))

@[simp] lemma length_setBit (l : List UInt8) (n : ℕ) : (setBit l n).length = l.length := by
  simp [setBit]

@[simp] lemma bit_replicate_zero (k n : ℕ) : bit (List.replicate k 0) n = false := by
  simp only [bit, List.getD_eq_getElem?_getD, List.getElem?_replicate]
  split <;> simp

/-- Masking with a single bit tests that bit. -/
lemma and_shiftLeft_ne_zero (x i : ℕ) : x &&& 1 <<< i ≠ 0 ↔ x.testBit i = true := by
  rw [Nat.one_shiftLeft, Nat.and_two_pow]
  cases x.testBit i <;> simp

lemma toNat_ofNat_or (b : UInt8) {i : ℕ} (hi : i < 8) :
    (UInt8.ofNat (b.toNat ||| 1 <<< i)).toNat = b.toNat ||| 2 ^ i := by
  rw [Nat.one_shiftLeft, UInt8.toNat_ofNat']
  refine Nat.mod_eq_of_lt (Nat.or_lt_two_pow b.toNat_lt ?_)
  exact Nat.pow_lt_pow_right (by decide) hi

/-- Setting a bit inside the string sets it and leaves the others. -/
lemma bit_setBit {l : List UInt8} {n : ℕ} (hn : n < 8 * l.length) (m : ℕ) :
    bit (setBit l n) m = (decide (m = n) || bit l m) := by
  have hbyte : n / 8 < l.length := by omega
  have hmod : n % 8 < 8 := Nat.mod_lt _ (by decide)
  unfold bit setBit
  by_cases hq : m / 8 = n / 8
  · have hval : (l.set (n / 8) (UInt8.ofNat ((l.getD (n / 8) 0).toNat ||| 1 <<< (n % 8)))).getD
        (m / 8) 0 = UInt8.ofNat ((l.getD (n / 8) 0).toNat ||| 1 <<< (n % 8)) := by
      rw [hq, List.getD_eq_getElem?_getD, List.getElem?_set_self hbyte, Option.getD_some]
    have hiff : n % 8 = m % 8 ↔ m = n := by omega
    rw [hval, toNat_ofNat_or _ hmod, Nat.testBit_or, Nat.testBit_two_pow, hq, Bool.or_comm]
    simp only [hiff]
  · have hne : m ≠ n := fun h => hq (by rw [h])
    rw [List.getD_eq_getElem?_getD, List.getElem?_set_ne (Ne.symm hq),
      ← List.getD_eq_getElem?_getD]
    simp [hne]

/-- **Bits set one by one.** After setting the bits of `ns`, exactly these have changed. -/
theorem bit_foldl_setBit {ns : List ℕ} {l : List UInt8} (hns : ∀ n ∈ ns, n < 8 * l.length)
    (m : ℕ) : bit (ns.foldl setBit l) m = (decide (m ∈ ns) || bit l m) := by
  induction ns generalizing l with
  | nil => simp
  | cons n ns ih =>
    have hn := hns n List.mem_cons_self
    rw [List.foldl_cons, ih fun k hk => by
      rw [length_setBit]
      exact hns k (List.mem_cons_of_mem _ hk), bit_setBit hn]
    by_cases hmn : m = n <;> by_cases hm : m ∈ ns <;> simp [hmn, hm]

end Bitmap
