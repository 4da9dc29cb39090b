import Mathlib.Data.List.Basic
import Mathlib.Tactic.Common

/-!
# ASCII text and decimal numbers as byte strings
-/

namespace Ascii

/-- The bytes of a text of ASCII characters. -/
def ascii (cs : List Char) : List UInt8 := cs.map fun c => UInt8.ofNat c.toNat

/-- The UTF-8 encoding of a text. -/
def utf8 (cs : List Char) : List UInt8 := cs.flatMap String.utf8EncodeChar

/-- ASCII characters are encoded as themselves. -/
lemma utf8_eq_ascii {cs : List Char} (h : ∀ c ∈ cs, c.toNat < 128) : utf8 cs = ascii cs := by
  induction cs with
  | nil => rfl
  | cons c cs ih =>
    have hc : c.val ≤ 127 := by
      have := h c List.mem_cons_self
      exact UInt32.le_iff_toNat_le.mpr (by simpa using Nat.le_of_lt_succ this)
    have hone : String.utf8EncodeChar c = [UInt8.ofNat c.toNat] :=
      String.utf8EncodeChar_eq_singleton (Char.utf8Size_eq_one_iff.mpr hc)
    rw [utf8, List.flatMap_cons, hone, List.singleton_append]
    exact congrArg _ (ih fun c' hc' => h c' (List.mem_cons_of_mem _ hc'))

/-- Every byte of another character is above 127. -/
lemma le_of_mem_utf8EncodeChar {c : Char} (h : 128 ≤ c.toNat) :
    ∀ b ∈ String.utf8EncodeChar c, 128 ≤ b.toNat := by
  intro b hb
  have hval : c.val.toNat = c.toNat := rfl
  unfold String.utf8EncodeChar at hb
  dsimp only at hb
  rw [hval, if_neg (by omega)] at hb
  split at hb
  · simp only [List.mem_cons, List.not_mem_nil, or_false] at hb
    rcases hb with rfl | rfl <;> rw [UInt8.toNat_ofNat'] <;> omega
  · split at hb
    · simp only [List.mem_cons, List.not_mem_nil, or_false] at hb
      rcases hb with rfl | rfl | rfl <;> rw [UInt8.toNat_ofNat'] <;> omega
    · simp only [List.mem_cons, List.not_mem_nil, or_false] at hb
      rcases hb with rfl | rfl | rfl | rfl <;> rw [UInt8.toNat_ofNat'] <;> omega

lemma utf8_append (cs ds : List Char) : utf8 (cs ++ ds) = utf8 cs ++ utf8 ds :=
  List.flatMap_append

/-! ## Decimal numbers -/

/-- An ASCII digit. -/
def isDigit (b : UInt8) : Bool := 0x30 ≤ b && b ≤ 0x39

/-- The number a string of ASCII digits denotes. -/
def digitsValue (ds : List UInt8) : ℕ := ds.foldl (fun n d => 10 * n + (d.toNat - 0x30)) 0

/-- The decimal digits of a number, as bytes. -/
def decimal (n : ℕ) : List UInt8 := ascii (Nat.toDigits 10 n)

lemma decimal_ne_nil (n : ℕ) : decimal n ≠ [] := by
  simp [decimal, ascii, Nat.toDigits_ne_nil]

lemma toNat_lt_of_isDigit {c : Char} (h : c.isDigit = true) : 48 ≤ c.toNat ∧ c.toNat ≤ 57 := by
  simp only [Char.isDigit, Bool.and_eq_true, decide_eq_true_eq, ge_iff_le] at h
  exact ⟨UInt32.le_iff_toNat_le.mp h.1, UInt32.le_iff_toNat_le.mp h.2⟩

/-- Decimal numbers are made of digits. -/
lemma isDigit_of_mem_decimal {n : ℕ} {b : UInt8} (hb : b ∈ decimal n) : isDigit b = true := by
  rcases List.mem_map.mp hb with ⟨c, hc, rfl⟩
  have hdigit := Nat.isDigit_of_mem_toDigits (by decide) (Nat.le_refl _) hc
  rcases toNat_lt_of_isDigit hdigit with ⟨h1, h2⟩
  simp only [isDigit, Bool.and_eq_true, decide_eq_true_eq, UInt8.le_iff_toNat_le,
    UInt8.toNat_ofNat']
  exact ⟨by show 48 ≤ _; omega, by show _ ≤ 57; omega⟩

lemma foldl_digits_ascii (cs : List Char) (hcs : ∀ c ∈ cs, c.isDigit = true) (n : ℕ) :
    (ascii cs).foldl (fun n d => 10 * n + (d.toNat - 0x30)) n = Nat.ofDigitChars 10 cs n := by
  induction cs generalizing n with
  | nil => rw [Nat.ofDigitChars_nil]; rfl
  | cons c cs ih =>
    rcases toNat_lt_of_isDigit (hcs c List.mem_cons_self) with ⟨-, h⟩
    have hval : (UInt8.ofNat c.toNat).toNat = c.toNat := by
      rw [UInt8.toNat_ofNat']
      omega
    rw [ascii, List.map_cons, List.foldl_cons, Nat.ofDigitChars_cons, hval]
    exact ih (fun c' hc' => hcs c' (List.mem_cons_of_mem _ hc')) _

/-- **Decimal round trip.** -/
theorem digitsValue_decimal (n : ℕ) : digitsValue (decimal n) = n := by
  rw [digitsValue, decimal, foldl_digits_ascii _ fun c hc =>
    Nat.isDigit_of_mem_toDigits (by decide) (Nat.le_refl _) hc]
  exact Nat.ofDigitChars_toDigits (by decide) (Nat.le_refl _)

end Ascii
