import Mathlib.Algebra.Order.Floor.Semiring
import Mathlib.Data.List.Sort
import Mathlib.LinearAlgebra.AffineSpace.Ordered
import Mathlib.Tactic.Linarith

/-!
# Order statistics and the line through them

The sorted entries of a list, as functions of the list: they depend neither on the order
of the list nor go down when its elements go up. Between the entries of any sequence runs
the piecewise linear function `interpolate`, which inherits both its monotonicity and its
bounds from the sequence.
-/

namespace OrderStatistics

/-! ## Sorted entries -/

section Sorted

variable {α : Type*} [LinearOrder α] {xs ys : List α} {v : α} {i : ℕ}

/-- In a sorted list, the entries up to `v` are the first ones. -/
lemma getElem_le_iff_lt_countP (hxs : xs.Pairwise (· ≤ ·)) (hi : i < xs.length) :
    xs[i] ≤ v ↔ i < xs.countP (· ≤ v) := by
  induction xs generalizing i with
  | nil => exact absurd hi (Nat.not_lt_zero i)
  | cons x xs ih =>
    rcases List.pairwise_cons.mp hxs with ⟨hx, hrest⟩
    by_cases hv : x ≤ v
    · rw [List.countP_cons_of_pos (by simpa using hv)]
      cases i with
      | zero => simpa using hv
      | succ i => simpa using ih hrest (Nat.lt_of_succ_lt_succ hi)
    · -- nothing behind a head above `v` is counted either
      have hnone : (x :: xs).countP (· ≤ v) = 0 := by
        rw [List.countP_eq_zero]
        intro y hy
        rcases List.mem_cons.mp hy with rfl | hy
        · simpa using hv
        · simpa using (lt_of_not_ge hv).trans_le (hx y hy)
      rw [hnone]
      refine iff_of_false (fun hle => hv ?_) (Nat.not_lt_zero i)
      cases i with
      | zero => exact hle
      | succ i => exact (hx _ (List.getElem_mem _)).trans hle

/-- Fewer elements are up to `v` once the elements went up. -/
lemma countP_le_of_forall₂ (h : List.Forall₂ (· ≤ ·) xs ys) (v : α) :
    ys.countP (· ≤ v) ≤ xs.countP (· ≤ v) := by
  induction h with
  | nil => exact le_rfl
  | @cons x y xs ys hxy _ ih =>
    rw [List.countP_cons, List.countP_cons]
    refine Nat.add_le_add ih ?_
    by_cases hy : y ≤ v
    · simp [hy, hxy.trans hy]
    · simp [hy]

/-- **Sorting forgets the order.** -/
theorem insertionSort_eq_of_perm (h : ys.Perm xs) :
    ys.insertionSort (· ≤ ·) = xs.insertionSort (· ≤ ·) := by
  have hperm : (ys.insertionSort (· ≤ ·)).Perm (xs.insertionSort (· ≤ ·)) :=
    (List.perm_insertionSort _ ys).trans (h.trans (List.perm_insertionSort _ xs).symm)
  exact hperm.eq_of_pairwise' (List.pairwise_insertionSort _ ys) (List.pairwise_insertionSort _ xs)

/-- **Sorted entries go up with the elements.** -/
theorem getElem_insertionSort_le (h : List.Forall₂ (· ≤ ·) xs ys)
    (hx : i < (xs.insertionSort (· ≤ ·)).length) (hy : i < (ys.insertionSort (· ≤ ·)).length) :
    (xs.insertionSort (· ≤ ·))[i] ≤ (ys.insertionSort (· ≤ ·))[i] := by
  rw [getElem_le_iff_lt_countP (List.pairwise_insertionSort _ xs) hx,
    (List.perm_insertionSort (· ≤ ·) xs).countP_eq]
  refine lt_of_lt_of_le ?_ (countP_le_of_forall₂ h _)
  rw [← (List.perm_insertionSort (· ≤ ·) ys).countP_eq,
    ← getElem_le_iff_lt_countP (List.pairwise_insertionSort _ ys) hy]

lemma min_lt_length (hne : xs ≠ []) (i : ℕ) :
    min i (xs.length - 1) < (xs.insertionSort (· ≤ ·)).length := by
  rw [List.length_insertionSort]
  have := List.length_pos_iff.mpr hne
  omega

/-- The `i`-th smallest element, the largest one from the last rank on. -/
def entry (xs : List α) (hne : xs ≠ []) (i : ℕ) : α :=
  (xs.insertionSort (· ≤ ·)).get ⟨min i (xs.length - 1), min_lt_length hne i⟩

variable {hne : xs ≠ []}

lemma entry_eq_getElem (h : i < (xs.insertionSort (· ≤ ·)).length) :
    entry xs hne i = (xs.insertionSort (· ≤ ·))[i] := by
  have hi : min i (xs.length - 1) = i := by
    rw [List.length_insertionSort] at h
    omega
  simp only [entry, List.get_eq_getElem, hi]

lemma entry_mem (xs : List α) (hne : xs ≠ []) (i : ℕ) : entry xs hne i ∈ xs :=
  (List.mem_insertionSort _).mp (List.get_mem _ _)

lemma entry_mono (xs : List α) (hne : xs ≠ []) : Monotone (entry xs hne) := by
  intro i j hij
  exact (List.pairwise_insertionSort (· ≤ ·) xs).sortedLE.getElem_le_getElem_of_le
    (min_le_min_right _ hij)

lemma entry_le_of_forall₂ {hne' : ys ≠ []} (h : List.Forall₂ (· ≤ ·) xs ys) (i : ℕ) :
    entry xs hne i ≤ entry ys hne' i := by
  have hlen := h.length_eq
  simp only [entry, List.get_eq_getElem, ← hlen]
  exact getElem_insertionSort_le h _ _

end Sorted

/-! ## The line through a sequence -/

section Interpolate

variable {K : Type*} [Field K] [LinearOrder K] [IsStrictOrderedRing K] [FloorSemiring K]
  {v w : ℕ → K} {j k : K}

/-- The piecewise linear function through the points `(n, v n)`. -/
def interpolate (v : ℕ → K) (k : K) : K :=
  AffineMap.lineMap (v ⌊k⌋₊) (v (⌊k⌋₊ + 1)) (k - ⌊k⌋₊)

lemma interpolate_natCast (v : ℕ → K) (n : ℕ) : interpolate v n = v n := by
  rw [interpolate, Nat.floor_natCast, sub_self, AffineMap.lineMap_apply_zero]

lemma sub_floor_nonneg (hk : 0 ≤ k) : 0 ≤ k - ⌊k⌋₊ := sub_nonneg.mpr (Nat.floor_le hk)

lemma sub_floor_le_one (k : K) : k - ⌊k⌋₊ ≤ 1 := by
  have := (Nat.lt_floor_add_one k).le
  linarith

lemma floor_le_interpolate (hv : Monotone v) (hk : 0 ≤ k) : v ⌊k⌋₊ ≤ interpolate v k :=
  calc v ⌊k⌋₊ = AffineMap.lineMap (v ⌊k⌋₊) (v ⌊k⌋₊) (k - ⌊k⌋₊) :=
        (AffineMap.lineMap_same_apply _ _).symm
    _ ≤ interpolate v k := lineMap_mono_right (hv (Nat.le_succ _)) (sub_floor_nonneg hk)

lemma interpolate_le_ceil (hv : Monotone v) (k : K) : interpolate v k ≤ v (⌊k⌋₊ + 1) :=
  calc interpolate v k ≤ AffineMap.lineMap (v (⌊k⌋₊ + 1)) (v (⌊k⌋₊ + 1)) (k - ⌊k⌋₊) :=
        lineMap_mono_left (hv (Nat.le_succ _)) (sub_floor_le_one k)
    _ = v (⌊k⌋₊ + 1) := AffineMap.lineMap_same_apply _ _

/-- **Monotone in the point**: within a segment by its slope, across segments through the
entries between them. -/
theorem interpolate_mono (hv : Monotone v) (hj : 0 ≤ j) (hjk : j ≤ k) :
    interpolate v j ≤ interpolate v k := by
  rcases (Nat.floor_mono hjk).eq_or_lt with hfloor | hfloor
  · have hslope : 0 ≤ (v (⌊k⌋₊ + 1) - v ⌊k⌋₊) * (k - j) :=
      mul_nonneg (sub_nonneg.mpr (hv (Nat.le_succ _))) (sub_nonneg.mpr hjk)
    rw [interpolate, interpolate, hfloor, AffineMap.lineMap_apply_ring',
      AffineMap.lineMap_apply_ring']
    linarith
  · calc interpolate v j ≤ v (⌊j⌋₊ + 1) := interpolate_le_ceil hv j
      _ ≤ v ⌊k⌋₊ := hv hfloor
      _ ≤ interpolate v k := floor_le_interpolate hv (hj.trans hjk)

/-- **Monotone in the sequence.** -/
theorem interpolate_le_of_le (h : ∀ n, v n ≤ w n) (hk : 0 ≤ k) :
    interpolate v k ≤ interpolate w k :=
  lineMap_mono_endpoints (h _) (h _) (sub_floor_nonneg hk) (sub_floor_le_one k)

end Interpolate

end OrderStatistics
