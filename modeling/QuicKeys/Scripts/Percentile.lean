import Mathlib.Data.Rat.Floor
import Mathlib.Tactic.FieldSimp
import QuicKeys.Lib.OrderStatistics

/-!
# The percentiles of a report

`percentile` of the experiment script, over exact rationals. Its three special cases and
the clamped upper index make it one curve: the line through the order statistics of the
list, read at the rank of `p` limited to the range of the list.
-/

namespace QuicKeys.Scripts

open OrderStatistics

/-! ## The function -/

/-- The exceptions that reading a list can raise. -/
inductive Raised
  | indexError
deriving DecidableEq, Repr

/-- `int(x)`, which drops the fraction. -/
def toInt (x : ℚ) : ℤ := x.num.tdiv x.den

/-- `xs[i]`, where a negative index counts from the end. -/
def index (xs : List ℚ) (i : ℤ) : Except Raised ℚ :=
  let j := if i < 0 then i + xs.length else i
  if j < 0 then .error .indexError
  else match xs[j.toNat]? with
    | none => .error .indexError
    | some x => .ok x

/-- `sorted(xs)` -/
def sorted (xs : List ℚ) : List ℚ := xs.insertionSort (· ≤ ·)

/-- The local `k` for a list of `n` elements. -/
def rank (n : ℕ) (p : ℚ) : ℚ := (n - 1) * (p / 100)

/-- The local `f`. -/
def lowerIndex (n : ℕ) (p : ℚ) : ℤ := toInt (rank n p)

/-- The local `c`. -/
def upperIndex (n : ℕ) (p : ℚ) : ℤ := min (lowerIndex n p + 1) (n - 1)

def percentile (xs : List ℚ) (p : ℚ) : Except Raised (Option ℚ) :=
  if xs.isEmpty then .ok none
  else
    let xs2 := sorted xs
    if p ≤ 0 then do return some (← index xs2 0)
    else if p ≥ 100 then do return some (← index xs2 (-1))
    else
      let k := rank xs2.length p
      let f := lowerIndex xs2.length p
      let c := upperIndex xs2.length p
      if f = c then do return some (← index xs2 f)
      else do
        let d0 := (← index xs2 f) * (c - k)
        let d1 := (← index xs2 c) * (k - f)
        return some (d0 + d1)

/-! ## What it reads -/

section Reads

variable {xs : List ℚ} {n : ℕ} {p q : ℚ}

lemma toInt_of_nonneg {x : ℚ} (hx : 0 ≤ x) : toInt x = ⌊x⌋₊ := by
  rw [Int.natCast_floor_eq_floor hx, Rat.floor_def', toInt,
    Int.tdiv_eq_ediv_of_nonneg (Rat.num_nonneg.mpr hx)]

@[simp] lemma length_sorted (xs : List ℚ) : (sorted xs).length = xs.length :=
  List.length_insertionSort _ xs

lemma index_natCast (h : n < xs.length) : index xs n = .ok xs[n] := by
  have hn : ¬((n : ℤ) < 0) := by omega
  simp only [index, hn, if_false, Int.toNat_natCast, List.getElem?_eq_getElem h]

lemma index_neg_one (hne : xs ≠ []) : index xs (-1) = index xs (xs.length - 1 : ℕ) := by
  have hlen := List.length_pos_iff.mpr hne
  have hlast : (-1 : ℤ) + xs.length = (xs.length - 1 : ℕ) := by omega
  have hn : ¬(((xs.length - 1 : ℕ) : ℤ) < 0) := by omega
  simp only [index, hlast, hn, Int.reduceNeg, Int.reduceLT, if_true, if_false]

lemma index_sorted (hne : xs ≠ []) (h : n < xs.length) :
    index (sorted xs) n = .ok (entry xs hne n) := by
  have hn : n < (sorted xs).length := by rwa [length_sorted]
  rw [index_natCast hn, entry_eq_getElem hn]
  rfl

lemma rank_nonneg (hn : 0 < n) (hp : 0 ≤ p) : 0 ≤ rank n p := by
  have hlen : (1 : ℚ) ≤ n := by exact_mod_cast hn
  exact mul_nonneg (by linarith) (by linarith)

lemma rank_lt (hn : 1 < n) (hp : p < 100) : rank n p < (n - 1 : ℕ) := by
  have hlen : (1 : ℚ) < n := by exact_mod_cast hn
  rw [Nat.cast_sub hn.le, Nat.cast_one, rank]
  exact mul_lt_of_lt_one_right (by linarith) (by linarith)

lemma rank_mono (hn : 0 < n) (h : p ≤ q) : rank n p ≤ rank n q := by
  have hlen : (1 : ℚ) ≤ n := by exact_mod_cast hn
  exact mul_le_mul_of_nonneg_left (by linarith) (by linarith)

lemma lowerIndex_eq (hn : 0 < n) (hp : 0 ≤ p) : lowerIndex n p = ⌊rank n p⌋₊ :=
  toInt_of_nonneg (rank_nonneg hn hp)

/-- With two elements or more, the rank lies before the last index. -/
lemma floor_rank_lt (hn : 1 < n) (hp0 : 0 ≤ p) (hp : p < 100) : ⌊rank n p⌋₊ + 1 < n := by
  have := (Nat.floor_lt (rank_nonneg hn.le hp0)).mpr (rank_lt hn hp)
  omega

lemma upperIndex_eq (hn : 1 < n) (hp0 : 0 ≤ p) (hp : p < 100) :
    upperIndex n p = (⌊rank n p⌋₊ + 1 : ℕ) := by
  have := floor_rank_lt hn hp0 hp
  rw [upperIndex, lowerIndex_eq hn.le hp0]
  omega

end Reads

/-! ## The curve -/

/-- `p`, limited to the range of a percentage. -/
def clamp (p : ℚ) : ℚ := max 0 (min p 100)

/-- The line through the sorted elements, at the rank of `p`. -/
def curve (xs : List ℚ) (hne : xs ≠ []) (p : ℚ) : ℚ :=
  interpolate (entry xs hne) (rank xs.length (clamp p))

section Curve

variable {xs ys : List ℚ} {p q : ℚ}

lemma clamp_nonneg (p : ℚ) : 0 ≤ clamp p := le_max_left _ _

lemma clamp_mono : Monotone clamp := fun _ _ h => max_le_max_left _ (min_le_min_right _ h)

lemma clamp_of_mem (h0 : 0 ≤ p) (h100 : p ≤ 100) : clamp p = p := by
  rw [clamp, min_eq_left h100, max_eq_right h0]

/-- At a rank that is a whole number the curve meets the element there. -/
lemma curve_of_rank_eq {n : ℕ} (hne : xs ≠ []) (h : rank xs.length (clamp p) = n) :
    curve xs hne p = entry xs hne n := by
  rw [curve, h, interpolate_natCast]

lemma curve_of_nonpos (hne : xs ≠ []) (h : p ≤ 0) : curve xs hne p = entry xs hne 0 := by
  refine curve_of_rank_eq hne ?_
  rw [clamp, min_eq_left (by linarith), max_eq_left h, rank, zero_div, mul_zero, Nat.cast_zero]

lemma curve_of_ge (hne : xs ≠ []) (h : 100 ≤ p) :
    curve xs hne p = entry xs hne (xs.length - 1) := by
  refine curve_of_rank_eq hne ?_
  rw [clamp, min_eq_right h, max_eq_right (by norm_num), rank, div_self (by norm_num), mul_one,
    Nat.cast_pred (List.length_pos_iff.mpr hne)]

lemma curve_of_length_one (hne : xs ≠ []) (h : xs.length = 1) (p : ℚ) :
    curve xs hne p = entry xs hne 0 := by
  refine curve_of_rank_eq hne ?_
  rw [h, rank, Nat.cast_one, sub_self, zero_mul, Nat.cast_zero]

/-- Between two ranks, the weights are the ones that the code computes. -/
lemma curve_of_mem (hne : xs ≠ []) (h0 : 0 ≤ p) (h100 : p ≤ 100) {k : ℚ}
    (hk : rank xs.length p = k) :
    curve xs hne p
      = entry xs hne ⌊k⌋₊ * ((⌊k⌋₊ + 1 : ℕ) - k) + entry xs hne (⌊k⌋₊ + 1) * (k - ⌊k⌋₊) := by
  rw [curve, clamp_of_mem h0 h100, hk, interpolate, AffineMap.lineMap_apply_ring, Nat.cast_succ]
  ring

/-- The function walks the curve, and never reads outside the list. -/
theorem percentile_eq (hne : xs ≠ []) (p : ℚ) : percentile xs p = .ok (some (curve xs hne p)) := by
  have hlen := List.length_pos_iff.mpr hne
  have hempty : xs.isEmpty = false := by simpa using hne
  have hsorted : sorted xs ≠ [] := by
    rw [← List.length_pos_iff, length_sorted]
    exact hlen
  simp only [percentile, hempty, Bool.false_eq_true, if_false, length_sorted]
  split_ifs with h0 h100 heq
  · rw [curve_of_nonpos hne h0, ← Nat.cast_zero, index_sorted hne hlen]
    rfl
  · rw [curve_of_ge hne h100, index_neg_one hsorted, length_sorted, index_sorted hne (by omega)]
    rfl
  all_goals
    have hp0 : 0 ≤ p := (lt_of_not_ge h0).le
    have hp : p < 100 := lt_of_not_ge h100
    have hlower : lowerIndex xs.length p = ⌊rank xs.length p⌋₊ := lowerIndex_eq hlen hp0
  · -- the two indices coincide for a single element only
    have hone : xs.length = 1 := by
      by_contra hn
      have hupper := upperIndex_eq (n := xs.length) (by omega) hp0 hp
      omega
    have hfloor : ⌊rank xs.length p⌋₊ = 0 := by
      rw [hone, rank, Nat.cast_one, sub_self, zero_mul, Nat.floor_zero]
    rw [curve_of_length_one hne hone, hlower, hfloor, index_sorted hne hlen]
    rfl
  · have hmany : 1 < xs.length := by
      by_contra hn
      have hone : xs.length = 1 := by omega
      refine heq ?_
      rw [upperIndex, hlower, hone, rank, Nat.cast_one, sub_self, zero_mul, Nat.floor_zero]
      rfl
    have hbound := floor_rank_lt hmany hp0 hp
    rw [curve_of_mem hne hp0 hp.le rfl, hlower, upperIndex_eq hmany hp0 hp,
      index_sorted hne (by omega), index_sorted hne hbound]
    rfl

lemma curve_mono (hne : xs ≠ []) : Monotone (curve xs hne) := by
  intro p q hpq
  have hlen := List.length_pos_iff.mpr hne
  exact interpolate_mono (entry_mono xs hne) (rank_nonneg hlen (clamp_nonneg p))
    (rank_mono hlen (clamp_mono hpq))

lemma curve_le_of_forall₂ {hne : xs ≠ []} {hne' : ys ≠ []} (h : List.Forall₂ (· ≤ ·) xs ys)
    (p : ℚ) : curve xs hne p ≤ curve ys hne' p := by
  have hrank := rank_nonneg (List.length_pos_iff.mpr hne) (clamp_nonneg p)
  rw [curve, curve, ← h.length_eq]
  exact interpolate_le_of_le (entry_le_of_forall₂ h) hrank

lemma min_le_curve (hne : xs ≠ []) (p : ℚ) : xs.min hne ≤ curve xs hne p :=
  (List.min_le_of_mem (entry_mem xs hne _)).trans
    (floor_le_interpolate (entry_mono xs hne)
      (rank_nonneg (List.length_pos_iff.mpr hne) (clamp_nonneg p)))

lemma curve_le_max (hne : xs ≠ []) (p : ℚ) : curve xs hne p ≤ xs.max hne :=
  (interpolate_le_ceil (entry_mono xs hne) _).trans (List.le_max_of_mem (entry_mem xs hne _))

end Curve

/-! ## Percentiles as a reader takes them -/

def Returns (xs : List ℚ) (p v : ℚ) : Prop := percentile xs p = .ok (some v)

/-- What the report relies on, for every `p`. -/
structure Orderly (xs : List ℚ) (hne : xs ≠ []) : Prop where
  /-- No index leaves the list. -/
  returns : ∀ p, ∃ v, Returns xs p v
  /-- The computed indices are positions of the list, none counted from its end. -/
  indices : ∀ p, 0 < p → p < 100 → ∀ i ∈ [lowerIndex xs.length p, upperIndex xs.length p],
    0 ≤ i ∧ i < xs.length
  mono : ∀ p q u v, p ≤ q → Returns xs p u → Returns xs q v → u ≤ v
  between : ∀ p v, Returns xs p v → xs.min hne ≤ v ∧ v ≤ xs.max hne
  perm : ∀ ys p, ys.Perm xs → percentile ys p = percentile xs p
  /-- Raising elements never lowers a percentile. -/
  raise : ∀ ys p u v, List.Forall₂ (· ≤ ·) xs ys → Returns xs p u → Returns ys p v → u ≤ v

section Orderly

variable {xs ys : List ℚ} {p v : ℚ}

lemma returns_iff (hne : xs ≠ []) : Returns xs p v ↔ curve xs hne p = v := by
  rw [Returns, percentile_eq hne, Except.ok.injEq, Option.some.injEq]

lemma indices_mem_range (hne : xs ≠ []) (h0 : 0 < p) (h100 : p < 100) {i : ℤ}
    (hi : i ∈ [lowerIndex xs.length p, upperIndex xs.length p]) : 0 ≤ i ∧ i < xs.length := by
  have hlen := List.length_pos_iff.mpr hne
  have hlower := lowerIndex_eq hlen h0.le
  have hbound : ⌊rank xs.length p⌋₊ < xs.length := by
    rcases Nat.lt_or_ge 1 xs.length with hmany | hone
    · exact (Nat.lt_succ_self _).trans (floor_rank_lt hmany h0.le h100)
    · have hrank : rank xs.length p = 0 := by
        rw [show xs.length = 1 by omega, rank, Nat.cast_one, sub_self, zero_mul]
      rwa [hrank, Nat.floor_zero]
  simp only [List.mem_cons, List.not_mem_nil, or_false, upperIndex] at hi
  omega

lemma percentile_of_perm (h : ys.Perm xs) (p : ℚ) : percentile ys p = percentile xs p := by
  have hsorted : sorted ys = sorted xs := insertionSort_eq_of_perm h
  simp only [percentile, h.isEmpty_eq, hsorted]

/-- **The percentiles of a nonempty list are in order.** They grow with `p` and with the
elements, stay between the smallest and the largest of these, and do not depend on how
the list is arranged. -/
theorem percentile_orderly (hne : xs ≠ []) : Orderly xs hne where
  returns p := ⟨curve xs hne p, percentile_eq hne p⟩
  indices _ h0 h100 _ hi := indices_mem_range hne h0 h100 hi
  mono p q u v hpq hu hv := by
    rw [returns_iff hne] at hu hv
    rw [← hu, ← hv]
    exact curve_mono hne hpq
  between p v hv := by
    rw [returns_iff hne] at hv
    rw [← hv]
    exact ⟨min_le_curve hne p, curve_le_max hne p⟩
  perm _ p h := percentile_of_perm h p
  raise ys p u v h hu hv := by
    have hne' : ys ≠ [] := by
      rw [← List.length_pos_iff, ← h.length_eq]
      exact List.length_pos_iff.mpr hne
    rw [returns_iff hne] at hu
    rw [returns_iff hne'] at hv
    rw [← hu, ← hv]
    exact curve_le_of_forall₂ h p

theorem percentile_orderly_three : Orderly [30, 10, 20] (by decide) :=
  percentile_orderly (by decide)

end Orderly

end QuicKeys.Scripts
