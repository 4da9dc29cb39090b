import Mathlib.Data.List.Basic
import Mathlib.Data.List.Induction
import Mathlib.Order.Monotone.Basic

/-!
# Cutting a stream into fixed-size blocks

A receiver that collects bytes and hands on every `r` of them cuts its stream into the
consecutive blocks of length `r` (`blocks`) and keeps a remainder shorter than `r`
(`rest`). How the stream was split into deliveries plays no part in either.
-/

namespace Blocks

variable {α : Type*} {r : ℕ}

/-- The complete blocks of length `r`, in order. -/
def blocks (r : ℕ) (l : List α) : List (List α) :=
  (List.range (l.length / r)).map fun k => (l.drop (r * k)).take r

/-- What is left behind the last complete block. -/
def rest (r : ℕ) (l : List α) : List α := l.drop (r * (l.length / r))

@[simp] lemma length_blocks (l : List α) : (blocks r l).length = l.length / r := by
  simp [blocks]

lemma getElem_blocks (l : List α) (k : ℕ) (hk : k < (blocks r l).length) :
    (blocks r l)[k] = (l.drop (r * k)).take r := by
  simp [blocks]

lemma blocks_of_length_lt {l : List α} (h : l.length < r) : blocks r l = [] := by
  simp [blocks, Nat.div_eq_of_lt h]

lemma rest_of_length_lt {l : List α} (h : l.length < r) : rest r l = l := by
  simp [rest, Nat.div_eq_of_lt h]

lemma length_rest (l : List α) : (rest r l).length = l.length % r := by
  rw [rest, List.length_drop]
  have := Nat.div_add_mod l.length r
  omega

lemma length_rest_lt (hr : 0 < r) (l : List α) : (rest r l).length < r := by
  rw [length_rest]
  exact Nat.mod_lt _ hr

section Append

variable {b : List α} (hr : 0 < r) (hb : b.length = r)

include hr hb

/-- A leading block is the first block. -/
lemma blocks_append (l : List α) : blocks r (b ++ l) = b :: blocks r l := by
  have hlen : (b ++ l).length / r = l.length / r + 1 := by
    rw [List.length_append, hb, Nat.add_comm, Nat.add_div_right _ hr]
  rw [blocks, hlen, List.range_succ_eq_map, List.map_cons, List.map_map, blocks]
  congr 1
  · rw [Nat.mul_zero, List.drop_zero, ← hb, List.take_left]
  · refine List.map_congr_left fun k _ => ?_
    have : (b ++ l).drop (r * (k + 1)) = l.drop (r * k) := by
      rw [List.drop_append, Nat.mul_succ, hb, Nat.add_sub_cancel,
        List.drop_eq_nil_of_le (by omega), List.nil_append]
    simp only [Function.comp, Nat.succ_eq_add_one, this]

/-- A leading block does not change the remainder. -/
lemma rest_append (l : List α) : rest r (b ++ l) = rest r l := by
  have hlen : (b ++ l).length / r = l.length / r + 1 := by
    rw [List.length_append, hb, Nat.add_comm, Nat.add_div_right _ hr]
  rw [rest, hlen, rest, List.drop_append, Nat.mul_succ, hb, Nat.add_sub_cancel,
    List.drop_eq_nil_of_le (by omega), List.nil_append]

end Append

/-- Leading blocks come off one by one. -/
lemma blocks_flatten (hr : 0 < r) {bs : List (List α)} (hbs : ∀ b ∈ bs, b.length = r)
    (t : List α) :
    blocks r (bs.flatten ++ t) = bs ++ blocks r t ∧ rest r (bs.flatten ++ t) = rest r t := by
  induction bs with
  | nil => exact ⟨rfl, rfl⟩
  | cons b bs ih =>
    have hb := hbs b List.mem_cons_self
    have ih' := ih fun b' hb' => hbs b' (List.mem_cons_of_mem _ hb')
    rw [List.flatten_cons, List.append_assoc, blocks_append hr hb, rest_append hr hb]
    exact ⟨congrArg (b :: ·) ih'.1, ih'.2⟩

/-- **Uniqueness.** Any way of writing a stream as blocks and a short remainder is the one
`blocks` and `rest` compute. -/
theorem blocks_flatten_append (hr : 0 < r) {bs : List (List α)} {t : List α}
    (hbs : ∀ b ∈ bs, b.length = r) (ht : t.length < r) :
    blocks r (bs.flatten ++ t) = bs ∧ rest r (bs.flatten ++ t) = t := by
  have h := blocks_flatten hr hbs t
  rwa [blocks_of_length_lt ht, rest_of_length_lt ht, List.append_nil] at h

/-- Every block of a stream has length `r`. -/
lemma length_of_mem_blocks {l b : List α} (hb : b ∈ blocks r l) : b.length = r := by
  rcases List.mem_map.mp hb with ⟨k, hk, rfl⟩
  have hk' : k < l.length / r := List.mem_range.mp hk
  have h1 : r * (k + 1) ≤ r * (l.length / r) := Nat.mul_le_mul_left r hk'
  have h2 := Nat.mul_div_le l.length r
  rw [Nat.mul_succ] at h1
  rw [List.length_take, List.length_drop]
  omega

/-- **Existence.** The blocks and the remainder make up the stream. -/
theorem flatten_blocks_append_rest (hr : 0 < r) (l : List α) :
    (blocks r l).flatten ++ rest r l = l := by
  induction hn : l.length using Nat.strongRecOn generalizing l with
  | ind n ih =>
    by_cases h : l.length < r
    · rw [blocks_of_length_lt h, rest_of_length_lt h, List.flatten_nil, List.nil_append]
    · have hb : (l.take r).length = r := by rw [List.length_take]; omega
      have hd : (l.drop r).length < n := by rw [List.length_drop]; omega
      conv_lhs => rw [← List.take_append_drop r l]
      rw [blocks_append hr hb, rest_append hr hb, List.flatten_cons, List.append_assoc,
        ih _ hd _ rfl, List.take_append_drop]

/-- The blocks of the beginning of a stream of blocks. -/
lemma blocks_take_flatten (hr : 0 < r) {bs : List (List α)} (hbs : ∀ b ∈ bs, b.length = r)
    (d : ℕ) : blocks r (bs.flatten.take d) = bs.take (d / r) := by
  induction bs generalizing d with
  | nil => rw [List.flatten_nil, List.take_nil, List.take_nil, blocks_of_length_lt hr]
  | cons b bs ih =>
    have hb := hbs b List.mem_cons_self
    have ih' := ih fun b' hb' => hbs b' (List.mem_cons_of_mem _ hb')
    rw [List.flatten_cons]
    rcases Nat.lt_or_ge d r with hd | hd
    · rw [Nat.div_eq_of_lt hd, List.take_zero, blocks_of_length_lt]
      exact (List.length_take_le _ _).trans_lt hd
    · rw [List.take_append, hb, List.take_of_length_le (hb.trans_le hd), blocks_append hr hb,
        ih', Nat.div_eq_sub_div hr hd, List.take_succ_cons]

/-- **Carry-over.** To go on with a stream, the remainder is all that has to be kept. -/
theorem blocks_append_rest (hr : 0 < r) (l l' : List α) :
    blocks r (l ++ l') = blocks r l ++ blocks r (rest r l ++ l')
      ∧ rest r (l ++ l') = rest r (rest r l ++ l') := by
  have hsplit : l ++ l' = (blocks r l).flatten ++ (rest r l ++ l') := by
    rw [← List.append_assoc, flatten_blocks_append_rest hr]
  rw [hsplit]
  exact blocks_flatten hr (fun b hb => length_of_mem_blocks hb) _

/-- One more element completes a block or lengthens the remainder. -/
theorem blocks_concat (hr : 0 < r) (l : List α) (a : α) :
    if (rest r l).length + 1 = r then
      blocks r (l ++ [a]) = blocks r l ++ [rest r l ++ [a]] ∧ rest r (l ++ [a]) = []
    else blocks r (l ++ [a]) = blocks r l ∧ rest r (l ++ [a]) = rest r l ++ [a] := by
  have hlt := length_rest_lt hr l
  have hdec := flatten_blocks_append_rest hr l
  have hmem : ∀ b ∈ blocks r l, b.length = r := fun b hb => length_of_mem_blocks hb
  split
  · rename_i h
    have hsplit : l ++ [a] = (blocks r l ++ [rest r l ++ [a]]).flatten ++ [] := by
      conv_lhs => rw [← hdec]
      simp
    rw [hsplit]
    refine blocks_flatten_append hr (fun b hb => ?_) (by simpa using hr)
    rcases List.mem_append.mp hb with hb | hb
    · exact hmem b hb
    · rw [List.mem_singleton.mp hb, List.length_append, List.length_singleton, h]
  · rename_i h
    have hsplit : l ++ [a] = (blocks r l).flatten ++ (rest r l ++ [a]) := by
      conv_lhs => rw [← hdec]
      simp
    rw [hsplit]
    exact blocks_flatten_append hr hmem (by rw [List.length_append, List.length_singleton]; omega)

/-! ## Streams of pieces

A sender writes pieces of any positive length one behind the other. Block `k` of the stream
is one of the pieces if some piece of length `r` starts at `r * k`.
-/

/-- Where piece `i` starts in the stream. -/
def offset (ps : List (List α)) (i : ℕ) : ℕ := (ps.take i).flatten.length

/-- Block `k` of the stream is one whole piece. -/
def IsPiece (r : ℕ) (ps : List (List α)) (k : ℕ) : Prop :=
  ∃ i, ∃ hi : i < ps.length, offset ps i = r * k ∧ ps[i].length = r

/-- The number of pieces of length `r` in front of the first one that has another length. -/
def leading (r : ℕ) (ps : List (List α)) : ℕ := ps.findIdx fun p => p.length != r

lemma offset_succ {ps : List (List α)} {i : ℕ} (hi : i < ps.length) :
    offset ps (i + 1) = offset ps i + ps[i].length := by
  rw [offset, offset, List.take_succ_eq_append_getElem hi, List.flatten_append,
    List.length_append, List.flatten_singleton]

lemma offset_mono (ps : List (List α)) : Monotone (offset ps) := by
  refine monotone_nat_of_le_succ fun i => ?_
  by_cases hi : i < ps.length
  · rw [offset_succ hi]
    exact Nat.le_add_right _ _
  · rw [offset, offset, List.take_of_length_le (by omega), List.take_of_length_le (by omega)]

lemma offset_lt {ps : List (List α)} (hps : ∀ p ∈ ps, 0 < p.length) {i j : ℕ}
    (hi : i < ps.length) (hij : i < j) : offset ps i < offset ps j := by
  have hpos := hps _ (List.getElem_mem hi)
  have hle : offset ps (i + 1) ≤ offset ps j := offset_mono ps hij
  rw [offset_succ hi] at hle
  omega

/-- No two pieces start at the same place. -/
lemma offset_inj {ps : List (List α)} (hps : ∀ p ∈ ps, 0 < p.length) {i j : ℕ}
    (hi : i < ps.length) (hj : j < ps.length) (h : offset ps i = offset ps j) : i = j := by
  rcases Nat.lt_trichotomy i j with hij | hij | hij
  · have := offset_lt hps hi hij
    omega
  · exact hij
  · have := offset_lt hps hj hij
    omega

lemma leading_le (ps : List (List α)) : leading r ps ≤ ps.length := List.findIdx_le_length

lemma length_of_lt_leading {ps : List (List α)} {i : ℕ} (hi : i < ps.length)
    (hlead : i < leading r ps) : ps[i].length = r := by
  simpa using List.not_of_lt_findIdx hlead

lemma length_ne_of_leading {ps : List (List α)} (h : leading r ps < ps.length) :
    ps[leading r ps].length ≠ r := by
  have hp := List.findIdx_getElem (w := h)
  exact bne_iff_ne.mp hp

lemma offset_of_le_leading {ps : List (List α)} {i : ℕ} (hi : i ≤ leading r ps) :
    offset ps i = r * i := by
  induction i with
  | zero => rfl
  | succ i ih =>
    have hlt := Nat.lt_of_lt_of_le hi (leading_le ps)
    rw [offset_succ hlt, ih (by omega), length_of_lt_leading hlt hi, Nat.mul_succ]

/-- The block that is a piece holds that piece. -/
lemma take_drop_of_offset_eq {ps : List (List α)} {i k : ℕ} (hi : i < ps.length)
    (hoff : offset ps i = r * k) (hlen : ps[i].length = r) :
    (ps.flatten.drop (r * k)).take r = ps[i] := by
  have hsplit : ps.flatten = (ps.take i).flatten ++ (ps[i] ++ (ps.drop (i + 1)).flatten) := by
    rw [← List.flatten_cons, ← List.drop_eq_getElem_cons hi, ← List.flatten_append,
      List.take_append_drop]
  rw [← hoff, offset, hsplit, List.drop_left, ← hlen, List.take_left]

/-- **Exactly a piece of another length breaks the framing**: the first `d` bytes of the
stream are cut into whole pieces iff they hold no block beyond the leading ones. -/
theorem forall_isPiece_iff (hr : 0 < r) {ps : List (List α)} (hps : ∀ p ∈ ps, 0 < p.length)
    (d : ℕ) : (∀ k < d / r, IsPiece r ps k) ↔ d < r * leading r ps + r := by
  have hdiv : d < r * leading r ps + r ↔ d / r ≤ leading r ps := by
    rw [← Nat.mul_succ, ← Nat.lt_succ_iff, Nat.div_lt_iff_lt_mul hr, Nat.mul_comm]
  rw [hdiv]
  constructor
  · intro h
    by_contra hlong
    rcases h _ (Nat.lt_of_not_le hlong) with ⟨i, hi, hoff, hlen⟩
    -- the first piece of another length starts where the next block should
    rw [← offset_of_le_leading (Nat.le_refl _)] at hoff
    have hm : leading r ps < ps.length := by
      by_contra hge
      have hlt := offset_lt hps hi (j := leading r ps) (by omega)
      omega
    obtain rfl := offset_inj hps hi hm hoff
    exact length_ne_of_leading hm hlen
  · intro h k hk
    have hk' : k < leading r ps := Nat.lt_of_lt_of_le hk h
    have hlt := Nat.lt_of_lt_of_le hk' (leading_le ps)
    exact ⟨k, hlt, offset_of_le_leading (Nat.le_of_lt hk'), length_of_lt_leading hlt hk'⟩

end Blocks
