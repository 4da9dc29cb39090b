import Mathlib.Data.List.Basic
import Mathlib.Data.List.Perm.Basic
import Mathlib.Data.List.Nodup

/-!
# Unordered sets with a visible iteration order

A hash set is used through three operations (insert, erase, iterate), and what its
documentation leaves open is only where an insertion lands in the iteration order. The
set is therefore kept as the list an iteration would visit, and the open choice is a
parameter of `insert` (`IterOrder`): a rehash may permute everything, but it neither loses
nor duplicates an element. Erasing keeps the order of the elements that stay.
-/

/-- Where a new element lands in the iteration order. `place a l` is what an iteration
visits after `a` was inserted into a set that was visited as `l`. -/
structure IterOrder (α : Type*) where
  place : α → List α → List α
  perm : ∀ a l, (place a l).Perm (a :: l)

/-- The order of a table that puts a new node first. -/
def IterOrder.front (α : Type*) : IterOrder α where
  place a l := a :: l
  perm _ _ := List.Perm.refl _

/-- The order of a table that puts a new node last. -/
def IterOrder.back (α : Type*) : IterOrder α where
  place a l := l ++ [a]
  perm a l := List.perm_append_singleton a l

/-- A set, as the duplicate-free list in which it is iterated. -/
structure UnorderedSet (α : Type*) where
  toList : List α
  nodup : toList.Nodup

attribute [ext] UnorderedSet

namespace UnorderedSet

variable {α : Type*}

instance : EmptyCollection (UnorderedSet α) := ⟨⟨[], List.nodup_nil⟩⟩

instance : Membership α (UnorderedSet α) := ⟨fun s a => a ∈ s.toList⟩

instance [DecidableEq α] (a : α) (s : UnorderedSet α) : Decidable (a ∈ s) :=
  inferInstanceAs (Decidable (a ∈ s.toList))

@[simp] lemma mem_toList {a : α} {s : UnorderedSet α} : a ∈ s.toList ↔ a ∈ s := Iff.rfl

@[simp] lemma not_mem_empty (a : α) : a ∉ (∅ : UnorderedSet α) := List.not_mem_nil

variable [DecidableEq α]

/-- Insert `a`; a set that already has it stays as it is. -/
def insert (ord : IterOrder α) (a : α) (s : UnorderedSet α) : UnorderedSet α :=
  if h : a ∈ s.toList then s
  else
    { toList := ord.place a s.toList
      nodup := (ord.perm a s.toList).nodup_iff.mpr (List.nodup_cons.mpr ⟨h, s.nodup⟩) }

/-- Erase `a`, keeping the order of the others. -/
def erase (a : α) (s : UnorderedSet α) : UnorderedSet α where
  toList := s.toList.erase a
  nodup := s.nodup.erase a

@[simp] lemma mem_insert {ord : IterOrder α} {a b : α} {s : UnorderedSet α} :
    b ∈ s.insert ord a ↔ b = a ∨ b ∈ s := by
  unfold insert
  split
  · rename_i h
    constructor
    · exact Or.inr
    · intro hb
      rcases hb with rfl | hb
      · exact h
      · exact hb
  · show b ∈ ord.place a s.toList ↔ _
    rw [(ord.perm a s.toList).mem_iff, List.mem_cons, mem_toList]

@[simp] lemma mem_erase {a b : α} {s : UnorderedSet α} :
    b ∈ s.erase a ↔ b ≠ a ∧ b ∈ s :=
  s.nodup.mem_erase_iff

/-- Inserting an element of the set changes nothing. -/
lemma insert_of_mem {ord : IterOrder α} {a : α} {s : UnorderedSet α} (h : a ∈ s) :
    s.insert ord a = s := dif_pos h

omit [DecidableEq α] in
/-- Who is among the first `n` and stays is among the first `n` of those that stay. -/
lemma mem_take_of_sublist {l l' : List α} (h : l'.Sublist l) (hnd : l.Nodup) {n : ℕ} {a : α}
    (ha : a ∈ l.take n) (ha' : a ∈ l') : a ∈ l'.take n := by
  induction h generalizing n with
  | slnil => exact absurd ha' List.not_mem_nil
  | cons b hsub ih =>
    rcases List.nodup_cons.mp hnd with ⟨hb, hnd'⟩
    cases n with
    | zero => exact absurd ha List.not_mem_nil
    | succ n =>
      rcases List.mem_cons.mp ha with rfl | ha
      · exact absurd (hsub.subset ha') hb
      · exact (List.take_sublist_take_left (Nat.le_succ n)).subset (ih hnd' ha ha')
  | cons_cons b hsub ih =>
    rcases List.nodup_cons.mp hnd with ⟨hb, hnd'⟩
    cases n with
    | zero => exact absurd ha List.not_mem_nil
    | succ n =>
      rw [List.take_succ_cons, List.mem_cons]
      rcases List.mem_cons.mp ha with rfl | ha
      · exact Or.inl rfl
      · rcases List.mem_cons.mp ha' with rfl | ha'
        · exact Or.inl rfl
        · exact Or.inr (ih hnd' ha ha')

omit [DecidableEq α] in
/-- A set that keeps the order of another one is cut out of it by its members. -/
lemma toList_eq_filter {s t : UnorderedSet α} {p : α → Bool} (hsub : t.toList.Sublist s.toList)
    (hmem : ∀ a, a ∈ t ↔ a ∈ s ∧ p a = true) : t.toList = s.toList.filter p := by
  have hsub' : t.toList.Sublist (s.toList.filter p) := by
    have hall : t.toList.filter p = t.toList :=
      List.filter_eq_self.mpr fun a ha => ((hmem a).mp ha).2
    rw [← hall]
    exact hsub.filter p
  have hperm : t.toList.Perm (s.toList.filter p) := by
    rw [List.perm_ext_iff_of_nodup t.nodup (s.nodup.filter p)]
    intro a
    rw [List.mem_filter]
    exact hmem a
  exact hsub'.eq_of_length hperm.length_eq

omit [DecidableEq α] in
/-- **Membership after a loop of insertions.** If each round of a loop adds exactly the
elements that satisfy `P`, the loop adds exactly those that satisfy it in some round. -/
theorem mem_foldl {ι : Type*} {step : UnorderedSet α → ι → UnorderedSet α}
    {P : ι → α → Prop} (hstep : ∀ s i a, a ∈ step s i ↔ a ∈ s ∨ P i a) (is : List ι)
    (s : UnorderedSet α) (a : α) : a ∈ is.foldl step s ↔ a ∈ s ∨ ∃ i ∈ is, P i a := by
  induction is generalizing s with
  | nil => simp
  | cons i is ih =>
    rw [List.foldl_cons, ih, hstep, or_assoc]
    simp only [List.mem_cons, exists_eq_or_imp]

end UnorderedSet
