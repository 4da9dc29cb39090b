import Mathlib.Data.List.Basic
import Mathlib.Logic.Function.Basic

/-!
# Actions on one component of a family

Every action has a key and rewrites the component of that key. So a component ends up as
the actions of its own key leave it (`foldl_step_apply`): actions on different keys commute,
and only the order within each key matters. If an action done twice is the action done once,
immediate repetitions do not matter either.
-/

namespace Keyed

variable {κ α β : Type*} [DecidableEq κ] {key : α → κ} {act : α → β → β}

/-- One action. -/
def step (key : α → κ) (act : α → β → β) (f : κ → β) (a : α) : κ → β :=
  Function.update f (key a) (act a (f (key a)))

/-- The component of each key after one action. -/
lemma step_apply (f : κ → β) (a : α) (k : κ) :
    step key act f a k = if key a = k then act a (f k) else f k := by
  rw [step, Function.update_apply]
  by_cases h : k = key a
  · rw [if_pos h, if_pos h.symm, h]
  · rw [if_neg h, if_neg (Ne.symm h)]

/-- **A component sees the actions of its key only.** -/
theorem foldl_step_apply (l : List α) (f : κ → β) (k : κ) :
    l.foldl (step key act) f k
      = (l.filter fun a => key a = k).foldl (fun b a => act a b) (f k) := by
  induction l generalizing f with
  | nil => rfl
  | cons a l ih =>
    rw [List.foldl_cons, ih, step_apply]
    by_cases h : key a = k
    · rw [if_pos h, List.filter_cons_of_pos (by simpa using h), List.foldl_cons]
    · rw [if_neg h, List.filter_cons_of_neg (by simpa using h)]

/-! ## Rearrangements -/

/-- A permutation that keeps the order of the actions of each key. -/
structure SameOrder (key : α → κ) (l l' : List α) : Prop where
  perm : l.Perm l'
  filter_eq : ∀ k, (l.filter fun a => key a = k) = l'.filter fun a => key a = k

/-- `l'` is `l` with actions repeated immediately after themselves. -/
inductive Stutters : List α → List α → Prop
  | nil : Stutters [] []
  | cons (a : α) (n : ℕ) {l l' : List α} (tail : Stutters l l') :
    Stutters (a :: l) (List.replicate (n + 1) a ++ l')

/-- Permuted and repeated any number of times, in any order. -/
inductive Rearranged (key : α → κ) (l : List α) : List α → Prop
  | refl : Rearranged key l l
  | reorder {mid l' : List α} (before : Rearranged key l mid) (order : SameOrder key mid l') :
    Rearranged key l l'
  | stutter {mid l' : List α} (before : Rearranged key l mid) (repeats : Stutters mid l') :
    Rearranged key l l'

lemma Stutters.eq_nil_iff {l l' : List α} (h : Stutters l l') : l = [] ↔ l' = [] := by
  cases h with
  | nil => exact Iff.rfl
  | cons a n tail => simp [List.replicate_succ]

lemma SameOrder.eq_nil_iff {l l' : List α} (h : SameOrder key l l') : l = [] ↔ l' = [] := by
  constructor
  · intro hnil
    subst hnil
    exact List.nil_perm.mp h.perm
  · intro hnil
    subst hnil
    exact List.perm_nil.mp h.perm

lemma Rearranged.eq_nil_iff {l l' : List α} (h : Rearranged key l l') : l = [] ↔ l' = [] := by
  induction h with
  | refl => exact Iff.rfl
  | reorder _ order ih => exact ih.trans order.eq_nil_iff
  | stutter _ repeats ih => exact ih.trans repeats.eq_nil_iff

/-- Actions on different keys commute. -/
theorem foldl_step_of_sameOrder {l l' : List α} (h : SameOrder key l l') (f : κ → β) :
    l.foldl (step key act) f = l'.foldl (step key act) f := by
  funext k
  rw [foldl_step_apply, foldl_step_apply, h.filter_eq]

section Idempotent

variable (hidem : ∀ a b, act a (act a b) = act a b)

include hidem

lemma step_step (f : κ → β) (a : α) :
    step key act (step key act f a) a = step key act f a := by
  funext k
  rw [step_apply]
  split
  · rename_i h
    rw [step_apply, if_pos h, hidem]
  · rfl

lemma foldl_replicate_succ (f : κ → β) (a : α) (n : ℕ) :
    (List.replicate (n + 1) a).foldl (step key act) f = step key act f a := by
  induction n with
  | zero => rfl
  | succ n ih => rw [List.replicate_succ', List.foldl_append, ih]; exact step_step hidem f a

/-- Immediate repetitions do not matter. -/
theorem foldl_step_of_stutters {l l' : List α} (h : Stutters l l') (f : κ → β) :
    l.foldl (step key act) f = l'.foldl (step key act) f := by
  induction h generalizing f with
  | nil => rfl
  | cons a n tail ih =>
    rw [List.foldl_cons, List.foldl_append, foldl_replicate_succ hidem, ih]

/-- **Rearrangements do not matter.** -/
theorem foldl_step_of_rearranged {l l' : List α} (h : Rearranged key l l') (f : κ → β) :
    l.foldl (step key act) f = l'.foldl (step key act) f := by
  induction h with
  | refl => rfl
  | reorder _ order ih => exact ih.trans (foldl_step_of_sameOrder order f)
  | stutter _ repeats ih => exact ih.trans (foldl_step_of_stutters hidem repeats f)

end Idempotent

end Keyed
