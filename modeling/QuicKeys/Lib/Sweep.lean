import Mathlib.Data.List.Basic
import Mathlib.Logic.Function.Basic

/-!
# Sweeps over a table

The loop `for (auto k : keys) { auto& entry = table[k]; ... }`, whose body rewrites the
entry of the key it visits and writes output lines. Over distinct keys every entry is
visited with its old value, so the result is read off entry by entry.
-/

namespace Sweep

variable {κ β ω : Type*} [DecidableEq κ]

/-- One iteration: rewrite the entry of `k` and append the lines written for it. -/
def visit (g : κ → β → β) (out : κ → β → List ω) (acc : (κ → β) × List ω) (k : κ) :
    (κ → β) × List ω :=
  (Function.update acc.1 k (g k (acc.1 k)), acc.2 ++ out k (acc.1 k))

/-- The whole loop. -/
def sweep (g : κ → β → β) (out : κ → β → List ω) (keys : List κ) (acc : (κ → β) × List ω) :
    (κ → β) × List ω :=
  keys.foldl (visit g out) acc

variable {g : κ → β → β} {out : κ → β → List ω}

@[simp] lemma sweep_nil (acc : (κ → β) × List ω) : sweep g out [] acc = acc := rfl

lemma sweep_cons (k : κ) (keys : List κ) (acc : (κ → β) × List ω) :
    sweep g out (k :: keys) acc = sweep g out keys (visit g out acc k) := rfl

/-- An entry is rewritten once if its key is swept, and not at all otherwise. -/
lemma sweep_fst_apply {keys : List κ} (hk : keys.Nodup) (acc : (κ → β) × List ω) (k : κ) :
    (sweep g out keys acc).1 k = if k ∈ keys then g k (acc.1 k) else acc.1 k := by
  induction keys generalizing acc with
  | nil => simp
  | cons a keys ih =>
    rcases List.nodup_cons.mp hk with ⟨ha, hk'⟩
    rw [sweep_cons, ih hk']
    by_cases hka : k = a
    · subst hka
      simp [visit, ha]
    · simp [visit, hka]

/-- A line of the output was written for some key, from the entry it had before the loop. -/
lemma mem_sweep_snd {keys : List κ} (hk : keys.Nodup) (acc : (κ → β) × List ω) (x : ω) :
    x ∈ (sweep g out keys acc).2 ↔ x ∈ acc.2 ∨ ∃ k ∈ keys, x ∈ out k (acc.1 k) := by
  induction keys generalizing acc with
  | nil => simp
  | cons a keys ih =>
    rcases List.nodup_cons.mp hk with ⟨ha, hk'⟩
    -- the rest of the loop reads entries the head has not touched
    have hrest : (∃ k ∈ keys, x ∈ out k ((visit g out acc a).1 k))
        ↔ ∃ k ∈ keys, x ∈ out k (acc.1 k) := by
      refine exists_congr fun k => and_congr_right fun hka => ?_
      have hold : (visit g out acc a).1 k = acc.1 k :=
        Function.update_of_ne (ne_of_mem_of_not_mem hka ha) _ _
      rw [hold]
    rw [sweep_cons, ih hk', hrest, visit, List.mem_append, or_assoc]
    simp only [List.mem_cons, exists_eq_or_imp]

/-- The output is what is written for each key, from the entry it had before the loop. -/
lemma sweep_snd {keys : List κ} (hk : keys.Nodup) (acc : (κ → β) × List ω) :
    (sweep g out keys acc).2 = acc.2 ++ keys.flatMap fun k => out k (acc.1 k) := by
  induction keys generalizing acc with
  | nil => exact (List.append_nil _).symm
  | cons a keys ih =>
    rcases List.nodup_cons.mp hk with ⟨ha, hk'⟩
    have hrest : (keys.flatMap fun k => out k ((visit g out acc a).1 k))
        = keys.flatMap fun k => out k (acc.1 k) := by
      refine List.flatMap_congr fun k hka => ?_
      have hold : (visit g out acc a).1 k = acc.1 k :=
        Function.update_of_ne (ne_of_mem_of_not_mem hka ha) _ _
      rw [hold]
    rw [sweep_cons, ih hk', hrest, visit, List.flatMap_cons, List.append_assoc]

/-- Where only the output for `k` counts, it counts once if `k` is swept. -/
lemma countP_flatMap {keys : List κ} (hk : keys.Nodup) {f : κ → List ω} {p : ω → Bool} {k : κ}
    (hp : ∀ j ≠ k, ∀ x ∈ f j, p x = false) :
    (keys.flatMap f).countP p = if k ∈ keys then (f k).countP p else 0 := by
  have hnone (j : κ) (hj : j ≠ k) : (f j).countP p = 0 := by
    rw [List.countP_eq_zero]
    intro x hx
    rw [hp j hj x hx]
    exact Bool.false_ne_true
  induction keys with
  | nil => rfl
  | cons a keys ih =>
    rcases List.nodup_cons.mp hk with ⟨ha, hk'⟩
    rw [List.flatMap_cons, List.countP_append, ih hk']
    by_cases hka : a = k
    · subst hka
      rw [if_neg ha, if_pos List.mem_cons_self, Nat.add_zero]
    · rw [hnone a hka, Nat.zero_add]
      simp [Ne.symm hka]

end Sweep
