import Mathlib.Order.Basic
import Mathlib.Data.List.Induction
import Mathlib.Data.List.Pairwise

/-!
# Time stamps that some of the events set

A field of the state that an event either sets to its own reading of the clock or leaves
alone. With a clock that does not run backwards, the field holds the reading of the last
event that set it, which is the latest of all of them.
-/

namespace Stamps

variable {σ ε τ : Type*} {step : σ → ε → σ} {now : ε → τ} {stamp : σ → τ} {sets : ε → Prop}

/-- The events that meet `sets` set the stamp, and no others touch it. -/
structure Keeps (step : σ → ε → σ) (now : ε → τ) (stamp : σ → τ) (sets : ε → Prop) : Prop where
  set : ∀ s e, sets e → stamp (step s e) = now e
  keep : ∀ s e, ¬sets e → stamp (step s e) = stamp s

variable {s : σ} {es : List ε}

/-- Without an event that sets it, the stamp is what it was. -/
lemma Keeps.foldl_eq (h : Keeps step now stamp sets) (hes : ∀ e ∈ es, ¬sets e) :
    stamp (es.foldl step s) = stamp s := by
  induction es generalizing s with
  | nil => rfl
  | cons e es ih =>
    rw [List.foldl_cons, ih fun d hd => hes d (List.mem_cons_of_mem _ hd)]
    exact h.keep s e (hes e List.mem_cons_self)

/-- The stamp is the old one, or the clock reading of some event that set it. -/
lemma Keeps.source (h : Keeps step now stamp sets) (s : σ) (es : List ε) :
    stamp (es.foldl step s) = stamp s ∨ ∃ e ∈ es, sets e ∧ now e = stamp (es.foldl step s) := by
  induction es using List.reverseRecOn with
  | nil => exact Or.inl rfl
  | append_singleton es e ih =>
    rw [List.foldl_append]
    by_cases he : sets e
    · exact Or.inr ⟨e, by simp, he, (h.set _ e he).symm⟩
    · rw [List.foldl_cons, List.foldl_nil, h.keep _ e he]
      exact ih.imp_right fun ⟨d, hd, hset⟩ => ⟨d, List.mem_append_left _ hd, hset⟩

/-- **The stamp is the latest**: no event that set it has a later reading. -/
theorem Keeps.latest [Preorder τ] (h : Keeps step now stamp sets)
    (hclock : es.Pairwise fun d e => now d ≤ now e) {d : ε} (hd : d ∈ es) (hset : sets d) :
    now d ≤ stamp (es.foldl step s) := by
  induction es using List.reverseRecOn with
  | nil => exact absurd hd List.not_mem_nil
  | append_singleton es e ih =>
    rcases List.pairwise_append.mp hclock with ⟨hes, -, hlast⟩
    rw [List.foldl_append, List.foldl_cons, List.foldl_nil]
    by_cases he : sets e
    · rw [h.set _ e he]
      rcases List.mem_append.mp hd with hd | hd
      · exact hlast d hd e List.mem_cons_self
      · rw [List.mem_singleton.mp hd]
    · rw [h.keep _ e he]
      rcases List.mem_append.mp hd with hd | hd
      · exact ih hes hd
      · rw [List.mem_singleton.mp hd] at hset
        exact absurd hset he

/-- The stamp is no later than any bound on the clock. -/
lemma Keeps.le_of_forall [Preorder τ] (h : Keeps step now stamp sets) {n : τ}
    (hs : stamp s ≤ n) (hes : ∀ e ∈ es, now e ≤ n) :
    stamp (es.foldl step s) ≤ n := by
  rcases h.source s es with hold | ⟨e, he, -, hnow⟩
  · rwa [hold]
  · rw [← hnow]
    exact hes e he

end Stamps
