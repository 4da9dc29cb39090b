import Mathlib.Data.List.Basic
import Mathlib.Data.List.Induction

/-!
# Runs of a transition system

Two shapes of system are used: a total step function, whose run over a list of inputs is
`List.foldl`, and a step function that may be disabled (`Option`), whose runs are the
derivations of `Trace`. Both carry the list of inputs consumed so far, because an
invariant may speak about the history as well as about the state.
-/

namespace Runs

variable {σ ε : Type*}

/-! ## Histories -/

/-- **Exact condition rule.** If, where `I` holds, the next input keeps it exactly when
`Q` does, then `I` holds at every point of a history iff every input of it meets `Q`. -/
theorem forall_prefix_iff {I : List ε → Prop} {Q : List ε → ε → Prop} (h0 : I [])
    (hstep : ∀ es e, I es → (I (es ++ [e]) ↔ Q es e)) (es : List ε) :
    (∀ pre, pre <+: es → I pre) ↔ ∀ pre e post, es = pre ++ e :: post → Q pre e := by
  constructor
  · intro h pre e post heq
    subst heq
    have hpre : pre ++ [e] <+: pre ++ e :: post := ⟨post, by simp⟩
    exact (hstep pre e (h pre (List.prefix_append pre _))).mp (h _ hpre)
  · intro h pre hprefix
    rcases hprefix with ⟨rest, rfl⟩
    induction pre using List.reverseRecOn generalizing rest with
    | nil => exact h0
    | append_singleton pre e ih =>
      refine (hstep pre e (ih (e :: rest) fun pre' e' post hes => ?_)).mpr ?_
      · exact h pre' e' post (by rw [← hes]; simp)
      · exact h pre e rest (by simp)

/-! ## Total step functions -/

/-- Every input of the run meets `C` in the state in which it is consumed. -/
def Along (step : σ → ε → σ) (C : σ → ε → Prop) : σ → List ε → Prop
  | _, [] => True
  | s, e :: es => C s e ∧ Along step C (step s e) es

section Total

variable {step : σ → ε → σ} {C : σ → ε → Prop} {s : σ}

lemma along_append {es₁ es₂ : List ε} :
    Along step C s (es₁ ++ es₂)
      ↔ Along step C s es₁ ∧ Along step C (es₁.foldl step s) es₂ := by
  induction es₁ generalizing s with
  | nil => simp [Along]
  | cons e es₁ ih =>
    rw [List.cons_append, Along, Along, ih, List.foldl_cons, and_assoc]

lemma along_iff_forall_mem {D : ε → Prop} {es : List ε} :
    Along step (fun _ e => D e) s es ↔ ∀ e ∈ es, D e := by
  induction es generalizing s with
  | nil => simp [Along]
  | cons e es ih => simp [Along, ih]

/-- **Invariant rule.** What one step preserves under `C`, a run along `C` preserves. -/
theorem Along.invariant {I : σ → Prop} (hstep : ∀ s e, I s → C s e → I (step s e))
    (hs : I s) {es : List ε} (h : Along step C s es) : I (es.foldl step s) := by
  induction es generalizing s with
  | nil => exact hs
  | cons e es ih => exact ih (hstep s e hs h.1) h.2

/-- **Invariant rule**, for steps that preserve `I` unconditionally. -/
theorem foldl_invariant {I : σ → Prop} (hstep : ∀ s e, I s → I (step s e))
    (hs : I s) (es : List ε) : I (es.foldl step s) :=
  Along.invariant (C := fun _ _ => True) (fun s e h _ => hstep s e h) hs
    (along_iff_forall_mem.mpr fun _ _ => trivial)

/-- **Invariant rule with history.** The inputs consumed so far may occur in `I`. -/
theorem foldl_history {I : List ε → σ → Prop} (h0 : I [] s)
    (hstep : ∀ es e, I es (es.foldl step s) → I (es ++ [e]) (step (es.foldl step s) e))
    (es : List ε) : I es (es.foldl step s) := by
  induction es using List.reverseRecOn with
  | nil => exact h0
  | append_singleton es e ih =>
    rw [List.foldl_append]
    exact hstep es e ih

end Total

/-! ## Credit -/

/-- The sum of `f` over the steps of a run. -/
def total (step : σ → ε → σ) (f : σ → ε → ℕ) : σ → List ε → ℕ
  | _, [] => 0
  | s, e :: es => f s e + total step f (step s e) es

/-- **Credit rule.** If no step spends more than the credit it finds and earns, neither does
a run. -/
theorem total_le {step : σ → ε → σ} {spent earned : σ → ε → ℕ} (credit : σ → ℕ)
    (hstep : ∀ s e, spent s e + credit (step s e) ≤ earned s e + credit s) (s : σ) (es : List ε) :
    total step spent s es + credit (es.foldl step s) ≤ total step earned s es + credit s := by
  induction es generalizing s with
  | nil => exact Nat.le_refl _
  | cons e es ih =>
    have hhead := hstep s e
    have htail := ih (step s e)
    rw [total, total, List.foldl_cons]
    omega

/-- **Potential rule.** What grows by at most `f` in a step grows by at most the sum of `f` in a
run. -/
theorem le_total_add {step : σ → ε → σ} {f : σ → ε → ℕ} {φ : σ → ℕ} {I : σ → Prop}
    (hkeep : ∀ s e, I s → I (step s e)) (hstep : ∀ s e, I s → φ (step s e) ≤ f s e + φ s) {s : σ}
    (hs : I s) (es : List ε) : φ (es.foldl step s) ≤ total step f s es + φ s := by
  induction es generalizing s with
  | nil => exact Nat.le_add_left _ _
  | cons e es ih =>
    have hhead := hstep s e hs
    have htail := ih (hkeep s e hs)
    rw [total, List.foldl_cons]
    omega

/-! ## Since when a property holds -/

/-- `P` holds of every state from `s` on through the run. -/
def Throughout (step : σ → ε → σ) (P : σ → Prop) (s : σ) (es : List ε) : Prop :=
  ∀ pre, pre <+: es → P (pre.foldl step s)

section Throughout

variable {step : σ → ε → σ} {P : σ → Prop} {s : σ} {es : List ε}

lemma throughout_nil (h : P s) : Throughout step P s [] := by
  intro pre hpre
  rwa [List.prefix_nil.mp hpre]

lemma Throughout.last (h : Throughout step P s es) : P (es.foldl step s) := h es List.prefix_rfl

lemma Throughout.concat (h : Throughout step P s es) {e : ε}
    (he : P (step (es.foldl step s) e)) : Throughout step P s (es ++ [e]) := by
  intro pre hpre
  rcases List.prefix_concat_iff.mp hpre with rfl | hpre
  · rw [List.foldl_append]
    exact he
  · exact h pre hpre

/-- **A property that did not hold at first** was brought about by some step, and has held
ever since. -/
theorem exists_entry (h0 : ¬P s) (h : P (es.foldl step s)) :
    ∃ a x b, es = a ++ x :: b ∧ ¬P (a.foldl step s)
      ∧ Throughout step P (step (a.foldl step s) x) b := by
  induction es using List.reverseRecOn with
  | nil => exact absurd h h0
  | append_singleton es e ih =>
    rw [List.foldl_append] at h
    by_cases hes : P (es.foldl step s)
    · rcases ih hes with ⟨a, x, b, rfl, ha, hb⟩
      refine ⟨a, x, b ++ [e], by simp, ha, hb.concat ?_⟩
      rw [List.foldl_append] at h
      exact h
    · exact ⟨es, e, [], rfl, hes, throughout_nil h⟩

end Throughout

/-! ## Step functions that may be disabled -/

/-- `Trace step s₀ es s`: the inputs `es`, each enabled when it is consumed, lead from
`s₀` to `s`. -/
inductive Trace (step : σ → ε → Option σ) (s₀ : σ) : List ε → σ → Prop
  | nil : Trace step s₀ [] s₀
  | snoc {es : List ε} {s : σ} {e : ε} {s' : σ} (run : Trace step s₀ es s)
      (enabled : step s e = some s') : Trace step s₀ (es ++ [e]) s'

/-- Every input of the run meets `C`, given the inputs before it and the state they
lead to. -/
def Meets (step : σ → ε → Option σ) (s₀ : σ) (C : List ε → σ → ε → Prop)
    (es : List ε) : Prop :=
  ∀ pre e post s, es = pre ++ e :: post → Trace step s₀ pre s → C pre s e

section Partial

variable {step : σ → ε → Option σ} {s₀ : σ} {C : List ε → σ → ε → Prop}

lemma Meets.of_append {es es' : List ε} (h : Meets step s₀ C (es ++ es')) :
    Meets step s₀ C es := by
  intro pre e post s hes hrun
  exact h pre e (post ++ es') s (by rw [hes]; simp) hrun

lemma Meets.last {es : List ε} {e : ε} {s : σ} (h : Meets step s₀ C (es ++ [e]))
    (hrun : Trace step s₀ es s) : C es s e :=
  h es e [] s rfl hrun

/-- **Invariant rule** for runs whose inputs meet `C`. -/
theorem Trace.invariant {I : List ε → σ → Prop} (h0 : I [] s₀)
    (hstep : ∀ es s e s', Trace step s₀ es s → I es s → C es s e → step s e = some s' →
      I (es ++ [e]) s')
    {es : List ε} {s : σ} (hrun : Trace step s₀ es s) (hC : Meets step s₀ C es) :
    I es s := by
  induction hrun with
  | nil => exact h0
  | snoc run enabled ih =>
    exact hstep _ _ _ _ run (ih hC.of_append) (hC.last run) enabled

/-- The inputs determine the state. -/
lemma Trace.unique {es : List ε} {s s' : σ} (h : Trace step s₀ es s) (h' : Trace step s₀ es s') :
    s = s' := by
  induction h generalizing s' with
  | nil =>
    generalize hes : ([] : List ε) = es at h'
    cases h' with
    | nil => rfl
    | snoc => exact absurd hes (by simp)
  | @snoc es s e t _ enabled ih =>
    generalize hes : es ++ [e] = es' at h'
    cases h' with
    | nil => exact absurd hes (by simp)
    | @snoc es' s' e' t' run' enabled' =>
      rcases List.append_inj' hes rfl with ⟨rfl, hcons⟩
      obtain rfl : e = e' := by simpa using hcons
      rw [← ih run', enabled, Option.some.injEq] at enabled'
      exact enabled'

lemma Meets.snoc {es : List ε} {e : ε} {s : σ} (h : Meets step s₀ C es)
    (hrun : Trace step s₀ es s) (he : C es s e) : Meets step s₀ C (es ++ [e]) := by
  intro pre d post t hes ht
  rcases List.eq_nil_or_concat post with rfl | ⟨post, d', rfl⟩
  · rcases List.append_inj' hes rfl with ⟨rfl, hcons⟩
    obtain rfl : e = d := by simpa using hcons
    rwa [ht.unique hrun]
  · have hcons : es ++ [e] = (pre ++ d :: post) ++ [d'] := by simpa using hes
    exact h pre d post t (List.append_inj' hcons rfl).1 ht

/-- **A broken condition leaves its mark.** If an input that does not meet `C` leads to a
state with `D`, and every step keeps `D`, a run without the mark meets `C`. -/
theorem Trace.meets_or {D : σ → Prop}
    (hbreak : ∀ es s e s', Trace step s₀ es s → ¬C es s e → step s e = some s' → D s')
    (hkeep : ∀ es s e s', Trace step s₀ es s → D s → step s e = some s' → D s')
    {es : List ε} {s : σ} (hrun : Trace step s₀ es s) : Meets step s₀ C es ∨ D s := by
  induction hrun with
  | nil => exact Or.inl fun pre e post s hes _ => absurd hes (by simp)
  | @snoc es s e s' run enabled ih =>
    rcases ih with hmeets | hmark
    · by_cases he : C es s e
      · exact Or.inl (hmeets.snoc run he)
      · exact Or.inr (hbreak es s e s' run he enabled)
    · exact Or.inr (hkeep es s e s' run hmark enabled)

/-- A run can be executed. -/
lemma trace_of_foldlM {es : List ε} {s : σ} (h : es.foldlM step s₀ = some s) :
    Trace step s₀ es s := by
  induction es using List.reverseRecOn generalizing s with
  | nil =>
    obtain rfl : s₀ = s := by simpa using h
    exact .nil
  | append_singleton es e ih =>
    rw [List.foldlM_append] at h
    rcases Option.bind_eq_some_iff.mp h with ⟨t, ht, hs⟩
    exact .snoc (ih ht) (by simpa using hs)

end Partial

end Runs
