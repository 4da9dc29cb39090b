import Mathlib.Data.List.Basic
import Mathlib.Data.List.TakeWhile

/-!
# Splitting a string into words

The words of a string are its maximal runs of non-separators.
-/

namespace Words

variable {α : Type*} {p : α → Bool}

/-- The maximal runs of elements that are not separators (`p`), in order. -/
def words (p : α → Bool) (l : List α) : List (List α) :=
  (l.splitOnP p).filter fun w => !w.isEmpty

@[simp] lemma words_nil : words p [] = [] := rfl

/-- A leading separator is skipped. -/
lemma words_cons_sep {a : α} (h : p a = true) (l : List α) :
    words p (a :: l) = words p l := by
  simp [words, List.splitOnP_cons_eq_if_modifyHead, h]

/-- Leading separators are skipped. -/
lemma words_dropWhile (l : List α) : words p (l.dropWhile p) = words p l := by
  induction l with
  | nil => rfl
  | cons a l ih =>
    by_cases h : p a = true
    · rw [List.dropWhile_cons_of_pos h, ih, words_cons_sep h]
    · rw [List.dropWhile_cons_of_neg h]

/-- A string without separators is one word. -/
lemma words_of_forall {w : List α} (hw : ∀ a ∈ w, p a = false) (hne : w ≠ []) :
    words p w = [w] := by
  rw [words, List.splitOnP_eq_singleton hw]
  simp [hne]

/-- A word that a separator ends is the first word. -/
lemma words_append_sep {w : List α} (hw : ∀ a ∈ w, p a = false) (hne : w ≠ []) {a : α}
    (ha : p a = true) (l : List α) : words p (w ++ a :: l) = w :: words p l := by
  rw [words, List.splitOnP_append_cons_of_forall_mem hw a ha]
  simp [words, hne]

/-- The first word of a string that does not start with a separator is everything up to
the next separator. -/
lemma words_of_not_sep {l : List α} (h : ∀ a ∈ l.head?, p a = false) (hne : l ≠ []) :
    words p l = l.takeWhile (fun a => !p a) :: words p (l.dropWhile fun a => !p a) := by
  have hsplit := List.takeWhile_append_dropWhile (p := fun a => !p a) (l := l)
  have hw : ∀ a ∈ l.takeWhile (fun a => !p a), p a = false := fun a ha => by
    simpa using List.mem_takeWhile_imp ha
  have hwne : l.takeWhile (fun a => !p a) ≠ [] := by
    rcases List.exists_cons_of_ne_nil hne with ⟨a, l', rfl⟩
    rw [List.takeWhile_cons_of_pos (by simpa using h a (by simp))]
    exact List.cons_ne_nil _ _
  cases hd : l.dropWhile (fun a => !p a) with
  | nil =>
    rw [hd, List.append_nil] at hsplit
    rw [words_nil]
    conv_lhs => rw [← hsplit]
    exact words_of_forall hw hwne
  | cons a l' =>
    have ha : p a = true := by
      have hne : l.dropWhile (fun a => !p a) ≠ [] := by
        rw [hd]
        exact List.cons_ne_nil _ _
      have := List.head_dropWhile_not (fun a => !p a) hne
      simpa [hd] using this
    conv_lhs => rw [← hsplit, hd]
    rw [words_append_sep hw hwne ha, words_cons_sep ha]

/-- Separators in front are skipped. -/
lemma words_append_left {ws : List α} (hws : ∀ a ∈ ws, p a = true) (l : List α) :
    words p (ws ++ l) = words p l := by
  induction ws with
  | nil => rfl
  | cons a ws ih =>
    rcases List.forall_mem_cons.mp hws with ⟨ha, hws'⟩
    rw [List.cons_append, words_cons_sep ha, ih hws']

/-- A word is ended by any number of separators. -/
lemma words_append_seps {w ws : List α} (hw : ∀ a ∈ w, p a = false) (hne : w ≠ [])
    (hws : ∀ a ∈ ws, p a = true) (hwsne : ws ≠ []) (l : List α) :
    words p (w ++ (ws ++ l)) = w :: words p l := by
  rcases List.exists_cons_of_ne_nil hwsne with ⟨a, ws', rfl⟩
  rcases List.forall_mem_cons.mp hws with ⟨ha, hws'⟩
  rw [List.cons_append, words_append_sep hw hne ha, words_append_left hws']

/-- The last word may be followed by separators. -/
lemma words_append_right {w ws : List α} (hw : ∀ a ∈ w, p a = false) (hne : w ≠ [])
    (hws : ∀ a ∈ ws, p a = true) : words p (w ++ ws) = [w] := by
  by_cases hwsne : ws = []
  · rw [hwsne, List.append_nil, words_of_forall hw hne]
  · have h := words_append_seps hw hne hws hwsne []
    rwa [List.append_nil, words_nil] at h

/-- No word contains a separator. -/
lemma not_sep_of_mem_words {w l : List α} (h : w ∈ words p l) : ∀ a ∈ w, p a = false := by
  have hall : ∀ w ∈ l.splitOnP p, ∀ a ∈ w, p a = false := by
    clear h
    induction l with
    | nil => simp
    | cons x l ih =>
      rw [List.splitOnP_cons_eq_if_modifyHead]
      split
      · intro w hw
        rcases List.mem_cons.mp hw with rfl | hw
        · exact fun a ha => absurd ha List.not_mem_nil
        · exact ih w hw
      · rename_i hx
        cases hsplit : l.splitOnP p with
        | nil => exact fun w hw => absurd hw List.not_mem_nil
        | cons v ws =>
          rw [hsplit] at ih
          rcases List.forall_mem_cons.mp ih with ⟨hv, hws⟩
          rw [List.modifyHead_cons]
          intro w hw
          rcases List.mem_cons.mp hw with rfl | hw
          · exact List.forall_mem_cons.mpr ⟨Bool.eq_false_iff.mpr hx, hv⟩
          · exact hws w hw
  exact hall w (List.mem_filter.mp h).1

/-- The words consist of elements of the string. -/
lemma mem_of_mem_words {w l : List α} (h : w ∈ words p l) : ∀ a ∈ w, a ∈ l := by
  have hall : ∀ w ∈ l.splitOnP p, ∀ a ∈ w, a ∈ l := by
    clear h
    induction l with
    | nil => simp
    | cons x l ih =>
      rw [List.splitOnP_cons_eq_if_modifyHead]
      split
      · intro w hw a ha
        rcases List.mem_cons.mp hw with rfl | hw
        · exact absurd ha List.not_mem_nil
        · exact List.mem_cons_of_mem _ (ih w hw a ha)
      · cases hsplit : l.splitOnP p with
        | nil => exact fun w hw => absurd hw List.not_mem_nil
        | cons v ws =>
          rw [hsplit] at ih
          rcases List.forall_mem_cons.mp ih with ⟨hv, hws⟩
          rw [List.modifyHead_cons]
          intro w hw a ha
          rcases List.mem_cons.mp hw with rfl | hw
          · rcases List.mem_cons.mp ha with rfl | ha
            · exact List.mem_cons_self
            · exact List.mem_cons_of_mem _ (hv a ha)
          · exact List.mem_cons_of_mem _ (hws w hw a ha)
  exact hall w (List.mem_filter.mp h).1

end Words
