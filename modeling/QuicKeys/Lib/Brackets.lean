import Mathlib.Data.List.Induction

/-!
# Nested brackets

What is opened and closed, in a log: the brackets are nested if each closing one closes what
was opened last and is still open. What is still open at the end is then known, and every
bracket but those has been closed as often as it was opened.
-/

namespace Brackets

/-- An entry of the log. -/
inductive Bracket (α : Type*)
  | opened (a : α)
  | closed (a : α)
deriving DecidableEq

variable {α : Type*} [DecidableEq α]

/-- What is open after an entry, the latest first; `none` if the entry closes something else. -/
def step : List α → Bracket α → Option (List α)
  | left, .opened a => some (a :: left)
  | [], .closed _ => none
  | b :: left, .closed a => if a = b then some left else none

/-- The brackets are nested, and `left` is what they leave open. -/
def Nested (bs : List (Bracket α)) (left : List α) : Prop := bs.foldlM step [] = some left

variable {bs : List (Bracket α)} {left : List α}

lemma nested_nil : Nested ([] : List (Bracket α)) [] := rfl

lemma Nested.concat (h : Nested bs left) {b : Bracket α} {left' : List α}
    (hb : step left b = some left') : Nested (bs ++ [b]) left' := by
  rw [Nested, List.foldlM_append, show bs.foldlM step [] = some left from h]
  simpa using hb

/-- What is opened is open. -/
lemma Nested.opened (h : Nested bs left) (a : α) : Nested (bs ++ [.opened a]) (a :: left) :=
  h.concat rfl

/-- What was opened last can be closed, and so can all that is open. -/
lemma Nested.closed {as : List α} (h : Nested bs (as ++ left)) :
    Nested (bs ++ as.map .closed) left := by
  induction as generalizing bs with
  | nil => simpa using h
  | cons a as ih =>
    have hlast : Nested (bs ++ [.closed a]) (as ++ left) := h.concat (if_pos rfl)
    simpa using ih hlast

/-- **Nothing is closed twice, or left out**: what was opened has been closed, or is open. -/
theorem Nested.count_eq (h : Nested bs left) (a : α) :
    bs.count (.opened a) = bs.count (.closed a) + left.count a := by
  induction bs using List.reverseRecOn generalizing left with
  | nil =>
    obtain rfl : [] = left := Option.some.inj h
    rfl
  | append_singleton bs b ih =>
    rw [Nested, List.foldlM_append] at h
    rcases Option.bind_eq_some_iff.mp h with ⟨before, hbs, hb⟩
    have hcount := ih hbs
    rw [List.foldlM_cons] at hb
    rcases Option.bind_eq_some_iff.mp hb with ⟨after, hb, hafter⟩
    obtain rfl : after = left := Option.some.inj hafter
    rw [List.count_append, List.count_append]
    cases b with
    | opened c =>
      obtain rfl : c :: before = after := Option.some.inj hb
      by_cases hc : c = a
      · subst hc
        simp
        omega
      · simp [hc]
        omega
    | closed c =>
      cases before with
      | nil => cases hb
      | cons d before =>
        rw [step] at hb
        split at hb
        · rename_i hcd
          obtain rfl : before = after := Option.some.inj hb
          subst hcd
          by_cases hc : c = a
          · subst hc
            simp at hcount ⊢
            omega
          · simp [hc] at hcount ⊢
            omega
        · cases hb

end Brackets
