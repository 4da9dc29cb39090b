import Mathlib.Data.List.Basic
import Mathlib.Data.List.TakeWhile

/-!
# Searching for a pattern

The regular expressions that are sequences of single symbols and of runs `[..]+`, with the
leftmost, greedy, backtracking search of the usual engines. A match returns the texts of
the captured runs.
-/

namespace Pattern

variable {α : Type*} [DecidableEq α]

/-- A symbol, or a run of at least one symbol of a class, captured or not. -/
inductive Piece (α : Type*)
  | symbol (a : α)
  | run (captured : Bool) (p : α → Bool)

/-- The symbols of a word. -/
def word (w : List α) : List (Piece α) := w.map .symbol

/-- A match at the start of the text. A run takes as much as it can and gives back symbol
by symbol. -/
def matchAt : List (Piece α) → List α → Option (List (List α))
  | [], _ => some []
  | .symbol _ :: _, [] => none
  | .symbol a :: ps, x :: xs => if x = a then matchAt ps xs else none
  | .run captured p :: ps, xs =>
    (List.range' 1 (xs.takeWhile p).length).reverse.findSome? fun k =>
      (matchAt ps (xs.drop k)).map fun gs => if captured then xs.take k :: gs else gs

/-- The leftmost match. -/
def search (ps : List (Piece α)) : List α → Option (List (List α))
  | [] => matchAt ps []
  | x :: xs => match matchAt ps (x :: xs) with
    | some gs => some gs
    | none => search ps xs

section Match

variable {ps : List (Piece α)} {p : α → Bool} {w xs : List α} {gs : List (List α)}

lemma matchAt_word (w : List α) (ps : List (Piece α)) (xs : List α) :
    matchAt (word w ++ ps) (w ++ xs) = matchAt ps xs := by
  induction w with
  | nil => rfl
  | cons a w ih =>
    rw [word, List.map_cons, List.cons_append, List.cons_append, matchAt, if_pos rfl]
    exact ih

/-- A run that is followed by another symbol is taken as a whole, if the rest matches. -/
lemma matchAt_run (captured : Bool) (hw : ∀ a ∈ w, p a = true) (hne : w ≠ [])
    (hxs : ∀ a ∈ xs.head?, p a = false) (h : matchAt ps xs = some gs) :
    matchAt (.run captured p :: ps) (w ++ xs) = some (if captured then w :: gs else gs) := by
  have hrest : xs.takeWhile p = [] := by
    cases xs with
    | nil => rfl
    | cons x xs => exact List.takeWhile_cons_of_neg (by simpa using hxs x rfl)
  have htake : (w ++ xs).takeWhile p = w := by
    rw [List.takeWhile_append_of_pos hw, hrest, List.append_nil]
  obtain ⟨n, hn⟩ : ∃ n, w.length = n + 1 :=
    Nat.exists_eq_succ_of_ne_zero (List.length_pos_iff.mpr hne).ne'
  have hlongest : (List.range' 1 w.length).reverse = w.length :: (List.range' 1 n).reverse := by
    rw [hn, List.range'_1_concat, List.reverse_append, List.reverse_singleton,
      List.singleton_append, Nat.add_comm 1 n]
  rw [matchAt, htake, hlongest, List.findSome?_cons, List.drop_left, List.take_left, h,
    Option.map_some]

/-- A word that the text does not start with does not match. -/
lemma matchAt_word_of_not_prefix (h : ¬w <+: xs) : matchAt (word w ++ ps) xs = none := by
  induction w generalizing xs with
  | nil => exact absurd (List.nil_prefix) h
  | cons a w ih =>
    cases xs with
    | nil => rfl
    | cons x xs =>
      rw [word, List.map_cons, List.cons_append, matchAt]
      split_ifs with hx
      · subst hx
        exact ih fun hw => h ((List.prefix_cons_inj x).mpr hw)
      · rfl

/-- A pattern that starts with a symbol matches nowhere without it. -/
lemma search_of_not_mem {a : α} (h : a ∉ xs) : search (.symbol a :: ps) xs = none := by
  induction xs with
  | nil => rfl
  | cons x xs ih =>
    rw [search, matchAt, if_neg (List.ne_of_not_mem_cons h).symm]
    exact ih (List.not_mem_of_not_mem_cons h)

/-- If the symbol is only at the start of the text, that is where the pattern matches. -/
lemma search_cons_of_not_mem {a x : α} (h : a ∉ xs) :
    search (.symbol a :: ps) (x :: xs) = matchAt (.symbol a :: ps) (x :: xs) := by
  rw [search]
  cases matchAt (.symbol a :: ps) (x :: xs) with
  | none => exact search_of_not_mem h
  | some gs => rfl

/-- A text that starts with another word. -/
lemma search_word_of_not_prefix {a : α} {v : List α} (hne : v ≠ []) (h : a ∉ v.tail ++ xs)
    (hv : ¬a :: w <+: v) (hw : ¬v <+: a :: w) : search (word (a :: w) ++ ps) (v ++ xs) = none := by
  rcases List.exists_cons_of_ne_nil hne with ⟨b, v, rfl⟩
  have hprefix : ¬a :: w <+: b :: v ++ xs := fun hpre =>
    (List.prefix_or_prefix_of_prefix hpre (List.prefix_append _ _)).elim hv hw
  have hmatch : matchAt (word (a :: w) ++ ps) (b :: v ++ xs) = none :=
    matchAt_word_of_not_prefix hprefix
  rw [List.tail_cons] at h
  rw [word, List.map_cons, List.cons_append, List.cons_append] at hmatch ⊢
  rw [search_cons_of_not_mem h, hmatch]

lemma search_of_matchAt (h : matchAt ps xs = some gs) : search ps xs = some gs := by
  cases xs with
  | nil => exact h
  | cons x xs => rw [search, h]

end Match

end Pattern
