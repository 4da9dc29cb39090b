import Mathlib.Data.List.Basic
import Mathlib.Data.List.Induction
import Mathlib.Data.List.Sublists

/-!
# Boolean registers and their rising edges

A family of Boolean registers, written from several sources. A write says for every
register whether it sets it and to what (`Write`), so a sequence of writes is read
register by register: the value is the one of the last write that set it, and the number
of times it goes from `false` to `true` is the number of rises of the sequence of values
written to it.

The last part is about a single register of any type whose writes depend on the history
before them: it holds the value of the last write, or what it held at first.
-/

namespace Registers

variable {κ : Type*}

/-- What one write does to each register: `some b` sets it to `b`, `none` leaves it. -/
abbrev Write (κ : Type*) := κ → Option Bool

/-- The registers after a write. -/
def Write.apply (w : Write κ) (f : κ → Bool) (k : κ) : Bool := (w k).getD (f k)

/-- The values written to register `k`, oldest first. -/
def written (ws : List (Write κ)) (k : κ) : List Bool := ws.filterMap (· k)

lemma written_cons_none {w : Write κ} {k : κ} (h : w k = none) (ws : List (Write κ)) :
    written (w :: ws) k = written ws k :=
  List.filterMap_cons_none (f := fun w : Write κ => w k) h

lemma written_cons_some {w : Write κ} {k : κ} {b : Bool} (h : w k = some b)
    (ws : List (Write κ)) : written (w :: ws) k = b :: written ws k :=
  List.filterMap_cons_some (f := fun w : Write κ => w k) h

/-! ## Rising edges -/

/-- The number of changes from `false` to `true` when a register that holds `b` takes the
values of the list. -/
def rises : Bool → List Bool → ℕ
  | _, [] => 0
  | b, c :: cs => (if c && !b then 1 else 0) + rises c cs

@[simp] lemma rises_nil (b : Bool) : rises b [] = 0 := rfl

lemma rises_cons (b c : Bool) (cs : List Bool) :
    rises b (c :: cs) = (if c && !b then 1 else 0) + rises c cs := rfl

/-- Writing the value a register already has is no rise. -/
@[simp] lemma rises_self_cons (b : Bool) (cs : List Bool) : rises b (b :: cs) = rises b cs := by
  cases b <;> simp [rises_cons]

/-- Going through an extra value never saves a rise. -/
lemma rises_le_cons (b c : Bool) (cs : List Bool) : rises b cs ≤ rises b (c :: cs) := by
  cases cs with
  | nil => simp
  | cons d ds =>
    rw [rises_cons, rises_cons, rises_cons]
    cases b <;> cases c <;> cases d <;> simp

/-- Behind any values, there is at most one rise for each `true`. -/
lemma rises_append_le (b : Bool) (l l' : List Bool) :
    rises b (l ++ l') ≤ rises b l + l'.count true := by
  induction l generalizing b with
  | nil =>
    rw [List.nil_append, rises_nil, Nat.zero_add]
    induction l' generalizing b with
    | nil => exact Nat.zero_le _
    | cons c cs ih =>
      have ih' := ih c
      rw [rises_cons, List.count_cons]
      cases b <;> cases c <;> simp at ih' ⊢ <;> omega
  | cons c cs ih =>
    rw [List.cons_append, rises_cons, rises_cons, Nat.add_assoc]
    exact Nat.add_le_add_left (ih c) _

/-- Leaving out values never adds a rise. -/
theorem rises_le_of_sublist {l l' : List Bool} (h : l.Sublist l') (b : Bool) :
    rises b l ≤ rises b l' := by
  induction h generalizing b with
  | slnil => exact le_rfl
  | cons c _ ih => exact (ih b).trans (rises_le_cons b c _)
  | cons_cons c _ ih =>
    rw [rises_cons, rises_cons]
    exact Nat.add_le_add_left (ih c) _

/-! ## The last write of a history -/

section LastWrite

variable {ε α : Type*}

/-- What an input writes to the register, given the inputs before it. -/
abbrev HistoryWrite (ε α : Type*) := List ε → ε → Option α

/-- The last input of the history that writes writes `v`. -/
def LastWrite (w : HistoryWrite ε α) (es : List ε) (v : α) : Prop :=
  ∃ pre e post, es = pre ++ e :: post ∧ w pre e = some v
    ∧ ∀ a d b, post = a ++ d :: b → w (pre ++ e :: a) d = none

/-- No input of the history writes. -/
def Unwritten (w : HistoryWrite ε α) (es : List ε) : Prop :=
  ∀ pre e post, es = pre ++ e :: post → w pre e = none

variable {w : HistoryWrite ε α} {es : List ε} {e : ε} {v : α}

lemma unwritten_nil : Unwritten w [] := by
  intro pre e post h
  exact absurd h.symm (by simp)

lemma not_lastWrite_nil : ¬LastWrite w [] v := by
  intro h
  rcases h with ⟨pre, e, post, h, -⟩
  exact absurd h.symm (by simp)

/-- An input of a longer history is the last one or one of those before it. -/
lemma concat_eq_append_cons {pre post : List ε} {d : ε} :
    es ++ [e] = pre ++ d :: post
      ↔ pre = es ∧ d = e ∧ post = [] ∨ ∃ rest, post = rest ++ [e] ∧ es = pre ++ d :: rest := by
  constructor
  · intro h
    rcases List.eq_nil_or_concat post with rfl | ⟨rest, c, rfl⟩
    · rcases List.append_inj' h rfl with ⟨rfl, hcons⟩
      exact Or.inl ⟨rfl, (List.singleton_inj.mp hcons).symm, rfl⟩
    · have hsplit : es ++ [e] = (pre ++ d :: rest) ++ [c] := by simpa using h
      rcases List.append_inj' hsplit rfl with ⟨rfl, hcons⟩
      rw [List.singleton_inj.mp hcons]
      exact Or.inr ⟨rest, List.concat_eq_append, rfl⟩
  · intro h
    rcases h with ⟨rfl, rfl, rfl⟩ | ⟨rest, rfl, rfl⟩
    · rfl
    · simp

lemma unwritten_concat : Unwritten w (es ++ [e]) ↔ Unwritten w es ∧ w es e = none := by
  constructor
  · intro h
    exact ⟨fun pre d post hes => h pre d (post ++ [e]) (by rw [hes]; simp), h es e [] rfl⟩
  · intro h pre d post hes
    rcases concat_eq_append_cons.mp hes with ⟨rfl, rfl, -⟩ | ⟨rest, -, hrest⟩
    · exact h.2
    · exact h.1 pre d rest hrest

lemma lastWrite_concat :
    LastWrite w (es ++ [e]) v ↔ w es e = some v ∨ w es e = none ∧ LastWrite w es v := by
  constructor
  · intro h
    rcases h with ⟨pre, d, post, hes, hd, hpost⟩
    rcases concat_eq_append_cons.mp hes with ⟨rfl, rfl, -⟩ | ⟨rest, rfl, rfl⟩
    · exact Or.inl hd
    · refine Or.inr ⟨hpost rest e [] rfl, pre, d, rest, rfl, hd, fun a x b hx => ?_⟩
      exact hpost a x (b ++ [e]) (by rw [hx]; simp)
  · intro h
    rcases h with hwrite | ⟨hnone, pre, d, post, rfl, hd, hpost⟩
    · refine ⟨es, e, [], rfl, hwrite, fun a x b hx => ?_⟩
      exact absurd hx.symm (by simp)
    · refine ⟨pre, d, post ++ [e], by simp, hd, fun a x b hx => ?_⟩
      rcases concat_eq_append_cons.mp hx with ⟨rfl, rfl, -⟩ | ⟨rest, -, hrest⟩
      · exact hnone
      · exact hpost a x rest hrest

/-- **A register holds what was written last**, or what it held at first. -/
theorem eq_iff_lastWrite {f : List ε → α} (hstep : ∀ es e, f (es ++ [e]) = (w es e).getD (f es))
    (es : List ε) (v : α) : f es = v ↔ LastWrite w es v ∨ f [] = v ∧ Unwritten w es := by
  induction es using List.reverseRecOn with
  | nil =>
    rw [or_iff_right not_lastWrite_nil, and_iff_left unwritten_nil]
  | append_singleton es e ih =>
    rw [hstep, lastWrite_concat, unwritten_concat]
    cases hw : w es e with
    | none => simpa using ih
    | some b => simp

end LastWrite

end Registers
