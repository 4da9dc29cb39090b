import Mathlib.Data.List.Sort
import Mathlib.Data.Rat.Defs
import Mathlib.Tactic.NormNum
import QuicKeys.Lib.Runs

/-!
# The emulated delay of UDP packets

`Impairment` and `DelayedUdpOutbox` of `hybrid_run.py`, with exact times in seconds. Work of
the run loop takes no time and the loop runs as soon as it can, so the clock only moves
while the loop waits for a call or sleeps. Left alone, the loop comes to rest, and no packet
is lost or doubled on the way.
-/

namespace QuicKeys.Client

open Runs

/-! ## The outbox -/

structure Impairment where
  baseMs : ℚ := 0
  jitterMs : ℚ := 0
  loss : ℚ := 0

/-- `drop`, where `random.random()` gives `draw`. -/
def Impairment.drop (imp : Impairment) (draw : ℚ) : Bool := imp.loss > 0 ∧ draw < imp.loss

/-- `random.uniform(a, b)`, where `random.random()` gives `draw`. -/
def uniform (a b draw : ℚ) : ℚ := a + (b - a) * draw

/-- `sample_delay_s` -/
def Impairment.sampleDelayS (imp : Impairment) (draw : ℚ) : ℚ :=
  let j := if imp.jitterMs ≠ 0 then uniform (-imp.jitterMs) imp.jitterMs draw else 0
  let dMs := imp.baseMs + j
  (if dMs < 0 then 0 else dMs) / 1000

/-- An element of the heap. -/
structure Entry where
  sendAt : ℚ
  payload : List UInt8
deriving DecidableEq

/-- Not after, in the order of the tuples `(send_at, payload)`. -/
def Entry.before (d e : Entry) : Prop :=
  d.sendAt < e.sendAt ∨ d.sendAt = e.sendAt ∧ ¬e.payload < d.payload

instance : DecidableRel Entry.before := fun d e =>
  inferInstanceAs (Decidable (d.sendAt < e.sendAt ∨ d.sendAt = e.sendAt ∧ ¬e.payload < d.payload))

/-- `heapq.heappush`, on the heap in the order in which `heappop` empties it. -/
def heappush (pq : List Entry) (e : Entry) : List Entry := pq.orderedInsert Entry.before e

/-- Where `run` stands. -/
inductive Phase
  /-- before the pop, in `wait` unless there is something to do -/
  | waiting
  /-- in `asyncio.sleep`, for the packet it took -/
  | sleeping (e : Entry)
  | returned
deriving DecidableEq

/-- A packet that `sendto` was called with at the time `time`. -/
structure Handed where
  time : ℚ
  entry : Entry
deriving DecidableEq

/-- The outbox, the run loop, the clock, and what the socket was given. -/
structure Outbox where
  now : ℚ := 0
  pq : List Entry := []
  closed : Bool := false
  phase : Phase := .waiting
  sent : List Handed := []
deriving DecidableEq

/-- When the loop does its next piece of work, without any further call. -/
def Outbox.nextRun (s : Outbox) : Option ℚ :=
  match s.phase with
  | .waiting => if s.pq = [] ∧ s.closed = false then none else some s.now
  | .sleeping e => some e.sendAt
  | .returned => none

/-- One piece of work of `run`, up to the next point at which it lets others run. -/
def Outbox.loop (s : Outbox) : Option Outbox :=
  match s.phase with
  | .waiting =>
    match s.pq with
    | [] => if s.closed then some { s with phase := .returned } else none
    | e :: rest =>
      if e.sendAt > s.now then some { s with pq := rest, phase := .sleeping e }
      else some { s with pq := rest, sent := s.sent ++ [⟨s.now, e⟩] }
  | .sleeping e =>
    some { s with now := e.sendAt, phase := .waiting, sent := s.sent ++ [⟨e.sendAt, e⟩] }
  | .returned => none

/-- A call of `enqueue`, with the random numbers that it meets. -/
structure Call where
  payload : List UInt8
  reliable : Bool := false
  dropDraw : ℚ := 0
  delayDraw : ℚ := 0

inductive Input
  | enqueue (t : ℚ) (c : Call)
  | close (t : ℚ)
  | loop

/-- The packet that a call puts on the heap, if it is not lost. -/
def entryOf (imp : Impairment) : Input → Option Entry
  | .enqueue t c =>
    if !c.reliable && imp.drop c.dropDraw then none
    else some ⟨t + imp.sampleDelayS c.delayDraw, c.payload⟩
  | .close _ | .loop => none

/-- The clock may move to `t`: not backwards, and not past the next work of the loop. -/
def Outbox.mayWait (s : Outbox) (t : ℚ) : Prop := s.now ≤ t ∧ ∀ r ∈ s.nextRun, t ≤ r

instance (s : Outbox) (t : ℚ) : Decidable (s.mayWait t) :=
  inferInstanceAs (Decidable (s.now ≤ t ∧ ∀ r ∈ s.nextRun, t ≤ r))

def outboxStep (imp : Impairment) (s : Outbox) (i : Input) : Option Outbox :=
  match i with
  | .enqueue t _ =>
    if s.mayWait t then
      match entryOf imp i with
      | none => some { s with now := t }
      | some e => some { s with now := t, pq := heappush s.pq e }
    else none
  | .close t => if s.mayWait t then some { s with now := t, closed := true } else none
  | .loop => s.loop

/-- The loop on its own, for `n` pieces of work at most. -/
def runLoop : ℕ → Outbox → Outbox
  | 0, s => s
  | n + 1, s => match s.loop with
    | none => s
    | some s' => runLoop n s'

/-- Enough pieces of work to empty the outbox. -/
def Outbox.work (s : Outbox) : ℕ :=
  2 * s.pq.length + match s.phase with
    | .waiting => 1
    | .sleeping _ => 2
    | .returned => 0

/-- The loop on its own, to the end. -/
def Outbox.drain (s : Outbox) : Outbox := runLoop s.work s

/-- The packets that the loss model let through, each with the time it is due. -/
def accepted (imp : Impairment) (is : List Input) : List Entry := is.filterMap (entryOf imp)

/-! ## One piece of work, one input -/

lemma Impairment.sampleDelayS_nonneg (imp : Impairment) (draw : ℚ) :
    0 ≤ imp.sampleDelayS draw := by
  have hclip : ∀ x : ℚ, 0 ≤ if x < 0 then 0 else x := by
    intro x
    split_ifs with hx
    · exact le_rfl
    · exact le_of_not_gt hx
  exact div_nonneg (hclip _) (by norm_num)

lemma le_sendAt_of_entryOf {imp : Impairment} {t : ℚ} {c : Call} {e : Entry}
    (h : entryOf imp (.enqueue t c) = some e) : t ≤ e.sendAt := by
  rw [entryOf] at h
  split at h
  · cases h
  · cases h
    exact le_add_of_nonneg_right (imp.sampleDelayS_nonneg c.delayDraw)

/-- What a piece of work does. -/
inductive Works (s : Outbox) : Outbox → Prop
  | leave (hphase : s.phase = .waiting) (hpq : s.pq = []) : Works s { s with phase := .returned }
  | sleep {e : Entry} {rest : List Entry} (hphase : s.phase = .waiting) (hpq : s.pq = e :: rest)
      (hdue : s.now < e.sendAt) : Works s { s with pq := rest, phase := .sleeping e }
  | hand {e : Entry} {rest : List Entry} (hphase : s.phase = .waiting) (hpq : s.pq = e :: rest)
      (hdue : e.sendAt ≤ s.now) :
      Works s { s with pq := rest, sent := s.sent ++ [⟨s.now, e⟩] }
  | wake {e : Entry} (hphase : s.phase = .sleeping e) :
      Works s { s with now := e.sendAt, phase := .waiting, sent := s.sent ++ [⟨e.sendAt, e⟩] }

/-- What an input does. -/
inductive Steps (imp : Impairment) (s : Outbox) (i : Input) : Outbox → Prop
  | accept {t : ℚ} {e : Entry} (hwait : s.mayWait t) (hentry : entryOf imp i = some e)
      (hdue : t ≤ e.sendAt) : Steps imp s i { s with now := t, pq := heappush s.pq e }
  | pass {t : ℚ} {b : Bool} (hwait : s.mayWait t) (hentry : entryOf imp i = none) :
      Steps imp s i { s with now := t, closed := b }
  | work {s' : Outbox} (hentry : entryOf imp i = none) (hworks : Works s s') : Steps imp s i s'

section Steps

variable {imp : Impairment} {s s' : Outbox} {i : Input} {e : Entry}

lemma works_of_loop (h : s.loop = some s') : Works s s' := by
  rw [Outbox.loop] at h
  split at h
  next hphase =>
    split at h
    next hpq =>
      split at h
      · cases h
        exact .leave hphase hpq
      · cases h
    next e rest hpq =>
      split at h
      next hdue =>
        cases h
        exact .sleep hphase hpq hdue
      next hdue =>
        cases h
        exact .hand hphase hpq (le_of_not_gt hdue)
  next e hphase =>
    cases h
    exact .wake hphase
  next => cases h

lemma steps_of_outboxStep (h : outboxStep imp s i = some s') : Steps imp s i s' := by
  cases i with
  | enqueue t c =>
    rw [outboxStep] at h
    split at h
    next hwait =>
      split at h
      next hentry =>
        cases h
        exact .pass hwait hentry
      next e hentry =>
        cases h
        exact .accept hwait hentry (le_sendAt_of_entryOf hentry)
    next => cases h
  | close t =>
    rw [outboxStep] at h
    split at h
    next hwait =>
      cases h
      exact .pass hwait rfl
    next => cases h
  | loop => exact .work rfl (works_of_loop h)

lemma loop_eq_none_iff : s.loop = none ↔ s.nextRun = none := by
  rw [Outbox.loop, Outbox.nextRun]
  cases s.phase with
  | waiting =>
    cases s.pq with
    | nil => cases s.closed <;> simp
    | cons e rest => simp only [reduceCtorEq, false_and, if_false]; split <;> simp
  | sleeping e => simp
  | returned => simp

lemma work_lt (h : Works s s') : s'.work < s.work := by
  cases h with
  | leave hphase hpq => simp [Outbox.work, hphase]
  | sleep hphase hpq hdue => simp [Outbox.work, hphase, hpq]; omega
  | hand hphase hpq hdue => simp [Outbox.work, hphase, hpq]
  | wake hphase => simp [Outbox.work, hphase]

lemma perm_heappush (pq : List Entry) (e : Entry) : (heappush pq e).Perm (e :: pq) :=
  List.perm_orderedInsert _ e pq

lemma mem_heappush {pq : List Entry} {d : Entry} : d ∈ heappush pq e ↔ d = e ∨ d ∈ pq := by
  rw [(perm_heappush pq e).mem_iff, List.mem_cons]

end Steps

/-! ## The loop on its own -/

section Drain

variable {s : Outbox} {n : ℕ}

lemma runLoop_invariant {I : Outbox → Prop} (hstep : ∀ s s', I s → Works s s' → I s') (hs : I s) :
    I (runLoop n s) := by
  induction n generalizing s with
  | zero => exact hs
  | succ n ih =>
    rw [runLoop]
    split
    next => exact hs
    next s' h => exact ih (hstep s s' hs (works_of_loop h))

/-- **The loop comes to rest.** -/
lemma nextRun_runLoop (h : s.work ≤ n) : (runLoop n s).nextRun = none := by
  induction n generalizing s with
  | zero =>
    rw [runLoop, ← loop_eq_none_iff, Option.eq_none_iff_forall_ne_some]
    intro s' hs'
    exact absurd (work_lt (works_of_loop hs')) (by omega)
  | succ n ih =>
    rw [runLoop]
    split
    next hnone => exact loop_eq_none_iff.mp hnone
    next s' hs' => exact ih (by have := work_lt (works_of_loop hs'); omega)

lemma nextRun_drain (s : Outbox) : s.drain.nextRun = none := nextRun_runLoop le_rfl

end Drain

/-! ## Every packet once -/

/-- The packet that the loop sleeps for. -/
def Outbox.inFlight (s : Outbox) : List Entry :=
  match s.phase with
  | .sleeping e => [e]
  | .waiting | .returned => []

/-- All packets, handed over or not. -/
def Outbox.packets (s : Outbox) : List Entry :=
  s.sent.map Handed.entry ++ s.inFlight ++ s.pq

section Packets

variable {imp : Impairment} {is : List Input} {i : Input} {s s' : Outbox}

lemma packets_works (h : Works s s') : s'.packets = s.packets := by
  cases h with
  | leave hphase hpq => simp [Outbox.packets, Outbox.inFlight, hphase]
  | sleep hphase hpq hdue => simp [Outbox.packets, Outbox.inFlight, hphase, hpq]
  | hand hphase hpq hdue => simp [Outbox.packets, Outbox.inFlight, hphase, hpq]
  | wake hphase => simp [Outbox.packets, Outbox.inFlight, hphase]

lemma packets_steps (h : Steps imp s i s') :
    s'.packets.Perm ((entryOf imp i).toList ++ s.packets) := by
  cases h with
  | @accept t e hwait hentry hdue =>
    rw [hentry]
    exact ((perm_heappush s.pq e).append_left _).trans List.perm_middle
  | pass hwait hentry =>
    rw [hentry]
    exact .refl _
  | work hentry hworks =>
    rw [hentry, packets_works hworks]
    exact .refl _

lemma accepted_concat (imp : Impairment) (is : List Input) (i : Input) :
    accepted imp (is ++ [i]) = accepted imp is ++ (entryOf imp i).toList := by
  rw [accepted, List.filterMap_append]
  cases hentry : entryOf imp i <;> simp [accepted, hentry]

/-- **No packet is lost or doubled**, whatever the loop does. -/
lemma packets_perm_accepted (hrun : Trace (outboxStep imp) {} is s) :
    s.packets.Perm (accepted imp is) := by
  induction hrun with
  | nil => exact .refl _
  | @snoc is s i s' _ enabled ih =>
    rw [accepted_concat]
    exact (packets_steps (steps_of_outboxStep enabled)).trans
      ((ih.append_left _).trans List.perm_append_comm)

lemma packets_drain (s : Outbox) : s.drain.packets = s.packets :=
  runLoop_invariant (I := fun t => t.packets = s.packets)
    (fun _ _ h hworks => (packets_works hworks).trans h) rfl

/-- An outbox at rest has handed everything over. -/
lemma packets_of_rest (hleft : s.phase = .returned → s.pq = []) (hrest : s.nextRun = none) :
    s.packets = s.sent.map Handed.entry := by
  rw [Outbox.packets, Outbox.inFlight]
  cases hphase : s.phase with
  | waiting =>
    rw [Outbox.nextRun, hphase] at hrest
    have hpq : s.pq = [] := by
      by_contra hne
      simp [hne] at hrest
    simp [hpq]
  | sleeping d =>
    rw [Outbox.nextRun, hphase] at hrest
    cases hrest
  | returned => simp [hleft hphase]

end Packets

/-! ## The heap -/

/-- The heap empties by due time. -/
def Sorted (s : Outbox) : Prop := s.pq.Pairwise fun d e => d.sendAt ≤ e.sendAt

section Sorted

variable {imp : Impairment} {is : List Input} {i : Input} {s s' : Outbox}

lemma pairwise_heappush {pq : List Entry} (h : pq.Pairwise fun d e => d.sendAt ≤ e.sendAt)
    (e : Entry) : (heappush pq e).Pairwise fun d e => d.sendAt ≤ e.sendAt := by
  induction pq with
  | nil => exact List.pairwise_singleton _ e
  | cons d pq ih =>
    rcases List.pairwise_cons.mp h with ⟨hd, hpq⟩
    rw [heappush, List.orderedInsert_cons]
    split_ifs with hbefore
    · have hle : e.sendAt ≤ d.sendAt := by
        rcases hbefore with hlt | ⟨heq, -⟩
        · exact hlt.le
        · exact heq.le
      refine List.pairwise_cons.mpr ⟨fun x hx => ?_, h⟩
      rcases List.mem_cons.mp hx with rfl | hx
      · exact hle
      · exact hle.trans (hd x hx)
    · have hle : d.sendAt ≤ e.sendAt := by
        by_contra hlt
        exact hbefore (Or.inl (lt_of_not_ge hlt))
      refine List.pairwise_cons.mpr ⟨fun x hx => ?_, ih hpq⟩
      rcases mem_heappush.mp hx with rfl | hx
      · exact hle
      · exact hd x hx

lemma sorted_works (hs : Sorted s) (h : Works s s') : Sorted s' := by
  cases h with
  | leave hphase hpq => exact hs
  | sleep hphase hpq hdue =>
    rw [Sorted, hpq] at hs
    exact hs.of_cons
  | hand hphase hpq hdue =>
    rw [Sorted, hpq] at hs
    exact hs.of_cons
  | wake hphase => exact hs

lemma sorted_steps (hs : Sorted s) (h : Steps imp s i s') : Sorted s' := by
  cases h with
  | accept hwait hentry hdue => exact pairwise_heappush hs _
  | pass hwait hentry => exact hs
  | work hentry hworks => exact sorted_works hs hworks

/-- The head is due first. -/
lemma Sorted.head_le {e d : Entry} {rest : List Entry} (hs : Sorted s) (hpq : s.pq = e :: rest)
    (hd : d ∈ s.pq) : e.sendAt ≤ d.sendAt := by
  rw [Sorted, hpq] at hs
  rw [hpq] at hd
  rcases List.mem_cons.mp hd with rfl | hd
  · exact le_rfl
  · exact (List.pairwise_cons.mp hs).1 d hd

end Sorted

end QuicKeys.Client
