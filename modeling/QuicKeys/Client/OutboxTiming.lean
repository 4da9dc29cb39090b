import QuicKeys.Client.Outbox

/-!
# When emulated packets leave

The loop takes the earliest packet off the heap and sleeps until it is due. A packet that
is enqueued meanwhile and is due before it has to wait for it: the notification reaches
nobody. Without such packets, each is sent at the end of its own delay.
-/

namespace QuicKeys.Client

open Runs

/-! ## The emulated delay -/

/-- Once the calls are over, every packet is handed over once, when it is due. -/
structure SentOnTime (imp : Impairment) (is : List Input) (s : Outbox) : Prop where
  settled : s.drain.nextRun = none
  once : (s.drain.sent.map Handed.entry).Perm (accepted imp is)
  onTime : ∀ h ∈ s.drain.sent, h.time = h.entry.sendAt

/-- The loop neither sleeps past the due time of `e`, nor has it returned. -/
def Unblocked (s : Outbox) (e : Entry) : Prop :=
  match s.phase with
  | .waiting => True
  | .sleeping d => d.sendAt ≤ e.sendAt
  | .returned => False

/-- A call whose packet is accepted finds the loop ready for it. -/
def FindsLoop (imp : Impairment) (_ : List Input) (s : Outbox) (i : Input) : Prop :=
  ∀ e ∈ entryOf imp i, Unblocked s e

/-! ## On time -/

/-- Nothing is overdue: every packet that was handed over was on time, and the ones that
wait are due no earlier than the loop gets to them. -/
structure Punctual (s : Outbox) : Prop where
  sorted : Sorted s
  onTime : ∀ h ∈ s.sent, h.time = h.entry.sendAt
  ahead : ∀ e ∈ s.pq, s.now ≤ e.sendAt
  asleep : ∀ d, s.phase = .sleeping d → s.now ≤ d.sendAt ∧ ∀ e ∈ s.pq, d.sendAt ≤ e.sendAt
  left : s.phase = .returned → s.pq = []

/-- Something is overdue: a packet was handed over late, or waits for the loop although it
is due, or will be by the time the loop wakes up. -/
def Overdue (s : Outbox) : Prop :=
  (∃ h ∈ s.sent, h.entry.sendAt < h.time) ∨
    match s.phase with
    | .waiting => ∃ e ∈ s.pq, e.sendAt < s.now
    | .sleeping d => ∃ e ∈ s.pq, e.sendAt < d.sendAt
    | .returned => s.pq ≠ []

section OnTime

variable {imp : Impairment} {is : List Input} {i : Input} {s s' : Outbox}

lemma punctual_works (hs : Punctual s) (h : Works s s') : Punctual s' where
  sorted := sorted_works hs.sorted h
  onTime := by
    cases h with
    | leave hphase hpq => exact hs.onTime
    | sleep hphase hpq hdue => exact hs.onTime
    | @hand e rest hphase hpq hdue =>
      intro h hh
      rcases List.mem_append.mp hh with hh | hh
      · exact hs.onTime h hh
      · rw [List.mem_singleton.mp hh]
        exact le_antisymm (hs.ahead e (by simp [hpq])) hdue
    | wake hphase =>
      intro h hh
      rcases List.mem_append.mp hh with hh | hh
      · exact hs.onTime h hh
      · rw [List.mem_singleton.mp hh]
  ahead := by
    cases h with
    | leave hphase hpq => exact hs.ahead
    | sleep hphase hpq hdue => exact fun e he => hs.ahead e (by simp [hpq, he])
    | hand hphase hpq hdue => exact fun e he => hs.ahead e (by simp [hpq, he])
    | wake hphase => exact (hs.asleep _ hphase).2
  asleep := by
    cases h with
    | leave hphase hpq => exact fun d hd => absurd hd (by simp)
    | @sleep e rest hphase hpq hdue =>
      intro d hd
      obtain rfl : e = d := by simpa using hd
      exact ⟨hdue.le, fun x hx => hs.sorted.head_le hpq (by simp [hpq, hx])⟩
    | hand hphase hpq hdue => exact fun d hd => absurd (hphase.symm.trans hd) (by simp)
    | wake hphase => exact fun d hd => absurd hd (by simp)
  left := by
    cases h with
    | leave hphase hpq => exact fun _ => hpq
    | sleep hphase hpq hdue => exact fun hd => absurd hd (by simp)
    | hand hphase hpq hdue => exact fun hd => absurd (hphase.symm.trans hd) (by simp)
    | wake hphase => exact fun hd => absurd hd (by simp)

lemma le_of_asleep {t : ℚ} (ht : s.mayWait t) {d : Entry} (hd : s.phase = .sleeping d) :
    t ≤ d.sendAt :=
  ht.2 _ (by rw [Outbox.nextRun, hd]; rfl)

/-- The clock does not move past the packets that wait. -/
lemma Punctual.le_of_mayWait (hs : Punctual s) {t : ℚ} (ht : s.mayWait t) {e : Entry}
    (he : e ∈ s.pq) : t ≤ e.sendAt := by
  have hne : s.pq ≠ [] := List.ne_nil_of_mem he
  cases hphase : s.phase with
  | waiting =>
    have hnext : s.nextRun = some s.now := by rw [Outbox.nextRun, hphase]; simp [hne]
    exact (ht.2 _ hnext).trans (hs.ahead e he)
  | sleeping d => exact (le_of_asleep ht hphase).trans ((hs.asleep d hphase).2 e he)
  | returned => exact absurd (hs.left hphase) hne

/-- **A packet that finds the loop keeps the outbox punctual.** -/
lemma punctual_steps (hs : Punctual s) (hfinds : ∀ e ∈ entryOf imp i, Unblocked s e)
    (h : Steps imp s i s') : Punctual s' := by
  cases h with
  | @accept t e hwait hentry hdue =>
    have hunblocked : Unblocked s e := hfinds e hentry
    refine ⟨pairwise_heappush hs.sorted e, hs.onTime, fun x hx => ?_, fun d hd => ?_, fun hd => ?_⟩
    · rcases mem_heappush.mp hx with rfl | hx
      · exact hdue
      · exact hs.le_of_mayWait hwait hx
    · refine ⟨le_of_asleep hwait hd, fun x hx => ?_⟩
      rcases mem_heappush.mp hx with rfl | hx
      · rw [Unblocked, show s.phase = _ from hd] at hunblocked
        exact hunblocked
      · exact (hs.asleep d hd).2 x hx
    · rw [Unblocked, show s.phase = _ from hd] at hunblocked
      exact hunblocked.elim
  | pass hwait hentry =>
    exact ⟨hs.sorted, hs.onTime, fun x hx => hs.le_of_mayWait hwait hx,
      fun d hd => ⟨le_of_asleep hwait hd, (hs.asleep d hd).2⟩, hs.left⟩
  | work hentry hworks => exact punctual_works hs hworks

/-- **What is overdue stays so**: if it waits, the head of the heap is overdue with it. -/
lemma overdue_works (hsorted : Sorted s) (hs : Overdue s) (h : Works s s') : Overdue s' := by
  rcases hs with ⟨x, hx, hlate⟩ | hs
  · cases h with
    | leave | sleep => exact Or.inl ⟨x, hx, hlate⟩
    | hand | wake => exact Or.inl ⟨x, List.mem_append_left _ hx, hlate⟩
  · cases h with
    | leave hphase hpq =>
      rw [hphase, hpq] at hs
      rcases hs with ⟨x, hx, -⟩
      exact absurd hx List.not_mem_nil
    | sleep hphase hpq hdue =>
      rw [hphase] at hs
      rcases hs with ⟨x, hx, hlate⟩
      exact absurd ((hsorted.head_le hpq hx).trans_lt hlate) (not_lt_of_gt hdue)
    | @hand e rest hphase hpq hdue =>
      rw [hphase] at hs
      rcases hs with ⟨x, hx, hlate⟩
      exact Or.inl ⟨⟨s.now, e⟩, by simp, (hsorted.head_le hpq hx).trans_lt hlate⟩
    | wake hphase =>
      rw [hphase] at hs
      exact Or.inr hs

/-- Neither more packets nor a later clock help. -/
lemma Overdue.mono (hs : Overdue s) (hphase : s'.phase = s.phase) (hsent : s'.sent = s.sent)
    (hpq : ∀ e ∈ s.pq, e ∈ s'.pq) (hnow : s.now ≤ s'.now) : Overdue s' := by
  rw [Overdue, hphase, hsent]
  refine hs.imp_right fun hs => ?_
  cases hwaits : s.phase with
  | waiting =>
    rw [hwaits] at hs
    rcases hs with ⟨x, hx, hlate⟩
    exact ⟨x, hpq x hx, hlate.trans_le hnow⟩
  | sleeping d =>
    rw [hwaits] at hs
    rcases hs with ⟨x, hx, hlate⟩
    exact ⟨x, hpq x hx, hlate⟩
  | returned =>
    rw [hwaits] at hs
    rcases List.exists_mem_of_ne_nil _ hs with ⟨x, hx⟩
    exact List.ne_nil_of_mem (hpq x hx)

lemma overdue_steps (hsorted : Sorted s) (hs : Overdue s) (h : Steps imp s i s') :
    Overdue s' := by
  cases h with
  | accept hwait hentry hdue =>
    exact hs.mono rfl rfl (fun x hx => mem_heappush.mpr (Or.inr hx)) hwait.1
  | pass hwait hentry => exact hs.mono rfl rfl (fun x hx => hx) hwait.1
  | work hentry hworks => exact overdue_works hsorted hs hworks

/-- A packet that the loop is not ready for is overdue at once. -/
lemma overdue_of_blocked (hblocked : ¬∀ e ∈ entryOf imp i, Unblocked s e)
    (h : Steps imp s i s') : Overdue s' := by
  push Not at hblocked
  rcases hblocked with ⟨e, he, hblocked⟩
  cases h with
  | @accept t d hwait hentry hdue =>
    obtain rfl : d = e := Option.some.inj (hentry.symm.trans he)
    refine Or.inr ?_
    have hmem : d ∈ heappush s.pq d := mem_heappush.mpr (Or.inl rfl)
    cases hphase : s.phase with
    | waiting => exact absurd trivial (by rwa [Unblocked, hphase] at hblocked)
    | sleeping w =>
      rw [Unblocked, hphase] at hblocked
      exact ⟨d, hmem, lt_of_not_ge hblocked⟩
    | returned => exact List.ne_nil_of_mem hmem
  | pass hwait hentry => exact absurd (hentry.symm.trans he) (by simp)
  | work hentry hworks => exact absurd (hentry.symm.trans he) (by simp)

end OnTime

/-! ## When every packet is sent on time -/

section Sent

variable {imp : Impairment} {is : List Input} {s : Outbox}

lemma sorted_of_trace (hrun : Trace (outboxStep imp) {} is s) : Sorted s := by
  induction hrun with
  | nil => exact List.Pairwise.nil
  | snoc _ enabled ih => exact sorted_steps ih (steps_of_outboxStep enabled)

lemma punctual_of_trace (hrun : Trace (outboxStep imp) {} is s)
    (hfinds : Meets (outboxStep imp) {} (FindsLoop imp) is) : Punctual s := by
  refine hrun.invariant (I := fun _ s => Punctual s) ?_ ?_ hfinds
  · exact ⟨.nil, by simp, by simp, by simp, by simp⟩
  · intro is s i s' _ hs hi hstep
    exact punctual_steps hs hi (steps_of_outboxStep hstep)

/-- A punctual outbox that comes to rest has handed over everything. -/
lemma sentOnTime_of_punctual (hrun : Trace (outboxStep imp) {} is s) (hs : Punctual s) :
    SentOnTime imp is s := by
  have hdrain : Punctual s.drain := runLoop_invariant (fun _ _ => punctual_works) hs
  refine ⟨nextRun_drain s, ?_, hdrain.onTime⟩
  rw [← packets_of_rest hdrain.left (nextRun_drain s), packets_drain]
  exact packets_perm_accepted hrun

/-- An overdue packet is handed over late, or not at all. -/
lemma not_sentOnTime_of_overdue (hrun : Trace (outboxStep imp) {} is s) (hs : Overdue s) :
    ¬SentOnTime imp is s := by
  intro h
  have hdrain : Sorted s.drain ∧ Overdue s.drain :=
    runLoop_invariant (I := fun s => Sorted s ∧ Overdue s)
      (fun _ _ hs hworks => ⟨sorted_works hs.1 hworks, overdue_works hs.1 hs.2 hworks⟩)
      ⟨sorted_of_trace hrun, hs⟩
  rcases hdrain.2 with ⟨x, hx, hlate⟩ | hwaits
  · exact absurd (h.onTime x hx) hlate.ne'
  · have hrest := h.settled
    cases hphase : s.drain.phase with
    | waiting =>
      rw [hphase] at hwaits
      rw [Outbox.nextRun, hphase] at hrest
      rcases hwaits with ⟨x, hx, -⟩
      simp [List.ne_nil_of_mem hx] at hrest
    | sleeping d =>
      rw [Outbox.nextRun, hphase] at hrest
      cases hrest
    | returned =>
      rw [hphase] at hwaits
      have hperm := (packets_perm_accepted hrun).trans h.once.symm
      rw [← packets_drain, Outbox.packets, Outbox.inFlight, hphase, List.append_nil] at hperm
      have hlen := hperm.length_eq
      rw [List.length_append, Nat.add_eq_left, List.length_eq_zero_iff] at hlen
      exact hwaits hlen

/-- **A packet that is due before the one that the loop sleeps for is late.** In every run,
every packet that is not lost is handed over exactly once and when it is due, if and only
if no accepted packet finds the loop asleep for one that is due later, or gone. -/
theorem sentOnTime_iff (hrun : Trace (outboxStep imp) {} is s) :
    SentOnTime imp is s ↔ Meets (outboxStep imp) {} (FindsLoop imp) is := by
  constructor
  · intro h
    have hmark : Meets (outboxStep imp) {} (FindsLoop imp) is ∨ Overdue s := by
      refine hrun.meets_or ?_ ?_
      · exact fun _ _ _ _ _ hblocked hstep =>
          overdue_of_blocked hblocked (steps_of_outboxStep hstep)
      · exact fun _ _ _ _ hpre hs hstep =>
          overdue_steps (sorted_of_trace hpre) hs (steps_of_outboxStep hstep)
    exact hmark.resolve_right fun hs => not_sentOnTime_of_overdue hrun hs h
  · exact fun hfinds => sentOnTime_of_punctual hrun (punctual_of_trace hrun hfinds)

/-- Delays from 0 to 100 ms. -/
def jittery : Impairment := { baseMs := 50, jitterMs := 50 }

/-- The loop takes a packet that is due at 90 ms; 10 ms later comes one due at 20 ms. -/
def overtaking : List Input :=
  [.enqueue 0 { payload := [0x61], delayDraw := 9 / 10 }, .loop,
    .enqueue (1 / 100) { payload := [0x62], delayDraw := 1 / 10 }]

/-- The outbox after it. -/
def overtaken : Outbox :=
  { now := 1 / 100, pq := [⟨1 / 50, [0x62]⟩], phase := .sleeping ⟨9 / 100, [0x61]⟩ }

theorem sentOnTime_iff_overtaking :
    SentOnTime jittery overtaking overtaken
      ↔ Meets (outboxStep jittery) {} (FindsLoop jittery) overtaking :=
  sentOnTime_iff (trace_of_foldlM (by decide +kernel))

/-- The second packet leaves at 90 ms. -/
theorem not_sentOnTime_overtaking :
    overtaking.foldlM (outboxStep jittery) {} = some overtaken
      ∧ overtaken.drain.sent = [⟨9 / 100, ⟨9 / 100, [0x61]⟩⟩, ⟨9 / 100, ⟨1 / 50, [0x62]⟩⟩]
      ∧ ¬SentOnTime jittery overtaking overtaken := by
  have hsent : overtaken.drain.sent
      = [⟨9 / 100, ⟨9 / 100, [0x61]⟩⟩, ⟨9 / 100, ⟨1 / 50, [0x62]⟩⟩] := by decide +kernel
  refine ⟨by decide +kernel, hsent, fun h => ?_⟩
  have honTime := h.onTime ⟨9 / 100, ⟨1 / 50, [0x62]⟩⟩ (by rw [hsent]; simp)
  norm_num at honTime

end Sent

end QuicKeys.Client
