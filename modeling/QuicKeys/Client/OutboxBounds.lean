import Mathlib.Algebra.Order.AbsoluteValue.Basic
import Mathlib.Data.List.Pairwise
import Mathlib.Tactic.Linarith
import Mathlib.Tactic.Ring
import QuicKeys.Client.OutboxTiming

/-!
# How late emulated packets leave

A packet can wait behind one that is due later, but not for long: the packet the loop sleeps
for was enqueued earlier, so it is due at most the spread of the delays after any packet
that comes while the loop sleeps. Without jitter the spread is zero and the outbox is a delay
line.
-/

namespace QuicKeys.Client

open Runs

/-! ## The range of the delays -/

/-- The least delay that is sampled. -/
def Impairment.minDelayS (imp : Impairment) : ℚ := max 0 (imp.baseMs - |imp.jitterMs|) / 1000

/-- The greatest one. -/
def Impairment.maxDelayS (imp : Impairment) : ℚ := max 0 (imp.baseMs + |imp.jitterMs|) / 1000

/-- The difference between them. -/
def Impairment.spreadS (imp : Impairment) : ℚ := imp.maxDelayS - imp.minDelayS

/-- `random.random()` gives numbers from 0 to 1. -/
def DrawsInRange (is : List Input) : Prop :=
  ∀ t c, .enqueue t c ∈ is → 0 ≤ c.delayDraw ∧ c.delayDraw ≤ 1

/-- The delays that are sampled lie in the range. -/
def DelaysInRange (imp : Impairment) (is : List Input) : Prop :=
  ∀ t c, .enqueue t c ∈ is →
    imp.minDelayS ≤ imp.sampleDelayS c.delayDraw ∧ imp.sampleDelayS c.delayDraw ≤ imp.maxDelayS

/-- No packet is accepted after the loop has returned. -/
def FindsOpen (imp : Impairment) (_ : List Input) (s : Outbox) (i : Input) : Prop :=
  ∀ e ∈ entryOf imp i, s.phase ≠ .returned

section Delay

variable {imp : Impairment}

lemma sampleDelayS_mem {draw : ℚ} (h0 : 0 ≤ draw) (h1 : draw ≤ 1) :
    imp.minDelayS ≤ imp.sampleDelayS draw ∧ imp.sampleDelayS draw ≤ imp.maxDelayS := by
  have hjitter : -|imp.jitterMs| ≤ (if imp.jitterMs ≠ 0 then
      uniform (-imp.jitterMs) imp.jitterMs draw else 0)
      ∧ (if imp.jitterMs ≠ 0 then uniform (-imp.jitterMs) imp.jitterMs draw else 0)
        ≤ |imp.jitterMs| := by
    split_ifs with hj
    · rw [uniform, ← abs_le]
      have hdraw : |2 * draw - 1| ≤ 1 := abs_le.mpr ⟨by linarith, by linarith⟩
      calc |-imp.jitterMs + (imp.jitterMs - -imp.jitterMs) * draw|
          = |imp.jitterMs| * |2 * draw - 1| := by rw [← abs_mul]; congr 1; ring
        _ ≤ |imp.jitterMs| * 1 := mul_le_mul_of_nonneg_left hdraw (abs_nonneg _)
        _ = |imp.jitterMs| := mul_one _
    · exact ⟨neg_nonpos.mpr (abs_nonneg _), abs_nonneg _⟩
  have hclip (x : ℚ) : (if x < 0 then 0 else x) = max 0 x := by
    split_ifs with hx
    · exact (max_eq_left hx.le).symm
    · exact (max_eq_right (le_of_not_gt hx)).symm
  rw [Impairment.minDelayS, Impairment.maxDelayS, Impairment.sampleDelayS, hclip]
  constructor
  · exact div_le_div_of_nonneg_right (max_le_max le_rfl (by linarith [hjitter.1])) (by norm_num)
  · exact div_le_div_of_nonneg_right (max_le_max le_rfl (by linarith [hjitter.2])) (by norm_num)

lemma spreadS_nonneg : 0 ≤ imp.spreadS := by
  have h := @sampleDelayS_mem imp 0 le_rfl zero_le_one
  exact sub_nonneg.mpr (h.1.trans h.2)

lemma DrawsInRange.delays {is : List Input} (h : DrawsInRange is) : DelaysInRange imp is :=
  fun t c hmem => sampleDelayS_mem (h t c hmem).1 (h t c hmem).2

/-- Without jitter there is one delay, whatever the draw is. -/
lemma sampleDelayS_of_no_jitter (h : imp.jitterMs = 0) (draw : ℚ) :
    imp.sampleDelayS draw = max 0 imp.baseMs / 1000 := by
  rw [Impairment.sampleDelayS, if_neg (not_not.mpr h), add_zero]
  split_ifs with hneg
  · rw [max_eq_left hneg.le]
  · rw [max_eq_right (le_of_not_gt hneg)]

lemma spreadS_of_no_jitter (h : imp.jitterMs = 0) : imp.spreadS = 0 := by
  rw [Impairment.spreadS, Impairment.maxDelayS, Impairment.minDelayS, h, abs_zero, add_zero,
    sub_zero, sub_self]

lemma delaysInRange_of_no_jitter (h : imp.jitterMs = 0) (is : List Input) :
    DelaysInRange imp is := by
  intro t c _
  rw [sampleDelayS_of_no_jitter h, Impairment.minDelayS, Impairment.maxDelayS, h, abs_zero,
    add_zero, sub_zero]
  exact ⟨le_rfl, le_rfl⟩

/-- When an accepted packet is due. -/
lemma sendAt_mem {t : ℚ} {c : Call} {e : Entry} (h : entryOf imp (.enqueue t c) = some e)
    (hdelays : DelaysInRange imp [.enqueue t c]) :
    t + imp.minDelayS ≤ e.sendAt ∧ e.sendAt ≤ t + imp.maxDelayS := by
  rw [entryOf] at h
  split at h
  · cases h
  · cases h
    have hmem := hdelays t c (List.mem_singleton_self _)
    exact ⟨add_le_add_right hmem.1 t, add_le_add_right hmem.2 t⟩

end Delay

/-! ## The invariant -/

/-- No packet is handed over early, or later than the spread allows; and those that wait will
not be: the loop gets to them in time. -/
structure Prompt (imp : Impairment) (s : Outbox) : Prop where
  sorted : Sorted s
  sent : ∀ h ∈ s.sent, h.entry.sendAt ≤ h.time ∧ h.time ≤ h.entry.sendAt + imp.spreadS
  soon : ∀ e ∈ s.pq, e.sendAt ≤ s.now + imp.maxDelayS
  waiting : s.phase = .waiting → ∀ e ∈ s.pq, s.now ≤ e.sendAt + imp.spreadS
  asleep : ∀ d, s.phase = .sleeping d → s.now ≤ d.sendAt ∧ d.sendAt ≤ s.now + imp.maxDelayS
    ∧ ∀ e ∈ s.pq, d.sendAt ≤ e.sendAt + imp.spreadS
  left : s.phase = .returned → s.pq = []
  /-- the packets leave one after the other -/
  ordered : s.sent.Pairwise fun g h => g.time ≤ h.time
  past : ∀ h ∈ s.sent, h.time ≤ s.now

section Steps

variable {imp : Impairment} {s s' : Outbox} {i : Input}

lemma prompt_works (hs : Prompt imp s) (h : Works s s') : Prompt imp s' := by
  have hspread : 0 ≤ imp.spreadS := spreadS_nonneg
  cases h with
  | leave hphase hpq =>
    exact ⟨hs.sorted, hs.sent, hs.soon, fun hd => absurd hd (by simp),
      fun d hd => absurd hd (by simp), fun _ => hpq, hs.ordered, hs.past⟩
  | @sleep e rest hphase hpq hdue =>
    have hrest : ∀ x ∈ rest, x ∈ s.pq := fun x hx => by simp [hpq, hx]
    refine ⟨sorted_works hs.sorted (.sleep hphase hpq hdue), hs.sent,
      fun x hx => hs.soon x (hrest x hx), fun hd => absurd hd (by simp), fun d hd => ?_,
      fun hd => absurd hd (by simp), hs.ordered, hs.past⟩
    obtain rfl : e = d := by simpa using hd
    refine ⟨hdue.le, hs.soon e (by simp [hpq]), fun x hx => ?_⟩
    have := hs.sorted.head_le hpq (hrest x hx)
    linarith
  | @hand e rest hphase hpq hdue =>
    have hrest : ∀ x ∈ rest, x ∈ s.pq := fun x hx => by simp [hpq, hx]
    have hfront := hs.waiting hphase e (by simp [hpq])
    refine ⟨sorted_works hs.sorted (.hand hphase hpq hdue), fun h hh => ?_,
      fun x hx => hs.soon x (hrest x hx), fun _ x hx => hs.waiting hphase x (hrest x hx),
      fun d hd => absurd (hphase.symm.trans hd) (by simp),
      fun hd => absurd (hphase.symm.trans hd) (by simp), ?_, fun h hh => ?_⟩
    · rcases List.mem_append.mp hh with hh | hh
      · exact hs.sent h hh
      · rw [List.mem_singleton.mp hh]
        exact ⟨hdue, hfront⟩
    · refine List.pairwise_append.mpr ⟨hs.ordered, List.pairwise_singleton _ _, fun g hg h hh => ?_⟩
      rw [List.mem_singleton.mp hh]
      exact hs.past g hg
    · rcases List.mem_append.mp hh with hh | hh
      · exact hs.past h hh
      · rw [List.mem_singleton.mp hh]
  | @wake e hphase =>
    rcases hs.asleep e hphase with ⟨hnow, -, hbehind⟩
    refine ⟨hs.sorted, fun h hh => ?_, fun x hx => ?_, fun _ => hbehind,
      fun d hd => absurd hd (by simp), fun hd => absurd hd (by simp), ?_, fun h hh => ?_⟩
    · rcases List.mem_append.mp hh with hh | hh
      · exact hs.sent h hh
      · rw [List.mem_singleton.mp hh]
        exact ⟨le_rfl, by linarith⟩
    · have := hs.soon x hx
      show x.sendAt ≤ e.sendAt + _
      linarith
    · refine List.pairwise_append.mpr ⟨hs.ordered, List.pairwise_singleton _ _, fun g hg h hh => ?_⟩
      rw [List.mem_singleton.mp hh]
      exact (hs.past g hg).trans hnow
    · rcases List.mem_append.mp hh with hh | hh
      · exact (hs.past h hh).trans hnow
      · rw [List.mem_singleton.mp hh]

/-- While packets wait and the loop is awake, the clock stands still. -/
lemma le_now_of_mayWait {t : ℚ} (ht : s.mayWait t) (hphase : s.phase = .waiting) {e : Entry}
    (he : e ∈ s.pq) : t ≤ s.now := by
  refine ht.2 s.now ?_
  rw [Outbox.nextRun, hphase]
  simp [List.ne_nil_of_mem he]

/-- The clock moves on while the loop waits for a call. -/
lemma prompt_wait (hs : Prompt imp s) {t : ℚ} (ht : s.mayWait t) (b : Bool) :
    Prompt imp { s with now := t, closed := b } where
  sorted := hs.sorted
  sent := hs.sent
  soon e he := (hs.soon e he).trans (add_le_add_left ht.1 _)
  waiting hphase e he := (le_now_of_mayWait ht hphase he).trans (hs.waiting hphase e he)
  asleep d hd := ⟨le_of_asleep ht hd, (hs.asleep d hd).2.1.trans (add_le_add_left ht.1 _),
    (hs.asleep d hd).2.2⟩
  left := hs.left
  ordered := hs.ordered
  past h hh := (hs.past h hh).trans ht.1

/-- **A packet that comes while the loop sleeps** is due at most the spread before the one that
the loop sleeps for. -/
lemma prompt_accept (hs : Prompt imp s) {t : ℚ} {e : Entry} (ht : s.mayWait t)
    (hdue : t + imp.minDelayS ≤ e.sendAt ∧ e.sendAt ≤ t + imp.maxDelayS)
    (hopen : s.phase ≠ .returned) : Prompt imp { s with now := t, pq := heappush s.pq e } := by
  have hw := prompt_wait hs ht s.closed
  have hlow : 0 ≤ imp.minDelayS := div_nonneg (le_max_left _ _) (by norm_num)
  have hspread : 0 ≤ imp.spreadS := spreadS_nonneg
  refine ⟨pairwise_heappush hs.sorted e, hs.sent, fun x hx => ?_, fun hphase x hx => ?_,
    fun d hd => ⟨(hw.asleep d hd).1, (hw.asleep d hd).2.1, fun x hx => ?_⟩,
    fun hd => absurd hd hopen, hs.ordered, hw.past⟩
  · rcases mem_heappush.mp hx with rfl | hx
    · exact hdue.2
    · exact hw.soon x hx
  · rcases mem_heappush.mp hx with rfl | hx
    · show t ≤ _
      linarith [hdue.1]
    · exact hw.waiting hphase x hx
  · rcases mem_heappush.mp hx with rfl | hx
    · have hd' : d.sendAt ≤ t + imp.maxDelayS := (hw.asleep d hd).2.1
      rw [Impairment.spreadS]
      linarith [hdue.1]
    · exact (hw.asleep d hd).2.2 x hx

/-- **Step lemma.** -/
lemma prompt_step (hs : Prompt imp s) (hdelays : DelaysInRange imp [i])
    (hopen : ∀ e ∈ entryOf imp i, s.phase ≠ .returned)
    (hstep : outboxStep imp s i = some s') : Prompt imp s' := by
  cases i with
  | enqueue t c =>
    rw [outboxStep] at hstep
    split at hstep
    next hwait =>
      split at hstep
      next =>
        cases hstep
        exact prompt_wait hs hwait s.closed
      next e hentry =>
        cases hstep
        exact prompt_accept hs hwait (sendAt_mem hentry hdelays) (hopen e hentry)
    next => cases hstep
  | close t =>
    rw [outboxStep] at hstep
    split at hstep
    next hwait =>
      cases hstep
      exact prompt_wait hs hwait true
    next => cases hstep
  | loop => exact prompt_works hs (works_of_loop hstep)

end Steps

/-! ## Runs -/

section Runs

variable {imp : Impairment} {is : List Input} {s : Outbox}

lemma DelaysInRange.last {i : Input} (h : DelaysInRange imp (is ++ [i])) :
    DelaysInRange imp [i] :=
  fun t c hmem => h t c (List.mem_append_right _ hmem)

lemma DelaysInRange.of_append {is' : List Input} (h : DelaysInRange imp (is ++ is')) :
    DelaysInRange imp is :=
  fun t c hmem => h t c (List.mem_append_left _ hmem)

/-- **Run lemma.** -/
lemma prompt_of_trace (hrun : Trace (outboxStep imp) {} is s) (hdelays : DelaysInRange imp is)
    (hopen : Meets (outboxStep imp) {} (FindsOpen imp) is) : Prompt imp s := by
  induction hrun with
  | nil => exact ⟨.nil, by simp, by simp, by simp, by simp, by simp, .nil, by simp⟩
  | @snoc is s i s' run enabled ih =>
    exact prompt_step (ih hdelays.of_append hopen.of_append) hdelays.last (hopen.last run) enabled

/-- A loop that runs in the end has not returned before. -/
lemma findsOpen_of_trace (hrun : Trace (outboxStep imp) {} is s) (hphase : s.phase ≠ .returned) :
    Meets (outboxStep imp) {} (FindsOpen imp) is := by
  have hkeep : ∀ s i s', outboxStep imp s i = some s' → s.phase = .returned →
      s'.phase = .returned := by
    intro s i s' hstep hreturned
    cases steps_of_outboxStep hstep with
    | accept | pass => exact hreturned
    | work hentry hworks =>
      cases hworks with
      | leave | wake => exact absurd hreturned (by simp_all)
      | sleep hw | hand hw => exact absurd (hw.symm.trans hreturned) (by simp)
  refine (hrun.meets_or (D := fun s => s.phase = .returned) ?_ ?_).resolve_right hphase
  · intro is s i s' _ hblocked hstep
    refine hkeep s i s' hstep ?_
    by_contra hopen
    exact hblocked fun _ _ => hopen
  · exact fun _ s i s' _ hs hstep => hkeep s i s' hstep hs

/-- **The emulated delay is off by no more than the spread.** In every run in which no packet
is accepted after the loop has returned, each packet that is not lost is handed over exactly
once, in the order of time, not before it is due and at most the difference between the
greatest and the least delay after it. -/
theorem sentWithinSpread (hrun : Trace (outboxStep imp) {} is s) (hdraws : DrawsInRange is)
    (hopen : Meets (outboxStep imp) {} (FindsOpen imp) is) :
    s.drain.nextRun = none
      ∧ (s.drain.sent.map Handed.entry).Perm (accepted imp is)
      ∧ s.drain.sent.Pairwise (fun g h => g.time ≤ h.time)
      ∧ ∀ h ∈ s.drain.sent, h.entry.sendAt ≤ h.time ∧ h.time ≤ h.entry.sendAt + imp.spreadS := by
  have hdrain : Prompt imp s.drain :=
    runLoop_invariant (fun _ _ => prompt_works) (prompt_of_trace hrun hdraws.delays hopen)
  refine ⟨nextRun_drain s, ?_, hdrain.ordered, hdrain.sent⟩
  rw [← packets_of_rest hdrain.left (nextRun_drain s), packets_drain]
  exact packets_perm_accepted hrun

/-- The clock does not run backwards, and a packet is due a delay after it. -/
lemma now_le_step {i : Input} {s' : Outbox} (hs : Prompt imp s) (hdelays : DelaysInRange imp [i])
    (hstep : outboxStep imp s i = some s') :
    s.now ≤ s'.now ∧ ∀ e ∈ entryOf imp i,
      s.now + imp.minDelayS ≤ e.sendAt ∧ e.sendAt ≤ s'.now + imp.maxDelayS := by
  cases i with
  | enqueue t c =>
    have hdue : ∀ e ∈ entryOf imp (.enqueue t c), _ := fun e he => sendAt_mem he hdelays
    rw [outboxStep] at hstep
    split at hstep
    next hwait =>
      split at hstep
      next hentry =>
        cases hstep
        exact ⟨hwait.1, by simp [hentry]⟩
      next =>
        cases hstep
        exact ⟨hwait.1, fun e he => ⟨(add_le_add_left hwait.1 _).trans (hdue e he).1,
          (hdue e he).2⟩⟩
    next => cases hstep
  | close t =>
    rw [outboxStep] at hstep
    split at hstep
    next hwait =>
      cases hstep
      exact ⟨hwait.1, by simp [entryOf]⟩
    next => cases hstep
  | loop =>
    refine ⟨?_, by simp [entryOf]⟩
    cases works_of_loop hstep with
    | leave | sleep | hand => exact le_rfl
    | wake hphase => exact (hs.asleep _ hphase).1

/-- Without jitter, the packets come in the order in which they are due. -/
lemma accepted_ordered (hjitter : imp.jitterMs = 0) (hrun : Trace (outboxStep imp) {} is s)
    (hopen : Meets (outboxStep imp) {} (FindsOpen imp) is) :
    (accepted imp is).Pairwise (fun d e => d.sendAt ≤ e.sendAt)
      ∧ ∀ e ∈ accepted imp is, e.sendAt ≤ s.now + imp.maxDelayS := by
  have hone : imp.minDelayS = imp.maxDelayS := (sub_eq_zero.mp (spreadS_of_no_jitter hjitter)).symm
  induction hrun with
  | nil => exact ⟨.nil, by simp [accepted]⟩
  | @snoc is s i s' run enabled ih =>
    rcases ih hopen.of_append with ⟨hsorted, hdue⟩
    have hdelays := delaysInRange_of_no_jitter hjitter
    rcases now_le_step (prompt_of_trace run (hdelays is) hopen.of_append) (hdelays [i]) enabled with
      ⟨hnow, hentry⟩
    rw [accepted_concat]
    constructor
    · refine List.pairwise_append.mpr ⟨hsorted, ?_, fun d hd e he => ?_⟩
      · cases entryOf imp i with
        | none => exact .nil
        | some e => exact List.pairwise_singleton _ _
      · have hlow := (hentry e (Option.mem_toList.mp he)).1
        rw [hone] at hlow
        exact (hdue d hd).trans hlow
    · intro e he
      rcases List.mem_append.mp he with he | he
      · exact (hdue e he).trans (add_le_add_left hnow _)
      · exact (hentry e (Option.mem_toList.mp he)).2

/-- Without jitter, packets that are due at different times leave in the order of the calls. -/
lemma sent_drain_of_no_jitter (hjitter : imp.jitterMs = 0) (hrun : Trace (outboxStep imp) {} is s)
    (hopen : Meets (outboxStep imp) {} (FindsOpen imp) is)
    (hapart : (accepted imp is).Pairwise fun d e => d.sendAt ≠ e.sendAt) :
    s.drain.sent = (accepted imp is).map fun e => ⟨e.sendAt, e⟩ := by
  have hdrain : Prompt imp s.drain :=
    runLoop_invariant (fun _ _ => prompt_works)
      (prompt_of_trace hrun (delaysInRange_of_no_jitter hjitter is) hopen)
  have honTime : ∀ h ∈ s.drain.sent, h = ⟨h.entry.sendAt, h.entry⟩ := by
    intro h hh
    rcases hdrain.sent h hh with ⟨hlow, hhigh⟩
    rw [spreadS_of_no_jitter hjitter, add_zero] at hhigh
    rw [← le_antisymm hhigh hlow]
  have hperm : (s.drain.sent.map Handed.entry).Perm (accepted imp is) := by
    rw [← packets_of_rest hdrain.left (nextRun_drain s), packets_drain]
    exact packets_perm_accepted hrun
  have hsorted : (s.drain.sent.map Handed.entry).Pairwise fun d e => d.sendAt ≤ e.sendAt := by
    refine List.pairwise_map.mpr (hdrain.ordered.imp_of_mem fun hg hh hle => ?_)
    rwa [honTime _ hg, honTime _ hh] at hle
  have hentries : s.drain.sent.map Handed.entry = accepted imp is := by
    refine List.Perm.eq_of_pairwise (fun d e hd he hle hge => ?_) hsorted
      (accepted_ordered hjitter hrun hopen).1 hperm
    have : Std.Symm fun d e : Entry => d.sendAt ≠ e.sendAt := ⟨fun _ _ h => h.symm⟩
    by_contra hne
    exact hapart.forall (hperm.mem_iff.mp hd) he hne (le_antisymm hle hge)
  rw [← hentries, List.map_map]
  exact (List.map_id' _).symm.trans (List.map_congr_left honTime)

/-- The calls whose packet is not lost: when they are made, and with what. -/
def keptCalls (imp : Impairment) (is : List Input) : List (ℚ × List UInt8) :=
  is.filterMap fun
    | .enqueue t c => if !c.reliable && imp.drop c.dropDraw then none else some (t, c.payload)
    | .close _ | .loop => none

/-- Without jitter, each packet is due one base delay after its call. -/
lemma accepted_of_no_jitter (hjitter : imp.jitterMs = 0) (is : List Input) :
    accepted imp is
      = (keptCalls imp is).map fun (t, payload) => ⟨t + max 0 imp.baseMs / 1000, payload⟩ := by
  rw [accepted, keptCalls, List.map_filterMap]
  refine List.filterMap_congr fun i _ => ?_
  cases i with
  | enqueue t c =>
    rw [entryOf, sampleDelayS_of_no_jitter hjitter]
    show _ = Option.map _ (if !c.reliable && imp.drop c.dropDraw then none else _)
    cases !c.reliable && imp.drop c.dropDraw <;> rfl
  | close t => rfl
  | loop => rfl

/-- **Without jitter the outbox is a delay line.** If the packets that are not lost are
enqueued at different times, none of them after the loop has returned, they leave in the
order of the calls, each exactly one base delay after its call. -/
theorem delayLine (hjitter : imp.jitterMs = 0) (hrun : Trace (outboxStep imp) {} is s)
    (hopen : Meets (outboxStep imp) {} (FindsOpen imp) is)
    (hapart : (keptCalls imp is).Pairwise fun x y => x.1 ≠ y.1) :
    s.drain.sent.map (fun h => (h.time, h.entry.payload))
      = (keptCalls imp is).map fun (t, payload) => (t + max 0 imp.baseMs / 1000, payload) := by
  have hdue : (accepted imp is).Pairwise fun d e => d.sendAt ≠ e.sendAt := by
    rw [accepted_of_no_jitter hjitter, List.pairwise_map]
    exact hapart.imp fun hne heq => hne (add_left_inj _ |>.mp heq)
  rw [sent_drain_of_no_jitter hjitter hrun hopen hdue, accepted_of_no_jitter hjitter,
    List.map_map, List.map_map]
  rfl

lemma drawsInRange_overtaking : DrawsInRange overtaking := by
  intro t c hmem
  simp only [overtaking, List.mem_cons, Input.enqueue.injEq, reduceCtorEq, List.not_mem_nil,
    or_false, false_or] at hmem
  rcases hmem with ⟨-, rfl⟩ | ⟨-, rfl⟩ <;> norm_num

/-- The packet that waits for a later one leaves 70 ms after it is due, of 100 that the jitter
allows. -/
theorem sentWithinSpread_overtaking :
    overtaken.drain.sent.map (fun h => h.time - h.entry.sendAt) = [0, 7 / 100]
      ∧ jittery.spreadS = 1 / 10
      ∧ ∀ h ∈ overtaken.drain.sent,
        h.entry.sendAt ≤ h.time ∧ h.time ≤ h.entry.sendAt + jittery.spreadS := by
  have hrun : Trace (outboxStep jittery) {} overtaking overtaken :=
    trace_of_foldlM (by decide +kernel)
  refine ⟨by decide +kernel, by decide +kernel, ?_⟩
  exact (sentWithinSpread hrun drawsInRange_overtaking
    (findsOpen_of_trace hrun (by decide))).2.2.2

/-- A delay of 50 ms. -/
def steady : Impairment := { baseMs := 50 }

/-- Two packets, 10 ms apart, and the loop asleep for the first one. -/
def twoCalls : List Input :=
  [.enqueue 0 { payload := [0x62] }, .loop, .enqueue (1 / 100) { payload := [0x61] }]

/-- The outbox after it. -/
def twoQueued : Outbox :=
  { now := 1 / 100, pq := [⟨3 / 50, [0x61]⟩], phase := .sleeping ⟨1 / 20, [0x62]⟩ }

theorem delayLine_twoCalls :
    twoQueued.drain.sent.map (fun h => (h.time, h.entry.payload))
      = [(1 / 20, [0x62]), (3 / 50, [0x61])] := by
  have hrun : Trace (outboxStep steady) {} twoCalls twoQueued := trace_of_foldlM (by decide +kernel)
  have hkept : keptCalls steady twoCalls = [(0, [0x62]), (1 / 100, [0x61])] := by decide +kernel
  rw [delayLine rfl hrun (findsOpen_of_trace hrun (by decide)), hkept]
  · decide +kernel
  · rw [hkept]
    decide +kernel

end Runs

end QuicKeys.Client
