import QuicKeys.Daemon.WatchdogTiming

/-!
# What a `[stuck]` line says

The monitor is to log a key as stuck "when a key remains pressed without a release for more
than `stuck_ms`". It measures from `last_edge_ns`, which every edge writes, releases
included, and which snapshots leave alone. So a key that a snapshot brings back into the
pressed set is logged with the age of the edge before, however short it has been pressed.
-/

namespace QuicKeys.Daemon

open Runs

/-- An accepted edge for `u`. -/
def Edges (args : Args) (e : Event) (u : UInt8) : Prop :=
  ∃ mods down, effectOf args e = .edge mods down u

/-- `u` has been pressed, without leaving the set, since an event more than `stuck_ms` before
`e`. -/
def HeldLong (args : Args) (pre : List Event) (e : Event) (u : UInt8) : Prop :=
  ∃ a d b, pre = a ++ d :: b ∧ d.now.toNat + stuckNs args < e.now.toNat
    ∧ Throughout (step args) (fun s => u ∈ s.pressed) (step args (run args a) d) b

/-- The `[stuck]` lines of a round are about keys that stayed down. -/
def LogsHeldLong (args : Args) (pre : List Event) (e : Event) : Prop :=
  ∀ u age, .stuck u age ∈ (handle args (run args pre) e).log → HeldLong args pre e u

/-- A snapshot that contains `u`, when `u` is not pressed. -/
def BringsBack (args : Args) (pre : List Event) (r : Event) (u : UInt8) : Prop :=
  Reaffirms args r u ∧ u ∉ (run args pre).pressed

/-- A round meets no pressed key that a snapshot brought back within `stuck_ms`, with no edge
since, and whose last edge before that snapshot is overdue and was not reported. -/
def NoStaleReturn (args : Args) (pre : List Event) (e : Event) : Prop :=
  ∀ u ∈ (run args pre).pressed, ∀ a r b, pre = a ++ r :: b → BringsBack args a r u →
    (∀ d ∈ b, ¬Edges args d u) → e.now.toNat ≤ r.now.toNat + stuckNs args →
    stuckDue args e.now ((run args a).keymeta u) = false

/-! ## What the monitor reads -/

section Steps

variable {args : Args} {s : KeyState} {e : Event} {u : UInt8}

lemma lastEdgeNs_of_edges (h : Edges args e u) :
    ((step args s e).keymeta u).lastEdgeNs = e.now := by
  rcases h with ⟨mods, down, heff⟩
  rw [keymeta_step, heff]
  simp only [Effect.entry, if_true]
  rfl

/-- Without an edge, the stamp of the last edge stays, and the key stays reported. -/
lemma keymeta_of_not_edges (h : ¬Edges args e u) :
    ((step args s e).keymeta u).lastEdgeNs = (s.keymeta u).lastEdgeNs
      ∧ ((s.keymeta u).stuckReported = true →
        ((step args s e).keymeta u).stuckReported = true) := by
  rw [keymeta_step]
  cases heff : effectOf args e with
  | none => exact ⟨rfl, id⟩
  | mark usage tNs =>
    rw [Effect.entry]
    split <;> exact ⟨rfl, id⟩
  | edge mods down usage =>
    have hu : u ≠ usage := by
      rintro rfl
      exact h ⟨mods, down, heff⟩
    rw [Effect.entry, if_neg hu]
    exact ⟨rfl, id⟩
  | snapshot mods keys =>
    rw [Effect.entry]
    split
    · exact ⟨rfl, id⟩
    · split <;> exact ⟨rfl, id⟩
  | scan =>
    rw [Effect.entry, visitMeta]
    split
    · split <;> exact ⟨rfl, fun hrep => Bool.or_eq_true_iff.mpr (Or.inl hrep)⟩
    · exact ⟨rfl, id⟩

/-- Only a round reports a key, and it does so because the key is pressed and due. -/
lemma due_of_reported (h : (s.keymeta u).stuckReported = false)
    (h' : ((step args s e).keymeta u).stuckReported = true) :
    e.msg = .tick ∧ u ∈ s.pressed ∧ stuckDue args e.now (s.keymeta u) = true := by
  have hstays : ∀ km : KeyMeta, km.stuckReported = (s.keymeta u).stuckReported →
      km.stuckReported = true → False := by
    intro km hkm hrep
    rw [hkm, h] at hrep
    exact Bool.false_ne_true hrep
  rw [keymeta_step] at h'
  cases heff : effectOf args e with
  | none =>
    rw [heff] at h'
    exact (hstays _ rfl h').elim
  | mark usage tNs =>
    rw [heff, Effect.entry] at h'
    split at h' <;> exact (hstays _ rfl h').elim
  | edge mods down usage =>
    rw [heff, Effect.entry] at h'
    split at h'
    · exact absurd h' Bool.false_ne_true
    · exact (hstays _ rfl h').elim
  | snapshot mods keys =>
    rw [heff, Effect.entry] at h'
    split at h'
    · exact (hstays _ rfl h').elim
    · split at h' <;> exact (hstays _ rfl h').elim
  | scan =>
    refine ⟨tick_of_scan heff, ?_⟩
    rw [heff, Effect.entry] at h'
    split at h'
    · rename_i hu
      refine ⟨hu, ?_⟩
      have hor : ((s.keymeta u).stuckReported || stuckDue args e.now (s.keymeta u)) = true := by
        rw [visitMeta] at h'
        split at h' <;> exact h'
      rwa [h, Bool.false_or] at hor
    · exact (hstays _ rfl h').elim

lemma keeps_lastEdgeNs (args : Args) (u : UInt8) :
    Stamps.Keeps (step args) (fun e => e.now.toNat)
      (fun s => (s.keymeta u).lastEdgeNs.toNat) (fun e => Edges args e u) where
  set _ _ h := congrArg UInt64.toNat (lastEdgeNs_of_edges h)
  keep _ _ h := congrArg UInt64.toNat (keymeta_of_not_edges h).1

/-- A key enters the set through an edge or through a snapshot that contains it. -/
lemma edges_or_reaffirms_of_enters (h : u ∉ s.pressed) (h' : u ∈ (step args s e).pressed) :
    Edges args e u ∨ Reaffirms args e u := by
  rw [mem_pressed_step, writeOf] at h'
  have hheld : held s u = false := decide_eq_false h
  rw [hheld] at h'
  cases heff : effectOf args e with
  | none =>
    rw [heff] at h'
    exact absurd h' Bool.false_ne_true
  | mark usage tNs =>
    rw [heff] at h'
    exact absurd h' Bool.false_ne_true
  | edge mods down usage =>
    rw [heff, Effect.write] at h'
    by_cases hu : u = usage
    · subst hu
      exact Or.inl ⟨mods, down, heff⟩
    · dsimp only at h'
      rw [if_neg hu] at h'
      exact absurd h' Bool.false_ne_true
  | snapshot mods keys =>
    rw [heff] at h'
    exact Or.inr ⟨mods, keys, heff, of_decide_eq_true h'⟩
  | scan =>
    rw [heff, Effect.write] at h'
    dsimp only at h'
    rw [if_neg fun hx => h hx.1] at h'
    exact absurd h' Bool.false_ne_true

lemma not_edges_of_reaffirms (h : Reaffirms args e u) : ¬Edges args e u := by
  rcases h with ⟨mods, keys, heff, -⟩
  rintro ⟨mods', down, heff'⟩
  rw [heff] at heff'
  cases heff'

lemma not_tick_of_reaffirms (h : Reaffirms args e u) : e.msg ≠ .tick := by
  rcases h with ⟨mods, keys, heff, -⟩
  intro htick
  rw [effectOf, htick] at heff
  cases heff

/-- The monitor reads two fields of the entry. -/
lemma stuckDue_congr {now : UInt64} {km km' : KeyMeta} (hlast : km.lastEdgeNs = km'.lastEdgeNs)
    (hrep : km.stuckReported = km'.stuckReported) :
    stuckDue args now km = stuckDue args now km' := by
  rw [stuckDue, stuckDue, hlast, hrep]

lemma not_reported_of_due {now : UInt64} {km : KeyMeta} (h : stuckDue args now km = true) :
    km.stuckReported = false := by
  simp only [stuckDue, Bool.and_eq_true, Bool.not_eq_true'] at h
  exact h.1.2

/-- **The lines of a round** are about the pressed keys that are due. -/
lemma logs_iff (htick : e.msg = .tick) :
    (∃ age, .stuck u age ∈ (handle args s e).log)
      ↔ u ∈ s.pressed ∧ stuckDue args e.now (s.keymeta u) = true := by
  rw [handle_of_tick htick, stuck_mem_log_watchdogTick]

end Steps

/-! ## Runs -/

section Runs

variable {args : Args} {es pre a b : List Event} {e r d : Event} {u : UInt8}

lemma run_append_cons (args : Args) (a : List Event) (r : Event) (b : List Event) :
    run args (a ++ r :: b) = (r :: b).foldl (step args) (run args a) := List.foldl_append

/-- Without an edge, the stamp of the last edge stays, and the key stays reported. -/
lemma keymeta_foldl_of_not_edges (hes : ∀ d ∈ es, ¬Edges args d u) (s : KeyState) :
    ((es.foldl (step args) s).keymeta u).lastEdgeNs = (s.keymeta u).lastEdgeNs
      ∧ ((s.keymeta u).stuckReported = true →
        ((es.foldl (step args) s).keymeta u).stuckReported = true) := by
  refine ⟨UInt64.toNat_inj.mp ((keeps_lastEdgeNs args u).foldl_eq hes), fun hrep => ?_⟩
  refine Along.invariant (C := fun _ d => ¬Edges args d u)
    (I := fun s : KeyState => (s.keymeta u).stuckReported = true) (fun _ _ hs hd => ?_) hrep
    (along_iff_forall_mem.mpr hes)
  exact (keymeta_of_not_edges hd).2 hs

/-- A key that is due, with no edge for it since some state, was due in that state. -/
lemma due_of_due_foldl (hes : ∀ d ∈ es, ¬Edges args d u) {s : KeyState} {now : UInt64}
    (h : stuckDue args now ((es.foldl (step args) s).keymeta u) = true) :
    stuckDue args now (s.keymeta u) = true := by
  rcases keymeta_foldl_of_not_edges hes s with ⟨hlast, hkept⟩
  have hrep : (s.keymeta u).stuckReported = false := by
    rw [Bool.eq_false_iff]
    intro htrue
    have hstill := hkept htrue
    rw [not_reported_of_due h] at hstill
    exact Bool.false_ne_true hstill
  rwa [stuckDue_congr hlast.symm (hrep.trans (not_reported_of_due h).symm)]

/-- What read the clock earlier came earlier. -/
lemma ClockMonotone.split (h : ClockMonotone (a ++ r :: b)) {a' b' : List Event}
    (heq : a ++ r :: b = a' ++ d :: b') (hlt : d.now.toNat < r.now.toNat) :
    ∃ c, a = a' ++ d :: c ∧ b' = c ++ r :: b := by
  rcases List.append_eq_append_iff.mp heq with ⟨c, ha', hr⟩ | ⟨c, ha, hd⟩
  · cases c with
    | nil =>
      rw [(List.cons.inj hr).1] at hlt
      exact absurd hlt (Nat.lt_irrefl _)
    | cons x c =>
      have hmem : d ∈ b := by
        rw [(List.cons.inj hr).2]
        simp
      have hrb := (List.pairwise_append.mp h.toNat).2.1
      have := (List.pairwise_cons.mp hrb).1 d hmem
      omega
  · cases c with
    | nil =>
      rw [(List.cons.inj hd).1] at hlt
      exact absurd hlt (Nat.lt_irrefl _)
    | cons x c =>
      rcases List.cons.inj hd with ⟨rfl, hb'⟩
      exact ⟨c, ha, hb'⟩

/-- A key that was brought back within `stuck_ms` has not been held that long. -/
lemma not_heldLong (hclock : ClockMonotone (a ++ r :: b)) (hback : BringsBack args a r u)
    (hrecent : e.now.toNat ≤ r.now.toNat + stuckNs args) : ¬HeldLong args (a ++ r :: b) e u := by
  rintro ⟨a', d, b', heq, hlong, hheld⟩
  rcases hclock.split heq (by omega) with ⟨c, rfl, rfl⟩
  have hc := hheld c (List.prefix_append _ _)
  apply hback.2
  rwa [run, List.foldl_append, List.foldl_cons]

/-- Behind a snapshot that brought a key back with an overdue edge, the round that finds it
pressed logs it, unless an earlier one did. -/
lemma exists_logs (hback : BringsBack args a r u) (hedges : ∀ d ∈ b, ¬Edges args d u)
    (hdue : stuckDue args e.now ((run args a).keymeta u) = true) (htick : e.msg = .tick)
    (hu : u ∈ (run args (a ++ r :: b)).pressed) :
    ∃ b₁ e' b₂, b ++ [e] = b₁ ++ e' :: b₂ ∧ e'.msg = .tick
      ∧ ∃ age, .stuck u age ∈ (handle args (run args (a ++ r :: b₁)) e').log := by
  by_cases hrep : ((run args (a ++ r :: b)).keymeta u).stuckReported = true
  · have h0 : ¬((run args a).keymeta u).stuckReported = true := by
      rw [not_reported_of_due hdue]
      exact Bool.false_ne_true
    rw [run_append_cons] at hrep
    rcases exists_entry (P := fun s : KeyState => (s.keymeta u).stuckReported = true) h0 hrep with
      ⟨c, x, d, heq, hc, hx⟩
    have hdue' := due_of_reported (Bool.eq_false_iff.mpr hc) (hx [] List.nil_prefix)
    cases c with
    | nil =>
      rw [← (List.cons.inj heq).1] at hdue'
      exact absurd hdue'.1 (not_tick_of_reaffirms hback.1)
    | cons y c =>
      rcases List.cons.inj heq with ⟨rfl, rfl⟩
      refine ⟨c, x, d ++ [e], by simp, hdue'.1, (logs_iff hdue'.1).mpr ?_⟩
      rw [run_append_cons]
      exact hdue'.2
  · refine ⟨b, e, [], rfl, htick, (logs_iff htick).mpr ⟨hu, ?_⟩⟩
    have hnone : ∀ d ∈ r :: b, ¬Edges args d u :=
      List.forall_mem_cons.mpr ⟨not_edges_of_reaffirms hback.1, hedges⟩
    have hlast := (keymeta_foldl_of_not_edges hnone (run args a)).1
    rw [← run_append_cons] at hlast
    rwa [stuckDue_congr hlast ((Bool.eq_false_iff.mpr hrep).trans (not_reported_of_due hdue).symm)]

/-- An edge that is not `stuck_ms` old keeps the monitor from logging its key. -/
lemma not_edges_of_due (hclock : ClockMonotone (pre ++ [e]))
    (hdue : stuckDue args e.now ((run args pre).keymeta u) = true) (hd : d ∈ pre)
    (hrecent : e.now.toNat ≤ d.now.toNat + stuckNs args) : ¬Edges args d u := by
  intro hdu
  have hkeeps := keeps_lastEdgeNs args u
  have hlatest : d.now.toNat ≤ ((run args pre).keymeta u).lastEdgeNs.toNat :=
    hkeeps.latest hclock.of_append.toNat hd hdu
  have hstamp : ((run args pre).keymeta u).lastEdgeNs.toNat ≤ e.now.toNat :=
    hkeeps.le_of_forall (Nat.zero_le _) fun d hd => hclock.le_of_mem hd
  have hold := ((stuckDue_iff_of_le hstamp).mp hdue).2.2.2
  omega

/-- A round logs a key without cause only if a snapshot has just brought it back. -/
lemma heldLong_of_logs (hclock : ClockMonotone (pre ++ [e])) (htick : e.msg = .tick)
    (hcond : NoStaleReturn args pre e) {age : ℚ}
    (hlog : .stuck u age ∈ (handle args (run args pre) e).log) : HeldLong args pre e u := by
  rcases (logs_iff htick).mp ⟨age, hlog⟩ with ⟨hu, hdue⟩
  have hin : u ∈ (pre.foldl (step args) {}).pressed := hu
  rcases exists_entry (P := fun s : KeyState => u ∈ s.pressed) (UnorderedSet.not_mem_empty u)
    hin with ⟨a, x, b, rfl, hout, hheld⟩
  by_cases hlong : x.now.toNat + stuckNs args < e.now.toNat
  · exact ⟨a, x, b, rfl, hlong, hheld⟩
  -- from the entry on there was no edge, so it was a snapshot that brought the key back
  have hedges : ∀ d ∈ x :: b, ¬Edges args d u := by
    intro d hd
    have hxd : x.now.toNat ≤ d.now.toNat := by
      rcases List.mem_cons.mp hd with rfl | hd
      · exact le_rfl
      · have hxb := (List.pairwise_append.mp hclock.of_append.toNat).2.1
        exact (List.pairwise_cons.mp hxb).1 d hd
    exact not_edges_of_due hclock hdue (List.mem_append_right a hd) (by omega)
  have hback : BringsBack args a x u :=
    ⟨(edges_or_reaffirms_of_enters hout (hheld [] List.nil_prefix)).resolve_left
      (hedges x List.mem_cons_self), hout⟩
  have hnot := hcond u hu a x b rfl hback (fun d hd => hedges d (List.mem_cons_of_mem _ hd))
    (by omega)
  rw [run_append_cons] at hdue
  rw [due_of_due_foldl hedges hdue] at hnot
  cases hnot

end Runs

/-- **Exactly the stale returns are logged without cause.** In a run with a nondecreasing
clock every `[stuck]` line is about a key that stayed down for more than `stuck_ms` iff no
round meets a key that a snapshot has just brought back with an overdue edge. -/
theorem logsHeldLong_iff {args : Args} {es : List Event} (hclock : ClockMonotone es) :
    AtTicks (LogsHeldLong args) es ↔ AtTicks (NoStaleReturn args) es := by
  constructor
  · intro h pre e post heq htick u hu a r b hpre hback hedges hrecent
    subst hpre
    by_contra hdue
    rw [Bool.not_eq_false] at hdue
    rcases exists_logs hback hedges hdue htick hu with ⟨b₁, e', b₂, hb, htick', age, hlog⟩
    have hes : es = (a ++ r :: b₁) ++ e' :: (b₂ ++ post) := by
      have hsplit : es = a ++ r :: ((b ++ [e]) ++ post) := by
        rw [heq]
        simp
      rw [hsplit, hb]
      simp
    have hlong := h (a ++ r :: b₁) e' (b₂ ++ post) hes htick' u age hlog
    have hle : e'.now.toNat ≤ e.now.toNat := by
      have hmem : e' ∈ b ++ [e] := by
        rw [hb]
        simp
      rcases List.mem_append.mp hmem with hmem | hmem
      · rw [heq] at hclock
        exact hclock.le_of_mem (List.mem_append_right _ (List.mem_cons_of_mem _ hmem))
      · rw [List.mem_singleton.mp hmem]
    rw [hes] at hclock
    exact not_heldLong hclock.of_append hback (hle.trans hrecent) hlong
  · intro h pre e post heq htick u age hlog
    have hclock' : ClockMonotone (pre ++ [e]) := by
      rw [heq, List.append_cons] at hclock
      exact hclock.of_append
    exact heldLong_of_logs hclock' htick (h pre e post heq htick) hlog

/-- `a` is pressed and released, and a snapshot 400 ms later still contains it. -/
def staleReturn : List Event := [edgeA true 0 1, edgeA false 0 2, snapshotA 400000000]

/-- The condition decides the run in which a round follows at once. -/
theorem logsHeldLong_iff_staleReturn :
    AtTicks (LogsHeldLong {}) (staleReturn ++ [tickAt 400000001])
      ↔ AtTicks (NoStaleReturn {}) (staleReturn ++ [tickAt 400000001]) :=
  logsHeldLong_iff (by unfold ClockMonotone; decide)

/-- The round logs a key that has been pressed for 1 ns. -/
theorem not_logsHeldLong_staleReturn :
    0 < ({} : Args).stuckMs
      ∧ ClockMonotone (staleReturn ++ [tickAt 400000001])
      ∧ ¬AtTicks (LogsHeldLong {}) (staleReturn ++ [tickAt 400000001]) := by
  refine ⟨by decide, by unfold ClockMonotone; decide, fun h => ?_⟩
  have hlogs : ∃ age, .stuck 4 age ∈ (handle {} (run {} staleReturn) (tickAt 400000001)).log :=
    (logs_iff rfl).mpr ⟨by decide, by decide⟩
  rcases hlogs with ⟨age, hlog⟩
  rcases h staleReturn _ [] rfl rfl 4 age hlog with ⟨a, d, b, heq, hlong, hheld⟩
  match a with
  | [] =>
    -- the release follows the press
    rcases List.cons.inj heq with ⟨rfl, rfl⟩
    exact absurd (hheld [edgeA false 0 2] ⟨_, rfl⟩) (by decide)
  | [_] =>
    rcases List.cons.inj heq with ⟨rfl, htail⟩
    rcases List.cons.inj htail with ⟨rfl, rfl⟩
    exact absurd (hheld [] List.nil_prefix) (by decide)
  | [_, _] =>
    rcases List.cons.inj heq with ⟨rfl, htail⟩
    rcases List.cons.inj htail with ⟨rfl, hlast⟩
    rcases List.cons.inj hlast with ⟨rfl, rfl⟩
    exact absurd hlong (by decide)
  | _ :: _ :: _ :: a =>
    have hlen := congrArg List.length heq
    simp [staleReturn] at hlen

end QuicKeys.Daemon
