import QuicKeys.Daemon.Datagrams
import QuicKeys.Daemon.Report
import QuicKeys.Daemon.Snapshot
import QuicKeys.Daemon.Watchdog
import QuicKeys.Lib.Registers
import QuicKeys.Lib.Runs

/-!
# The handlers, one after the other

An event is what one handler runs on: the datagram or record that arrived (or the round of
the monitor thread), the reading of the monotonic clock it took, and the iteration order
that its insertions gave the set. `handle` is the handler; `run` executes handlers one
after the other from the start of the daemon.

What a handler can do to the key state is said once, as an `Effect` that depends on the
event alone (`effectOf`, `handle_state`). On the pressed set an effect acts as a write to
one Boolean register for each usage (`writeOf`, `mem_pressed_step`).
-/

namespace QuicKeys.Daemon

/-- What a handler runs on. -/
inductive Message
  | datagram (data : List UInt8)
  | snapshot (data : List UInt8)
  | quicEdge (data : List UInt8)
  | tick
deriving DecidableEq

/-- One run of a handler. -/
structure Event where
  msg : Message
  now : UInt64
  ord : IterOrder UInt8

/-- The handler of an event. -/
def handle (args : Args) (s : KeyState) (e : Event) : Outcome :=
  match e.msg with
  | .datagram data => handleDatagram args e.ord e.now data s
  | .snapshot data => snapshotCallback e.ord e.now data s
  | .quicEdge data => quicEdgeCallback args e.ord e.now data s
  | .tick => watchdogTick args e.now s

/-- The key state after a handler. -/
def step (args : Args) (s : KeyState) (e : Event) : KeyState := (handle args s e).state

/-- The report a handler sends, if it sends one. -/
def emitted (args : Args) (s : KeyState) (e : Event) : Option HidReport8 :=
  if (handle args s e).emit then some (reportOf (step args s e)) else none

/-- The key state after handlers that ran one after the other. -/
def run (args : Args) (es : List Event) : KeyState := es.foldl (step args) {}

lemma run_concat (args : Args) (es : List Event) (e : Event) :
    run args (es ++ [e]) = step args (run args es) e := by
  rw [run, List.foldl_append]
  rfl

/-- The reports that handlers send which run one after the other from `s` on. -/
def reports (args : Args) : KeyState → List Event → List HidReport8
  | _, [] => []
  | s, e :: es => (emitted args s e).toList ++ reports args (step args s e) es

lemma reports_concat (args : Args) (s : KeyState) (es : List Event) (e : Event) :
    reports args s (es ++ [e])
      = reports args s es ++ (emitted args (es.foldl (step args) s) e).toList := by
  induction es generalizing s with
  | nil => exact List.append_nil _
  | cons d es ih => rw [List.cons_append, reports, reports, ih, List.append_assoc]; rfl

/-! ## Some events -/

/-- The binary edge record for key `a` (usage 4), stamped `ms` by the client. -/
def edgeA (down : Bool) (ms : UInt16) (now : UInt64) : Event where
  msg := .quicEdge [0, 0, 0, 0, 0, 0, 0, 0, 0, 0, (ms >>> 8).toUInt8, ms.toUInt8, 0, 4,
    if down then 1 else 0, 0]
  now
  ord := IterOrder.front UInt8

/-- A snapshot with only key `a` pressed: bit 4 of the first byte of the bitmap. -/
def snapshotA (now : UInt64) : Event where
  msg := .snapshot (List.replicate 20 0 ++ 0x10 :: List.replicate 31 0)
  now
  ord := IterOrder.front UInt8

/-- A snapshot with no key pressed. -/
def snapshotNone (now : UInt64) : Event where
  msg := .snapshot (List.replicate 52 0)
  now
  ord := IterOrder.front UInt8

/-- A round of the monitor thread. -/
def tickAt (now : UInt64) : Event where
  msg := .tick
  now
  ord := IterOrder.front UInt8

/-! ## Effects -/

/-- What a handler does to the key state, as far as its input decides it. -/
inductive Effect
  | none
  | mark (usage : UInt8) (tNs : UInt64)
  | edge (mods : Option UInt8) (down : Bool) (usage : UInt8)
  | snapshot (mods : UInt8) (keys : UnorderedSet UInt8)
  | scan

/-- The effect of an event. -/
def effectOf (args : Args) (e : Event) : Effect :=
  match e.msg with
  | .datagram data =>
    match udpVerdict args e.now (data.take bufSize) with
    | .mark usage tNs => .mark usage tNs
    -- datagrams leave the modifiers alone
    | .edge down usage .. => .edge Option.none down usage
    | _ => .none
  | .snapshot data =>
    match decodeSnapshot e.ord data with
    | some (mods, keys) => .snapshot mods keys
    | Option.none => .none
  | .quicEdge data =>
    match quicVerdict args e.now data with
    | .edge mods down usage .. => .edge (some mods) down usage.toUInt8
    | _ => .none
  | .tick => .scan

/-- The key state after an effect. -/
def Effect.apply (args : Args) (e : Event) (s : KeyState) : Effect → KeyState
  | .none => s
  | .mark usage tNs => s.modifyMeta usage fun km => { km with upMarkerNs := some tNs }
  | .edge mods down usage =>
    applyEdge e.ord e.now down usage { s with modifiers := mods.getD s.modifiers }
  | .snapshot mods keys => (reconcile e.now mods keys s).1
  | .scan => (watchdogTick args e.now s).state

/-- Whether a handler with this effect sends a report. -/
def Effect.Emits (args : Args) (e : Event) (s : KeyState) : Effect → Prop
  | .none => False
  | .mark .. => False
  | .edge .. => True
  | .snapshot .. => True
  | .scan => ∃ u ∈ s.pressed, expired args e.now (s.keymeta u) = true

/-- **A handler acts through its effect.** -/
theorem handle_spec (args : Args) (s : KeyState) (e : Event) :
    (handle args s e).state = (effectOf args e).apply args e s
      ∧ ((handle args s e).emit = true ↔ (effectOf args e).Emits args e s) := by
  unfold handle effectOf
  cases e.msg with
  | datagram data =>
    dsimp only [handleDatagram]
    cases udpVerdict args e.now (data.take bufSize) <;>
      simp [Effect.apply, Effect.Emits]
  | snapshot data =>
    dsimp only [snapshotCallback, parseSnapshot]
    cases decodeSnapshot e.ord data <;> simp [Effect.apply, Effect.Emits]
  | quicEdge data =>
    dsimp only [quicEdgeCallback]
    cases quicVerdict args e.now data <;> simp [Effect.apply, Effect.Emits]
  | tick => exact ⟨rfl, watchdogTick_emit args e.now s⟩

lemma step_eq (args : Args) (s : KeyState) (e : Event) :
    step args s e = (effectOf args e).apply args e s := (handle_spec args s e).1

lemma handle_emit (args : Args) (s : KeyState) (e : Event) :
    (handle args s e).emit = true ↔ (effectOf args e).Emits args e s :=
  (handle_spec args s e).2

/-- Which message an effect comes from, where that is decided. -/
inductive Effect.From (e : Event) : Effect → Prop
  | none : From e .none
  | mark {usage : UInt8} {tNs : UInt64} : From e (.mark usage tNs)
  | edge {mods : Option UInt8} {down : Bool} {usage : UInt8} : From e (.edge mods down usage)
  | snapshot {data : List UInt8} {mods : UInt8} {keys : UnorderedSet UInt8}
      (hmsg : e.msg = .snapshot data) (hdec : decodeSnapshot e.ord data = some (mods, keys)) :
      From e (.snapshot mods keys)
  | scan (hmsg : e.msg = .tick) : From e .scan

lemma effectOf_from (args : Args) (e : Event) : (effectOf args e).From e := by
  unfold effectOf
  cases hmsg : e.msg with
  | datagram data =>
    dsimp only
    split
    · exact .mark
    · exact .edge
    · exact .none
  | snapshot data =>
    dsimp only
    split
    · rename_i hdec
      exact .snapshot hmsg hdec
    · exact .none
  | quicEdge data =>
    dsimp only
    split
    · exact .edge
    · exact .none
  | tick => exact .scan hmsg

/-- Only a round of the monitor thread scans. -/
lemma tick_of_scan {args : Args} {e : Event} (h : effectOf args e = .scan) : e.msg = .tick := by
  have hfrom := effectOf_from args e
  rw [h] at hfrom
  cases hfrom with
  | scan hmsg => exact hmsg

lemma handle_of_tick {e : Event} (h : e.msg = .tick) (args : Args) (s : KeyState) :
    handle args s e = watchdogTick args e.now s := by
  rw [handle, h]

/-- A round releases what has expired. -/
lemma mem_pressed_of_tick {args : Args} {s : KeyState} {e : Event} (h : e.msg = .tick)
    {u : UInt8} :
    u ∈ (step args s e).pressed
      ↔ u ∈ s.pressed ∧ expired args e.now (s.keymeta u) = false := by
  rw [step, handle_of_tick h, mem_watchdogTick_pressed]

/-- The lines of a snapshot are those of the reconciliation. -/
lemma log_of_snapshot {args : Args} {e : Event} {mods : UInt8} {keys : UnorderedSet UInt8}
    (h : effectOf args e = .snapshot mods keys) (s : KeyState) :
    (handle args s e).log = (reconcile e.now mods keys s).2 := by
  have hfrom := effectOf_from args e
  rw [h] at hfrom
  cases hfrom with
  | snapshot hmsg hdec =>
    unfold handle
    rw [hmsg]
    dsimp only
    rw [snapshotCallback, parseSnapshot, hdec]
    rfl

/-- Every edge that is accepted sends a report. -/
lemma emitted_of_edge {args : Args} {e : Event} {mods : Option UInt8} {down : Bool}
    {usage : UInt8} (h : effectOf args e = .edge mods down usage) (s : KeyState) :
    emitted args s e = some (reportOf (step args s e)) := by
  rw [emitted, if_pos]
  rw [handle_emit, h]
  trivial

/-! ## The pressed set as Boolean registers -/

/-- The write an effect makes to the register of each usage. -/
def Effect.write (args : Args) (e : Event) (s : KeyState) :
    Effect → Registers.Write UInt8
  | .none => fun _ => Option.none
  | .mark .. => fun _ => Option.none
  | .edge _ down usage => fun u => if u = usage then some down else Option.none
  | .snapshot _ keys => fun u => some (decide (u ∈ keys))
  | .scan => fun u =>
    if u ∈ s.pressed ∧ expired args e.now (s.keymeta u) = true then some false
    else Option.none

/-- The write a handler makes in state `s`. -/
def writeOf (args : Args) (s : KeyState) (e : Event) : Registers.Write UInt8 :=
  (effectOf args e).write args e s

/-- The registers of a key state. -/
def held (s : KeyState) (u : UInt8) : Bool := decide (u ∈ s.pressed)

/-- **Refinement.** On the pressed set, a handler is its write to the registers. -/
theorem held_step (args : Args) (s : KeyState) (e : Event) :
    held (step args s e) = (writeOf args s e).apply (held s) := by
  funext u
  rw [step_eq, writeOf, Registers.Write.apply, held, held]
  cases effectOf args e with
  | none => rfl
  | mark usage tNs => rfl
  | edge mods down usage =>
    simp only [Effect.apply, Effect.write, mem_applyEdge_pressed]
    by_cases hu : u = usage <;> simp [hu]
  | snapshot mods keys => rfl
  | scan =>
    simp only [Effect.apply, Effect.write, mem_watchdogTick_pressed]
    by_cases hp : u ∈ s.pressed <;> by_cases he : expired args e.now (s.keymeta u) = true <;>
      simp [hp, he]

lemma mem_pressed_step (args : Args) (s : KeyState) (e : Event) (u : UInt8) :
    u ∈ (step args s e).pressed
      ↔ (writeOf args s e u).getD (held s u) = true := by
  have h := congrFun (held_step args s e) u
  rw [held, Registers.Write.apply] at h
  rw [← h, decide_eq_true_eq]

/-- How often `u` goes from absent to present in the pressed set. -/
def appearances (args : Args) (u : UInt8) : KeyState → List Event → ℕ
  | _, [] => 0
  | s, e :: es =>
    (if u ∉ s.pressed ∧ u ∈ (step args s e).pressed then 1 else 0)
      + appearances args u (step args s e) es

/-- The writes of a run. -/
def writes (args : Args) : KeyState → List Event → List (Registers.Write UInt8)
  | _, [] => []
  | s, e :: es => writeOf args s e :: writes args (step args s e) es

/-- **The appearances of a key** are the rises of its register. -/
theorem appearances_eq (args : Args) (u : UInt8) (s : KeyState) (es : List Event) :
    appearances args u s es
      = Registers.rises (held s u) (Registers.written (writes args s es) u) := by
  induction es generalizing s with
  | nil => rfl
  | cons e es ih =>
    have hstep := congrFun (held_step args s e) u
    rw [Registers.Write.apply] at hstep
    rw [appearances, ih, writes]
    cases hw : writeOf args s e u with
    | none =>
      rw [hw, Option.getD_none] at hstep
      rw [Registers.written_cons_none hw, hstep, if_neg, Nat.zero_add]
      rw [held, held, decide_eq_decide] at hstep
      exact fun h => h.1 (hstep.mp h.2)
    | some b =>
      rw [hw, Option.getD_some] at hstep
      rw [Registers.written_cons_some hw, Registers.rises_cons, hstep]
      congr 1
      rw [← hstep, held, held]
      by_cases hs : u ∈ s.pressed <;> by_cases hs' : u ∈ (step args s e).pressed <;>
        simp [hs, hs']

/-- Modifiers are written by snapshots and by binary edge records. -/
theorem modifiers_step (args : Args) (s : KeyState) (e : Event) :
    (step args s e).modifiers
      = match effectOf args e with
        | .edge (some mods) _ _ => mods
        | .snapshot mods _ => mods
        | _ => s.modifiers := by
  rw [step_eq]
  cases effectOf args e with
  | none => rfl
  | mark usage tNs => rfl
  | edge mods down usage => cases mods <;> simp [Effect.apply]
  | snapshot mods keys => rfl
  | scan => simp [Effect.apply]

/-- A handler that sends no report leaves the pressed set and the modifiers as they are. -/
theorem quiet_of_not_emit {args : Args} {s : KeyState} {e : Event}
    (h : (handle args s e).emit = false) :
    (step args s e).pressed = s.pressed ∧ (step args s e).modifiers = s.modifiers := by
  have hne : ¬(effectOf args e).Emits args e s := by
    rw [← handle_emit, h]
    exact Bool.false_ne_true
  rw [step_eq]
  cases heff : effectOf args e with
  | none => exact ⟨rfl, rfl⟩
  | mark usage tNs => exact ⟨rfl, rfl⟩
  | edge mods down usage =>
    rw [heff] at hne
    exact absurd trivial hne
  | snapshot mods keys =>
    rw [heff] at hne
    exact absurd trivial hne
  | scan =>
    rw [heff] at hne
    refine ⟨watchdogTick_pressed_of_not_emit _ _ _ ?_, watchdogTick_modifiers _ _ _⟩
    exact Bool.eq_false_iff.mpr (mt (watchdogTick_emit _ _ _).mp hne)

/-- **The last report is up to date**: between handlers it is the one built from the current
key state. -/
theorem eq_reportOf_of_mem_getLast? (args : Args) (s : KeyState) (es : List Event) :
    ∀ r ∈ (reports args s es).getLast?, r = reportOf (es.foldl (step args) s) := by
  induction es using List.reverseRecOn with
  | nil =>
    intro r hr
    cases hr
  | append_singleton es e ih =>
    intro r hr
    rw [reports_concat, emitted] at hr
    rw [List.foldl_append]
    cases hemit : (handle args (es.foldl (step args) s) e).emit with
    | true =>
      rw [hemit, if_pos rfl, Option.toList_some, List.getLast?_concat] at hr
      exact (Option.some.inj hr).symm
    -- a handler that sends nothing leaves what a report shows
    | false =>
      rw [hemit, if_neg Bool.false_ne_true, Option.toList_none, List.append_nil] at hr
      rcases quiet_of_not_emit hemit with ⟨hpressed, hmods⟩
      exact (ih r hr).trans (reportOf_congr hpressed.symm hmods.symm)

/-! ## The entries of `keymeta` -/

/-- The entry of `u` after an effect. -/
def Effect.entry (args : Args) (e : Event) (s : KeyState) (u : UInt8) : Effect → KeyMeta
  | .none => s.keymeta u
  | .mark usage tNs =>
    if u = usage then { s.keymeta u with upMarkerNs := some tNs } else s.keymeta u
  | .edge _ down usage =>
    if u = usage then edgeMeta e.now down (s.keymeta u) else s.keymeta u
  | .snapshot _ keys =>
    if u ∈ keys then { s.keymeta u with pressed := true, lastSnapshotNs := e.now }
    else if u ∈ s.pressed then { s.keymeta u with upMarkerNs := Option.none, pressed := false }
    else s.keymeta u
  | .scan => if u ∈ s.pressed then visitMeta args e.now (s.keymeta u) else s.keymeta u

/-- **Refinement, entry by entry.** -/
theorem keymeta_step (args : Args) (s : KeyState) (e : Event) (u : UInt8) :
    (step args s e).keymeta u = (effectOf args e).entry args e s u := by
  rw [step_eq]
  cases effectOf args e with
  | none => rfl
  | mark usage tNs =>
    exact keymeta_modifyMeta s usage u fun km => { km with upMarkerNs := some tNs }
  | edge mods down usage => exact applyEdge_keymeta _ _ _ _ _ _
  | snapshot mods keys => exact reconcile_keymeta _ _ _ _ _
  | scan => exact watchdogTick_keymeta _ _ _ _

/-! ## The last snapshot of a key -/

/-- **Only snapshots stamp keys**, and they stamp the keys they contain. -/
theorem lastSnapshotNs_step (args : Args) (s : KeyState) (e : Event) (u : UInt8) :
    ((step args s e).keymeta u).lastSnapshotNs
      = match effectOf args e with
        | .snapshot _ keys => if u ∈ keys then e.now else (s.keymeta u).lastSnapshotNs
        | _ => (s.keymeta u).lastSnapshotNs := by
  rw [keymeta_step]
  cases effectOf args e with
  | none => rfl
  | mark usage tNs =>
    simp only [Effect.entry]
    split <;> rfl
  | edge mods down usage =>
    simp only [Effect.entry]
    split <;> rfl
  | snapshot mods keys =>
    simp only [Effect.entry]
    by_cases hk : u ∈ keys
    · rw [if_pos hk, if_pos hk]
    · rw [if_neg hk, if_neg hk]
      split <;> rfl
  | scan =>
    simp only [Effect.entry, visitMeta]
    split
    · split <;> rfl
    · rfl

/-! ## The two representations of "pressed" agree -/

/-- The flag of every key says whether it is in the pressed set. -/
def Consistent (s : KeyState) : Prop := ∀ u, (s.keymeta u).pressed = held s u

lemma consistent_init : Consistent {} := fun _ => rfl

/-- **Every handler keeps the two representations in agreement.** -/
theorem consistent_step {args : Args} {s : KeyState} (hs : Consistent s) (e : Event) :
    Consistent (step args s e) := by
  intro u
  have hu := hs u
  rw [held_step, Registers.Write.apply, writeOf, ← hu, keymeta_step]
  cases effectOf args e with
  | none => rfl
  | mark usage tNs =>
    simp only [Effect.entry, Effect.write]
    split <;> rfl
  | edge mods down usage =>
    simp only [Effect.entry, Effect.write]
    by_cases h : u = usage <;> simp [h, edgeMeta]
  | snapshot mods keys =>
    simp only [Effect.entry, Effect.write]
    by_cases hk : u ∈ keys
    · simp [hk]
    · by_cases hp : u ∈ s.pressed
      · simp [hk, hp]
      · simp [hk, hp, hu, held]
  | scan =>
    simp only [Effect.entry, Effect.write, visitMeta]
    by_cases hp : u ∈ s.pressed <;> by_cases he : expired args e.now (s.keymeta u) = true <;>
      simp [hp, he]

/-- In every reachable state the two representations agree. -/
theorem consistent_run (args : Args) (es : List Event) : Consistent (run args es) :=
  Runs.foldl_invariant (I := Consistent) (fun _ e hs => consistent_step hs e) consistent_init es

end QuicKeys.Daemon
