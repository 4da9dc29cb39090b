import QuicKeys.Client.Decoding

/-!
# Snapshots heal

Whatever happened before, one snapshot brings the daemon's key state in line with the
client's pressed set, and it stays in line as long as the later edges arrive in order and
in time and the watchdog releases nothing.
-/

namespace QuicKeys.Client

open Daemon Runs

/-- What the client does and the daemon processes at once: an edge, a keyup marker or a
snapshot, or a round of the monitor thread. -/
inductive Delivery
  | edge (e : KeyEdge) (t now : UInt64) (ord : IterOrder UInt8)
  | marker (k : Key) (t now : UInt64) (ord : IterOrder UInt8)
  | snapshot (a : SnapshotArgs) (now : UInt64) (ord : IterOrder UInt8)
  | tick (now : UInt64)

/-- The client's pressed set, the daemon's key state, and the modifiers the client put into
its latest snapshot. -/
structure Joint where
  client : UnorderedSet ℤ
  daemon : KeyState
  mods : UInt32

/-- Both sides make one step. -/
def jointStep (args : Args) (j : Joint) : Delivery → Joint
  | .edge e t now ord =>
    { j with
      client := pressedAfter j.client e
      daemon := Daemon.step args j.daemon (edgeEvent (edgeCmd e.down) e.key t now ord) }
  | .marker k t now ord =>
    { j with
      client := (stateMachine (IterOrder.front ℤ) j.client .mup k.name).getD j.client
      daemon := Daemon.step args j.daemon (edgeEvent .mup k t now ord) }
  | .snapshot a now ord =>
    { j with
      daemon := Daemon.step args j.daemon (snapshotEvent a j.client now ord)
      mods := a.mods }
  | .tick now => { j with daemon := Daemon.step args j.daemon (tickAt now) }

/-- Edges are in time, and the watchdog releases nothing. -/
def InTime (args : Args) (j : Joint) : Delivery → Prop
  | .edge _ t now _ => WithinDeadline args now t
  | .marker .. => True
  | .snapshot .. => True
  | .tick now => (handle args j.daemon (tickAt now)).emit = false

/-- The daemon holds the client's keys, its flags say so, and its modifiers are those of the
latest snapshot. -/
structure Synced (j : Joint) : Prop where
  pressed : ∀ z : ℤ, z ∈ j.client ↔ ∃ u ∈ j.daemon.pressed, usageInt u = z
  flags : ∀ u, (j.daemon.keymeta u).pressed = decide (u ∈ j.daemon.pressed)
  modifiers : j.daemon.modifiers = j.mods.toUInt8

/-! ## The simulation -/

/-- The simulation relation: the keys agree usage by usage, and the client's set holds
nothing but usages of keys. -/
structure Simulates (j : Joint) : Prop where
  keysOnly : KeysOnly j.client
  mem_iff : ∀ u, u ∈ j.daemon.pressed ↔ usageInt u ∈ j.client
  consistent : Consistent j.daemon
  modifiers : j.daemon.modifiers = j.mods.toUInt8

lemma Simulates.synced {j : Joint} (h : Simulates j) : Synced j where
  pressed z := by
    constructor
    · intro hz
      rcases h.keysOnly z hz with ⟨k, rfl⟩
      exact ⟨k.usage, (h.mem_iff k.usage).mpr hz, rfl⟩
    · intro hu
      rcases hu with ⟨u, hu, rfl⟩
      exact (h.mem_iff u).mp hu
  flags := h.consistent
  modifiers := h.modifiers

section Steps

variable {args : Args} {j : Joint}

/-- The keys that a snapshot leaves pressed are the client's. -/
lemma mem_pressed_snapshot (hkeys : KeysOnly j.client) (a : SnapshotArgs) (now : UInt64)
    (ord : IterOrder UInt8) (u : UInt8) :
    u ∈ (jointStep args j (.snapshot a now ord)).daemon.pressed ↔ usageInt u ∈ j.client := by
  show u ∈ (Daemon.step args j.daemon (snapshotEvent a j.client now ord)).pressed ↔ _
  rw [step_eq, effectOf_snapshot]
  show u ∈ newPressed ord (bitmapFromPressed j.client) ↔ usageInt u ∈ j.client
  rw [mem_newPressed_bitmapFromPressed, and_iff_right_iff_imp]
  intro hu
  rcases hkeys _ hu with ⟨k, hk⟩
  rw [usageInt_inj.mp hk]
  exact isKeyboardUsage_usage k

/-- A marker leaves the client's set. -/
lemma client_marker (k : Key) (t now : UInt64) (ord : IterOrder UInt8) :
    (jointStep args j (.marker k t now ord)).client = j.client := by
  show (stateMachine _ j.client .mup k.name).getD j.client = j.client
  rw [stateMachine_mup, Option.getD_some]

/-- It leaves the daemon's keys and modifiers, in time or not. -/
lemma daemon_marker (k : Key) (t now : UInt64) (ord : IterOrder UInt8) :
    (jointStep args j (.marker k t now ord)).daemon.pressed = j.daemon.pressed
      ∧ (jointStep args j (.marker k t now ord)).daemon.modifiers = j.daemon.modifiers := by
  have hquiet : (handle args j.daemon (edgeEvent .mup k t now ord)).emit = false := by
    rw [Bool.eq_false_iff, Ne, handle_emit]
    rcases @effectOf_mup args now t k ord with ⟨tNs, heff⟩ | heff <;> rw [heff] <;> exact id
  exact quiet_of_not_emit hquiet

/-- **A snapshot establishes the simulation**, from any state of the daemon that the
handlers can reach. -/
lemma simulates_snapshot (hkeys : KeysOnly j.client) (hcons : Consistent j.daemon)
    (a : SnapshotArgs) (now : UInt64) (ord : IterOrder UInt8) :
    Simulates (jointStep args j (.snapshot a now ord)) where
  keysOnly := hkeys
  mem_iff := mem_pressed_snapshot hkeys a now ord
  consistent := consistent_step hcons _
  modifiers := by
    show (Daemon.step args j.daemon (snapshotEvent a j.client now ord)).modifiers = _
    rw [modifiers_step, effectOf_snapshot]
    rfl

/-- An edge in time keeps it. -/
lemma simulates_edge (h : Simulates j) {e : KeyEdge} {t now : UInt64}
    (htime : WithinDeadline args now t) (ord : IterOrder UInt8) :
    Simulates (jointStep args j (.edge e t now ord)) where
  keysOnly := keysOnly_pressedAfter h.keysOnly e
  mem_iff u := by
    show u ∈ (Daemon.step args j.daemon _).pressed ↔ usageInt u ∈ pressedAfter j.client e
    rw [step_eq, effectOf_edge _ _ htime, mem_pressedAfter]
    simp only [Effect.apply, mem_applyEdge_pressed, usageInt_inj, h.mem_iff]
  consistent := consistent_step h.consistent _
  modifiers := by
    show (Daemon.step args j.daemon _).modifiers = _
    rw [modifiers_step, effectOf_edge _ _ htime]
    exact h.modifiers

/-- A marker keeps it, in time or not. -/
lemma simulates_marker (h : Simulates j) (k : Key) (t now : UInt64) (ord : IterOrder UInt8) :
    Simulates (jointStep args j (.marker k t now ord)) := by
  rcases @daemon_marker args j k t now ord with ⟨hpressed, hmods⟩
  constructor
  · rw [client_marker]
    exact h.keysOnly
  · intro u
    rw [client_marker, hpressed, h.mem_iff]
  · exact consistent_step h.consistent _
  · exact hmods.trans h.modifiers

/-- A round that releases nothing keeps it. -/
lemma simulates_tick (h : Simulates j) {now : UInt64}
    (hquiet : (handle args j.daemon (tickAt now)).emit = false) :
    Simulates (jointStep args j (.tick now)) := by
  rcases quiet_of_not_emit hquiet with ⟨hpressed, hmods⟩
  constructor
  · exact h.keysOnly
  · intro u
    show u ∈ (Daemon.step args j.daemon (tickAt now)).pressed ↔ usageInt u ∈ j.client
    rw [hpressed, h.mem_iff]
  · exact consistent_step h.consistent _
  · exact hmods.trans h.modifiers

/-- **Step lemma.** -/
lemma simulates_step (h : Simulates j) {d : Delivery} (htime : InTime args j d) :
    Simulates (jointStep args j d) := by
  cases d with
  | edge e t now ord => exact simulates_edge h htime ord
  | marker k t now ord => exact simulates_marker h k t now ord
  | snapshot a now ord => exact simulates_snapshot h.keysOnly h.consistent a now ord
  | tick now => exact simulates_tick h htime

end Steps

/-! ## Runs -/

/-- The two sides when the daemon processes the snapshot the client takes after the history
`h`, on top of any run of its handlers. -/
def snapshotted (args : Args) (es : List Event) (h : List KeyEdge) (a : SnapshotArgs)
    (now : UInt64) (ord : IterOrder UInt8) : Joint :=
  jointStep args { client := pressedSet h, daemon := run args es, mods := 0 }
    (.snapshot a now ord)

/-- **Healing.** After a snapshot, whatever the daemon did before, the two sides stay in
line while later edges come in order and in time and the watchdog releases nothing. -/
theorem synced_after_snapshot {args : Args} {es : List Event} {h : List KeyEdge}
    {a : SnapshotArgs} {now : UInt64} {ord : IterOrder UInt8} {ds : List Delivery}
    (htime : Along (jointStep args) (InTime args) (snapshotted args es h a now ord) ds) :
    ∀ pre, pre <+: ds →
      Synced (pre.foldl (jointStep args) (snapshotted args es h a now ord)) := by
  intro pre hprefix
  rcases hprefix with ⟨post, rfl⟩
  -- the prior run only has to leave flags and set in agreement
  refine Simulates.synced (Along.invariant (I := Simulates)
    (fun _ _ hs hd => simulates_step hs hd) ?_ (along_append.mp htime).1)
  exact simulates_snapshot (keysOnly_pressedSet h) (consistent_run args es) a now ord

/-- After a snapshot of key `b`: a round, the release of `b`, a marker, another snapshot. -/
def releaseB : List Delivery :=
  [.tick 3, .edge ⟨false, .letter 1, IterOrder.front ℤ⟩ 4 5 (IterOrder.front UInt8),
    .marker (.letter 1) 4 6 (IterOrder.front UInt8), .snapshot {} 7 (IterOrder.front UInt8)]

/-- The daemon had key `a` pressed when the snapshot of `b` arrived. -/
theorem synced_after_snapshot_releaseB :
    Synced (releaseB.foldl (jointStep {}) (snapshotted {} [edgeA true 0 1]
      [⟨true, .letter 1, IterOrder.front ℤ⟩] {} 2 (IterOrder.front UInt8))) := by
  refine synced_after_snapshot ?_ releaseB (List.prefix_refl _)
  refine ⟨?_, ?_, trivial, trivial, trivial⟩
  · show (handle _ _ _).emit = false
    decide
  · show WithinDeadline _ _ _
    decide +kernel

end QuicKeys.Client
