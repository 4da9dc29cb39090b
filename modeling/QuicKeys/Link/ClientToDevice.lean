import QuicKeys.Client.Healing
import QuicKeys.Link.EndToEnd

/-!
# From the client to the device

The client, the daemon and the device together. A message of the client is processed when it
is made, by a handler that runs to its end. One snapshot whose report gets through puts
the keys the client holds into the device, whatever went wrong before; from then on the
device is in line with the client whenever the bytes sent so far have arrived, as long as
edges come in order and in time, sends succeed and the watchdog releases nothing.
-/

namespace QuicKeys.Link

open Client Daemon Qemu Runs

variable {ρ : Type*}

/-! ## The three parties -/

/-- The client's pressed set, the modifiers of its latest snapshot, and the other two. -/
structure Trio (ρ : Type*) where
  client : UnorderedSet ℤ
  mods : UInt32
  whole : Whole ρ

/-- What happens to the three: a message of the client, or a round of the monitor, whose
handler runs to its end, or something on the link. -/
inductive Act
  | message (d : Delivery) (beatNow : ℤ) (beatConnects : Bool)
  | deliver (n : ℕ)
  | event

/-- The daemon's event for a message. -/
def eventOf (client : UnorderedSet ℤ) : Delivery → Event
  | .edge e t now ord => edgeEvent (edgeCmd e.down) e.key t now ord
  | .marker k t now ord => edgeEvent .mup k t now ord
  | .snapshot a now ord => snapshotEvent a client now ord
  | .tick now => tickAt now

/-- The handler of a message, whose connect and send succeed. -/
def turnOf (client : UnorderedSet ℤ) (d : Delivery) (beatNow : ℤ) (beatConnects : Bool) :
    Turn where
  event := eventOf client d
  connects := true
  sends := true
  beatNow
  beatConnects

/-- The client and the daemon's key state. -/
def Trio.joint (x : Trio ρ) : Joint where
  client := x.client
  daemon := x.whole.main.keys
  mods := x.mods

/-- One step of the three. -/
def trioStep (args : Args) (x : Trio ρ) : Act → Trio ρ
  | .message d beatNow beatConnects =>
    { client := (jointStep args x.joint d).client
      mods := (jointStep args x.joint d).mods
      whole := wholeStep args x.whole (.turn (turnOf x.client d beatNow beatConnects)) }
  | .deliver n => { x with whole := wholeStep args x.whole (.deliver n) }
  | .event => { x with whole := wholeStep args x.whole .event }

/-- Edges are in time, and the watchdog releases nothing. -/
def ActInTime (args : Args) (x : Trio ρ) : Act → Prop
  | .message d _ _ => InTime args x.joint d
  | .deliver _ | .event => True

/-- The three when the daemon processes the snapshot that the client takes after the history
`h`, on top of any run of the daemon and the device. -/
def afterSnapshot (args : Args) (beat₀ : ℤ) (hid : HIDState ρ) (hs : List Happening)
    (h : List KeyEdge) (a : SnapshotArgs) (now : UInt64) (ord : IterOrder UInt8) : Trio ρ :=
  trioStep args
    { client := pressedSet h, mods := 0, whole := wholeRun args beat₀ hid hs }
    (.message (.snapshot a now ord) 0 false)

/-! ## The invariant -/

/-- The daemon simulates the client, it got here by some run, and the last report that was
accepted in it shows the current keys. -/
structure TrioInv (args : Args) (beat₀ : ℤ) (hid : HIDState ρ) (x : Trio ρ) : Prop where
  simulates : Simulates x.joint
  upToDate : ∃ hs, x.whole = wholeRun args beat₀ hid hs
    ∧ UpToDate (acceptedIn args beat₀ hid hs) x.whole.main.keys

section Steps

variable {args : Args} {beat₀ : ℤ} {hid : HIDState ρ} {x : Trio ρ}

/-- On the client and the daemon's keys, a message is a step of the two. -/
lemma joint_message (d : Delivery) (beatNow : ℤ) (beatConnects : Bool) :
    (trioStep args x (.message d beatNow beatConnects)).joint = jointStep args x.joint d := by
  have hkeys : (turn args x.whole.main (turnOf x.client d beatNow beatConnects)).keys
      = (jointStep args x.joint d).daemon := by
    rw [turn_keys]
    cases d <;> rfl
  rw [Trio.joint, trioStep]
  show Joint.mk _ (turn args x.whole.main _).keys _ = _
  rw [hkeys]

/-- A report whose connect and send succeed is accepted. -/
lemma accepts_turnOf {d : Delivery} {beatNow : ℤ} {beatConnects : Bool}
    (h : (handle args x.whole.main.keys (eventOf x.client d)).emit = true) :
    accepts args x.whole.main (turnOf x.client d beatNow beatConnects) = true := by
  have hconnected (m : HidSocket) : (ensureConnected true m).1 = true := by
    unfold ensureConnected
    split <;> rfl
  rw [accepts, turnOf, h, hconnected]
  rfl

lemma upToDate_message {hs : List Happening} (hwhole : x.whole = wholeRun args beat₀ hid hs)
    (d : Delivery) (beatNow : ℤ) (beatConnects : Bool)
    (h : (handle args x.whole.main.keys (eventOf x.client d)).emit = true
      ∨ UpToDate (acceptedIn args beat₀ hid hs) x.whole.main.keys) :
    ∃ hs', (trioStep args x (.message d beatNow beatConnects)).whole = wholeRun args beat₀ hid hs'
      ∧ UpToDate (acceptedIn args beat₀ hid hs')
        (trioStep args x (.message d beatNow beatConnects)).whole.main.keys := by
  refine ⟨hs ++ [.turn (turnOf x.client d beatNow beatConnects)], ?_, ?_⟩
  · rw [wholeRun_concat, ← hwhole]
    rfl
  · rw [acceptedIn_concat, ← hwhole]
    cases hemit : (handle args x.whole.main.keys (eventOf x.client d)).emit with
    | true => exact upToDate_of_accepts (accepts_turnOf hemit) _
    | false =>
      refine upToDate_of_silent (h.resolve_left fun htrue => ?_) hemit
      rw [hemit] at htrue
      cases htrue

/-- **Step lemma.** -/
lemma trioInv_step (h : TrioInv args beat₀ hid x) {act : Act} (htime : ActInTime args x act) :
    TrioInv args beat₀ hid (trioStep args x act) := by
  rcases h.upToDate with ⟨hs, hwhole, hup⟩
  cases act with
  | message d beatNow beatConnects =>
    refine ⟨?_, upToDate_message hwhole d beatNow beatConnects (Or.inr hup)⟩
    rw [joint_message]
    exact simulates_step h.simulates htime
  | deliver n =>
    refine ⟨h.simulates, hs ++ [.deliver n], ?_, ?_⟩
    · rw [wholeRun_concat, ← hwhole]
      rfl
    · rw [acceptedIn_concat, show acceptedStates args _ [.deliver n] = [] from rfl, List.append_nil]
      exact hup
  | event =>
    refine ⟨h.simulates, hs ++ [.event], ?_, ?_⟩
    · rw [wholeRun_concat, ← hwhole]
      rfl
    · rw [acceptedIn_concat, show acceptedStates args _ [.event] = [] from rfl, List.append_nil]
      exact hup

/-- The snapshot establishes the invariant, whatever happened before. -/
lemma trioInv_afterSnapshot (hs : List Happening) (h : List KeyEdge) (a : SnapshotArgs)
    (now : UInt64) (ord : IterOrder UInt8) :
    TrioInv args beat₀ hid (afterSnapshot args beat₀ hid hs h a now ord) := by
  constructor
  · rw [afterSnapshot, joint_message]
    refine simulates_snapshot (keysOnly_pressedSet h) ?_ a now ord
    show Consistent (wholeRun args beat₀ hid hs).main.keys
    rw [wholeRun_keys]
    exact consistent_run _ _
  · have hemit : (handle args (wholeRun args beat₀ hid hs).main.keys
        (eventOf (pressedSet h) (.snapshot a now ord))).emit = true := by
      rw [eventOf, handle_emit, effectOf_snapshot]
      trivial
    exact @upToDate_message ρ args beat₀ hid _ hs rfl _ _ _ (Or.inl hemit)

end Steps

/-! ## Runs -/

/-- The pressed keys of the daemon are those of the client, usage by usage. -/
lemma perm_client {j : Joint} (h : Simulates j) :
    (j.daemon.pressed.toList.map usageInt).Perm j.client.toList := by
  refine (List.perm_ext_iff_of_nodup ?_ j.client.nodup).mpr fun z => ?_
  · exact j.daemon.pressed.nodup.map fun _ _ huv => usageInt_inj.mp huv
  · rw [List.mem_map]
    exact (h.synced.pressed z).symm

/-- The client's keys all have a nonzero usage. -/
lemma ne_zero_of_simulates {j : Joint} (h : Simulates j) : ∀ u ∈ j.daemon.pressed, u ≠ 0 := by
  rintro u hu rfl
  rcases h.keysOnly _ ((h.mem_iff 0).mp hu) with ⟨k, hk⟩
  exact usageInt_usage_ne_zero k hk.symm

/-- So a report shows the first six of them and nothing else. -/
lemma usages_heldKeys {x : Trio ρ} (h : Simulates x.joint) :
    (heldKeys x.whole.main.keys).usages = x.whole.main.keys.pressed.toList.take 6 := by
  rw [heldKeys, List.filter_eq_self]
  intro u hu
  exact decide_eq_true (ne_zero_of_simulates h u (List.mem_of_mem_take hu))

/-- **The device holds the client's keys.** After a snapshot that the daemon processes and
whose report gets through, whatever was lost before, the device holds the client's keys (six
of them, if there are more) and the modifiers of its latest snapshot whenever all bytes sent
so far were handed on, while edges come in order and in time, sends succeed and the watchdog
releases nothing. -/
theorem holdsClientKeys {args : Args} {beat₀ : ℤ} {hid : HIDState ρ} {hs : List Happening}
    {h : List KeyEdge} {a : SnapshotArgs} {now : UInt64} {ord : IterOrder UInt8}
    {acts : List Act}
    (htime : Along (trioStep args) (ActInTime args) (afterSnapshot args beat₀ hid hs h a now ord)
      acts) :
    ∀ pre, pre <+: acts →
      let x := pre.foldl (trioStep args) (afterSnapshot args beat₀ hid hs h a now ord)
      AllDelivered x.whole →
        x.whole.dev.hid.kbd.modifiers = x.mods.toUInt8.toUInt16
          ∧ ∃ keys : List ℤ, keys.Perm x.client.toList
            ∧ (keysDown x.whole.dev.hid.kbd).map usageInt = keys.take 6 := by
  intro pre hpre x hall
  rcases hpre with ⟨post, rfl⟩
  have hinv : TrioInv args beat₀ hid x :=
    Along.invariant (I := TrioInv args beat₀ hid) (fun _ _ hx hact => trioInv_step hx hact)
      (trioInv_afterSnapshot hs h a now ord) (along_append.mp htime).1
  rcases hinv.upToDate with ⟨hs', hwhole, hup⟩
  have hkbd : x.whole.dev.hid.kbd = (heldKeys x.whole.main.keys).kbd := by
    rw [hwhole] at hall hup ⊢
    exact kbd_of_upToDate hall hup
  refine ⟨?_, _, perm_client hinv.simulates, ?_⟩
  · rw [hkbd]
    exact congrArg UInt8.toUInt16 hinv.simulates.modifiers
  · rw [hkbd, keysDown_kbd, usages_heldKeys hinv.simulates, ← List.map_take]
    rfl

/-- Key `b` goes down, and key `c`. -/
def downB : KeyEdge := ⟨true, .letter ⟨1, by decide⟩, IterOrder.front ℤ⟩
def downC : KeyEdge := ⟨true, .letter ⟨2, by decide⟩, IterOrder.front ℤ⟩

/-- After a snapshot of key `b`: its bytes arrive, `c` is pressed, and the bytes for that. -/
def thenPressC : List Act :=
  [.deliver 16, .message (.edge downC 4 5 (IterOrder.front UInt8)) 0 false, .deliver 8]

/-- The three after it, when the device had got `a` before. -/
def pressedC : Trio Unit :=
  thenPressC.foldl (trioStep {}) (afterSnapshot {} 0 { kind := .keyboard, rest := () }
    lossThenSnapshot [downB] {} 3 (IterOrder.front UInt8))

/-- The device ends up with `c` and `b`. -/
theorem holdsClientKeys_thenPressC :
    ∃ keys : List ℤ, keys.Perm [6, 5]
      ∧ (keysDown pressedC.whole.dev.hid.kbd).map usageInt = keys.take 6 := by
  refine (@holdsClientKeys Unit {} 0 { kind := .keyboard, rest := () } lossThenSnapshot [downB] {} 3
    (IterOrder.front UInt8) thenPressC ?_ thenPressC (List.prefix_refl _) ?_).2
  · refine ⟨trivial, ?_, trivial, trivial⟩
    show WithinDeadline _ _ _
    decide +kernel
  · unfold AllDelivered
    decide +kernel

end QuicKeys.Link
