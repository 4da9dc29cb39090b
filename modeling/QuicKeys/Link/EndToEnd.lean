import QuicKeys.Daemon.Resync
import QuicKeys.Link.Framing
import QuicKeys.Link.RoundTrip

/-!
# From the handlers to the device

The daemon, the socket and the device together: handlers run to their end, with connects
and sends that may fail, and the chardev hands the accepted bytes on whenever it likes. A
send that does not fail accepts all 8 bytes.

The device follows the daemon: it goes through states the daemon was in, in order, and skips
those whose report was lost.
-/

namespace QuicKeys.Link

open Daemon Qemu

variable {ρ : Type*}

/-! ## The system -/

/-- What happens: a handler runs to its end, the chardev hands on up to `n` of the accepted
bytes, or reports an open or close event. -/
inductive Happening
  | turn (t : Turn)
  | deliver (n : ℕ)
  | event

/-- The daemon, the device, and how many bytes were handed on. -/
structure Whole (ρ : Type*) where
  main : Main
  dev : USBHIDState ρ
  delivered : ℕ := 0

/-- The part that is the link. -/
def Whole.link (w : Whole ρ) : State ρ where
  hid := w.main.hid
  dev := w.dev
  delivered := w.delivered

/-- One step of the system. -/
def wholeStep (args : Args) (w : Whole ρ) : Happening → Whole ρ
  | .turn t => { w with main := turn args w.main t }
  | .deliver n =>
    let chunk := ((wire w.main.hid).drop w.delivered).take n
    { w with dev := kbdChrRead w.dev chunk, delivered := w.delivered + chunk.length }
  | .event => { w with dev := kbdChrEvent w.dev }

/-- A run from the start of the daemon and a device that has got nothing yet. -/
def wholeRun (args : Args) (beat₀ : ℤ) (hid : HIDState ρ) (hs : List Happening) : Whole ρ :=
  hs.foldl (wholeStep args) { main := { lastBeat := beat₀ }, dev := { hid } }

/-- The events of a run. -/
def eventsOf (hs : List Happening) : List Event :=
  hs.filterMap fun
    | .turn t => some t.event
    | _ => none

/-- The handler sends a report, and the send does not fail. -/
def accepts (args : Args) (m : Main) (t : Turn) : Bool :=
  (handle args m.keys t.event).emit && (ensureConnected t.connects m.hid).1 && t.sends

/-- The key states whose reports were accepted, in order. -/
def acceptedStates (args : Args) : Whole ρ → List Happening → List KeyState
  | _, [] => []
  | w, .turn t :: hs =>
    (if accepts args w.main t then [Daemon.step args w.main.keys t.event] else [])
      ++ acceptedStates args (wholeStep args w (.turn t)) hs
  | w, h :: hs => acceptedStates args (wholeStep args w h) hs

/-! ## What a report shows -/

/-- The keys and modifiers in the report of a key state: the first six keys, without the
usage 0 that stands for an empty slot. -/
def heldKeys (s : KeyState) : HeldKeys where
  usages := (s.pressed.toList.take 6).filter (· ≠ 0)
  modifiers := s.modifiers
  length_le := (List.length_filter_le _ _).trans (List.length_take_le _ _)
  nodup := (s.pressed.nodup.sublist (List.take_sublist _ _)).filter _
  ne_zero _ hu := of_decide_eq_true (List.mem_filter.mp hu).2

lemma kbdOfReport_congr {rep rep' : List UInt8} (hmods : rep.getD 0 0 = rep'.getD 0 0)
    (hkeys : (rep.drop 2).filter (· ≠ 0) = (rep'.drop 2).filter (· ≠ 0)) :
    kbdOfReport rep = kbdOfReport rep' := by
  rw [kbdOfReport, kbdOfReport, hmods, ← packKeys_filter (rep.drop 2), hkeys, packKeys_filter]

/-- A report shows its keys, and its other slots are empty. -/
lemma filter_slots_reportOf (s : KeyState) :
    (reportOf s).slots.filter (· ≠ 0) = (heldKeys s).usages := by
  have hslots : (reportOf s).slots
      = (capture s).1 ++ List.replicate (6 - (capture s).1.length) 0 := by
    rw [reportOf, slots_buildHidReport (by rw [capture_fst]; exact List.length_take_le _ _)]
  rw [hslots, List.filter_append, List.filter_replicate_of_neg (by decide), List.append_nil,
    capture_fst]
  rfl

/-- So does the report of these keys. -/
lemma drop_report (k : HeldKeys) :
    k.report.drop 2 = k.usages ++ List.replicate (6 - k.usages.length) 0 :=
  slots_buildHidReport k.length_le k.modifiers

/-- **A report installs what it shows.** -/
lemma kbdOfReport_reportOf (s : KeyState) :
    kbdOfReport (reportOf s).bytes.toList = (heldKeys s).kbd := by
  rw [← kbdOfReport_report]
  refine kbdOfReport_congr rfl ?_
  have hkeep : (heldKeys s).usages.filter (· ≠ 0) = (heldKeys s).usages := by
    rw [List.filter_eq_self]
    intro u hu
    exact decide_eq_true ((heldKeys s).ne_zero u hu)
  rw [drop_report, List.filter_append, hkeep, List.filter_replicate_of_neg (by decide),
    List.append_nil]
  exact filter_slots_reportOf s

/-- The keys the device holds: the first `keys` entries of `key`. -/
def keysDown (kbd : KbdState) : List UInt8 := kbd.key.toList.take kbd.keys

/-- They are the keys of the report. -/
lemma keysDown_kbd (k : HeldKeys) : keysDown k.kbd = k.usages := by
  have hlen := k.length_le
  rw [keysDown]
  apply List.ext_getElem
  · simp only [List.length_take, Vector.length_toList, HeldKeys.kbd]
    omega
  · intro i hi hi'
    simp [HeldKeys.kbd, List.getD_eq_getElem?_getD, hi']

/-! ## One step -/

section Steps

variable {args : Args}

/-- **What a handler puts on the wire**: the report of the state it leaves, if that is
accepted, and nothing otherwise. -/
lemma turn_sent (m : Main) (t : Turn) :
    (turn args m t).hid.sent = m.hid.sent
      ++ if accepts args m t then
        [⟨reportOf (Daemon.step args m.keys t.event), 8, by decide, by decide⟩]
      else [] := by
  have hbeat : (turn args m t).hid.sent = (Daemon.answer args m t).hid.sent := by
    unfold turn
    dsimp only
    split
    · exact ensureConnected_sent _ _
    · rfl
  rw [hbeat, Daemon.answer, accepts]
  dsimp only
  cases (handle args m.keys t.event).emit with
  | false => simp
  | true =>
    rw [if_pos rfl, sendReport_sent]
    congr 1
    cases (ensureConnected t.connects m.hid).1 <;> cases t.sends <;> rfl

/-- The wire only grows. -/
lemma wire_turn (m : Main) (t : Turn) : wire m.hid <+: wire (turn args m t).hid := by
  rw [wire, wire, turn_sent, List.map_append, List.flatten_append]
  exact List.prefix_append _ _

lemma inStep_wholeStep {w : Whole ρ} (h : InStep w.link) (i : Happening) :
    InStep (wholeStep args w i).link := by
  cases i with
  | turn t =>
    have hpre : wire w.main.hid <+: wire (turn args w.main t).hid := wire_turn w.main t
    refine ⟨?_, h.le.trans hpre.length_le⟩
    rcases hpre with ⟨more, hmore⟩
    show Received ((wire (turn args w.main t).hid).take w.delivered) w.dev
    have hle : w.delivered ≤ (wire w.main.hid).length := h.le
    rw [← hmore, List.take_append_of_le_length hle]
    exact h.received
  -- the two other steps are those of the link
  | deliver n => exact inStep_step h (.deliver n)
  | event => exact inStep_step h .event

end Steps

/-! ## Runs -/

section Runs

variable {args : Args} {beat₀ : ℤ} {hid : HIDState ρ}

lemma wholeRun_concat (hs : List Happening) (i : Happening) :
    wholeRun args beat₀ hid (hs ++ [i]) = wholeStep args (wholeRun args beat₀ hid hs) i := by
  rw [wholeRun, List.foldl_append]
  rfl

lemma eventsOf_append (hs hs' : List Happening) :
    eventsOf (hs ++ hs') = eventsOf hs ++ eventsOf hs' := List.filterMap_append

lemma acceptedStates_concat (w : Whole ρ) (hs : List Happening) (i : Happening) :
    acceptedStates args w (hs ++ [i])
      = acceptedStates args w hs ++ acceptedStates args (hs.foldl (wholeStep args) w) [i] := by
  induction hs generalizing w with
  | nil => rfl
  | cons h hs ih =>
    cases h with
    | turn t => rw [List.cons_append, acceptedStates, acceptedStates, ih, List.append_assoc]; rfl
    | deliver n => exact ih _
    | event => exact ih _

/-- The daemon does what its handlers do, whatever becomes of the reports. -/
lemma wholeRun_keys (hs : List Happening) :
    (wholeRun args beat₀ hid hs).main.keys = Daemon.run args (eventsOf hs) := by
  induction hs using List.reverseRecOn with
  | nil => rfl
  | append_singleton hs i ih =>
    rw [wholeRun_concat, eventsOf_append]
    cases i with
    | turn t =>
      show (turn args _ t).keys = Daemon.run args (eventsOf hs ++ [t.event])
      rw [turn_keys, ih, run_concat]
    | deliver n => rw [show eventsOf [.deliver n] = [] from rfl, List.append_nil, ← ih]; rfl
    | event => rw [show eventsOf [.event] = [] from rfl, List.append_nil, ← ih]; rfl

/-- What holds in every run, where `acc` are the states whose reports were accepted. -/
structure WholeInv (args : Args) (kbd₀ : KbdState) (events : List Event) (acc : List KeyState)
    (w : Whole ρ) : Prop where
  sent : w.main.hid.sent.map Sent.bytes = acc.map fun s => (reportOf s).bytes.toList
  inStep : InStep w.link
  installed : Installed kbd₀ w.dev
  source : ∀ s ∈ acc, ∃ pre, pre <+: events ∧ s = Daemon.run args pre

/-- **Step lemma.** -/
lemma wholeInv_step {kbd₀ : KbdState} {events : List Event} {acc : List KeyState} {w : Whole ρ}
    (hkeys : w.main.keys = Daemon.run args events) (h : WholeInv args kbd₀ events acc w)
    (i : Happening) :
    WholeInv args kbd₀ (events ++ eventsOf [i]) (acc ++ acceptedStates args w [i])
      (wholeStep args w i) := by
  have hsource : ∀ s ∈ acc, ∃ pre, pre <+: events ++ eventsOf [i] ∧ s = Daemon.run args pre := by
    intro s hs
    rcases h.source s hs with ⟨pre, hpre, rfl⟩
    exact ⟨pre, hpre.trans (List.prefix_append _ _), rfl⟩
  cases i with
  | turn t =>
    refine ⟨?_, inStep_wholeStep h.inStep _, h.installed, ?_⟩
    · show (turn args w.main t).hid.sent.map Sent.bytes = _
      rw [turn_sent, List.map_append, h.sent, List.map_append, acceptedStates, acceptedStates,
        List.append_nil]
      congr 1
      cases accepts args w.main t with
      | false => rfl
      | true =>
        show [Sent.bytes _] = _
        rw [Sent.bytes_of_count_eq rfl]
        rfl
    · intro s hs
      rcases List.mem_append.mp hs with hs | hs
      · exact hsource s hs
      · rw [acceptedStates, acceptedStates, List.append_nil] at hs
        split at hs
        · refine ⟨events ++ [t.event], List.prefix_rfl, ?_⟩
          rw [List.mem_singleton.mp hs, run_concat, hkeys]
        · exact absurd hs List.not_mem_nil
  | deliver n =>
    rw [show acceptedStates args w [.deliver n] = [] from rfl, List.append_nil]
    exact ⟨h.sent, inStep_wholeStep h.inStep _, installed_read h.installed _, hsource⟩
  | event =>
    rw [show acceptedStates args w [.event] = [] from rfl, List.append_nil]
    exact ⟨h.sent, inStep_wholeStep h.inStep _, h.installed, hsource⟩

/-- The states of a run whose reports were accepted. -/
def acceptedIn (args : Args) (beat₀ : ℤ) (hid : HIDState ρ) (hs : List Happening) :
    List KeyState :=
  acceptedStates args { main := { lastBeat := beat₀ }, dev := { hid } } hs

/-- **Run lemma.** -/
lemma wholeInv_run (args : Args) (beat₀ : ℤ) (hid : HIDState ρ) (hs : List Happening) :
    WholeInv args hid.kbd (eventsOf hs) (acceptedIn args beat₀ hid hs)
      (wholeRun args beat₀ hid hs) := by
  induction hs using List.reverseRecOn with
  | nil =>
    refine ⟨rfl, ⟨?_, Nat.zero_le _⟩, rfl, fun s hs => absurd hs List.not_mem_nil⟩
    exact received_nil rfl rfl
  | append_singleton hs i ih =>
    rw [wholeRun_concat, acceptedIn, acceptedStates_concat, eventsOf_append]
    exact wholeInv_step (wholeRun_keys hs) ih i

/-- The blocks of the wire are the reports of the accepted states. -/
lemma blocks_wire (args : Args) (beat₀ : ℤ) (hid : HIDState ρ) (hs : List Happening) (n : ℕ) :
    Blocks.blocks 8 ((wire (wholeRun args beat₀ hid hs).main.hid).take n)
      = ((acceptedIn args beat₀ hid hs).take (n / 8)).map fun s => (reportOf s).bytes.toList := by
  have hlen : ∀ b ∈ (acceptedIn args beat₀ hid hs).map fun s => (reportOf s).bytes.toList,
      b.length = 8 := by
    intro b hb
    rcases List.mem_map.mp hb with ⟨s, -, rfl⟩
    exact HidReport8.length_toList _
  rw [wire, (wholeInv_run args beat₀ hid hs).sent, Blocks.blocks_take_flatten (by decide) hlen,
    List.map_take]

/-- The reports that were applied are those of the first accepted states. -/
lemma applied_wholeRun (args : Args) (beat₀ : ℤ) (hid : HIDState ρ) (hs : List Happening) :
    let w := wholeRun args beat₀ hid hs
    w.dev.applied = ((acceptedIn args beat₀ hid hs).take (w.delivered / 8)).map
      fun s => (reportOf s).bytes.toList := by
  intro w
  have happlied : w.dev.applied = Blocks.blocks 8 ((wire w.main.hid).take w.delivered) :=
    (wholeInv_run args beat₀ hid hs).inStep.received.applied
  rw [happlied, blocks_wire]

/-- The device holds what the last of them shows. -/
lemma kbd_wholeRun (args : Args) (beat₀ : ℤ) (hid : HIDState ρ) (hs : List Happening) :
    let w := wholeRun args beat₀ hid hs
    w.dev.hid.kbd = (((acceptedIn args beat₀ hid hs).take (w.delivered / 8)).getLast?.map
      fun s => (heldKeys s).kbd).getD hid.kbd := by
  intro w
  have hinstalled : w.dev.hid.kbd = _ := (wholeInv_run args beat₀ hid hs).installed
  rw [hinstalled, applied_wholeRun, List.getLast?_map, Option.map_map]
  congr 2
  funext s
  exact kbdOfReport_reportOf s

/-- **The device follows the daemon.** In every run, whatever fails on the way and however
the bytes are handed on, the device has applied the reports of the first states whose
reports were accepted, in order and once each; each of these is a state the daemon was in
after one of its handlers, and the device holds the keys and modifiers of the last of them. -/
theorem follows (args : Args) (beat₀ : ℤ) (hid : HIDState ρ) (hs : List Happening) :
    let w := wholeRun args beat₀ hid hs
    let seen := (acceptedIn args beat₀ hid hs).take (w.delivered / 8)
    w.dev.applied = seen.map (fun s => (reportOf s).bytes.toList)
      ∧ w.dev.hid.kbd = (seen.getLast?.map fun s => (heldKeys s).kbd).getD hid.kbd
      ∧ ∀ s ∈ seen, ∃ pre, pre <+: eventsOf hs ∧ s = Daemon.run args pre := by
  intro w seen
  have hinv := wholeInv_run args beat₀ hid hs
  exact ⟨applied_wholeRun args beat₀ hid hs, kbd_wholeRun args beat₀ hid hs,
    fun s hs => hinv.source s (List.mem_of_mem_take hs)⟩

end Runs

/-! ## Catching up -/

/-- All bytes of the wire were handed on. -/
def AllDelivered (w : Whole ρ) : Prop := w.delivered = (wire w.main.hid).length

/-- A handler that sends nothing. -/
def Silent (args : Args) (s : KeyState) (e : Event) : Prop := (handle args s e).emit = false

/-- The last report that a handler sent was accepted. -/
def LastAccepted (args : Args) (beat₀ : ℤ) (hid : HIDState ρ) (hs : List Happening) : Prop :=
  ∃ pre t post, hs = pre ++ .turn t :: post
    ∧ accepts args (wholeRun args beat₀ hid pre).main t = true
    ∧ Runs.Along (Daemon.step args) (Silent args) (Daemon.run args (eventsOf (pre ++ [.turn t])))
      (eventsOf post)

/-- The last accepted state shows what is held now. -/
def UpToDate (acc : List KeyState) (s : KeyState) : Prop :=
  ∃ s' ∈ acc.getLast?, heldKeys s' = heldKeys s

section CatchingUp

variable {args : Args} {beat₀ : ℤ} {hid : HIDState ρ}

lemma heldKeys_congr {s s' : KeyState} (hp : s.pressed = s'.pressed)
    (hm : s.modifiers = s'.modifiers) : heldKeys s = heldKeys s' := by
  simp only [heldKeys, hp, hm]

lemma upToDate_of_accepts {w : Whole ρ} {t : Turn} (h : accepts args w.main t = true)
    (acc : List KeyState) :
    UpToDate (acc ++ acceptedStates args w [.turn t]) (wholeStep args w (.turn t)).main.keys := by
  have hlast : acceptedStates args w [.turn t] = [Daemon.step args w.main.keys t.event] := by
    rw [acceptedStates, acceptedStates, if_pos h, List.append_nil]
  refine ⟨Daemon.step args w.main.keys t.event, ?_, ?_⟩
  · rw [hlast, List.getLast?_concat]
    rfl
  · show _ = heldKeys (turn args w.main t).keys
    rw [turn_keys]

/-- A handler that sends nothing shows nothing new. -/
lemma upToDate_of_silent {w : Whole ρ} {t : Turn} {acc : List KeyState}
    (h : UpToDate acc w.main.keys) (hsilent : Silent args w.main.keys t.event) :
    UpToDate (acc ++ acceptedStates args w [.turn t]) (wholeStep args w (.turn t)).main.keys := by
  have hnone : acceptedStates args w [.turn t] = [] := by
    rw [acceptedStates, acceptedStates, accepts, show (handle args _ _).emit = false from hsilent]
    rfl
  rcases quiet_of_not_emit hsilent with ⟨hpressed, hmods⟩
  rcases h with ⟨s', hs', hheld⟩
  refine ⟨s', by rwa [hnone, List.append_nil], ?_⟩
  show _ = heldKeys (turn args w.main t).keys
  rw [hheld, turn_keys]
  exact heldKeys_congr hpressed.symm hmods.symm

lemma acceptedIn_concat (hs : List Happening) (i : Happening) :
    acceptedIn args beat₀ hid (hs ++ [i])
      = acceptedIn args beat₀ hid hs ++ acceptedStates args (wholeRun args beat₀ hid hs) [i] :=
  acceptedStates_concat _ hs i

lemma upToDate_of_lastAccepted {hs : List Happening} (h : LastAccepted args beat₀ hid hs) :
    UpToDate (acceptedIn args beat₀ hid hs) (wholeRun args beat₀ hid hs).main.keys := by
  rcases h with ⟨pre, t, post, rfl, haccepts, hsilent⟩
  rw [List.append_cons]
  induction post using List.reverseRecOn with
  | nil =>
    rw [List.append_nil, acceptedIn_concat, wholeRun_concat]
    exact upToDate_of_accepts haccepts _
  | append_singleton post i ih =>
    rw [eventsOf_append post, Runs.along_append] at hsilent
    have ih' := ih hsilent.1
    rw [← List.append_assoc, acceptedIn_concat, wholeRun_concat]
    cases i with
    | turn t' =>
      refine upToDate_of_silent ih' ?_
      rw [wholeRun_keys, eventsOf_append, Daemon.run, List.foldl_append]
      exact hsilent.2.1
    | deliver n =>
      rw [show acceptedStates args _ [.deliver n] = [] from rfl, List.append_nil]
      exact ih'
    | event =>
      rw [show acceptedStates args _ [.event] = [] from rfl, List.append_nil]
      exact ih'

/-- Every accepted report is 8 bytes on the wire. -/
lemma length_wire (hs : List Happening) :
    (wire (wholeRun args beat₀ hid hs).main.hid).length
      = 8 * (acceptedIn args beat₀ hid hs).length := by
  have heights : List.length ∘ (fun s => (reportOf s).bytes.toList) = fun _ => 8 :=
    funext fun s => HidReport8.length_toList _
  rw [wire, (wholeInv_run args beat₀ hid hs).sent, List.length_flatten, List.map_map, heights,
    List.map_const', List.sum_replicate_nat, Nat.mul_comm]

/-- Once everything is delivered, the device holds what the last accepted report shows. -/
lemma kbd_of_upToDate {hs : List Happening} (hall : AllDelivered (wholeRun args beat₀ hid hs))
    (h : UpToDate (acceptedIn args beat₀ hid hs) (wholeRun args beat₀ hid hs).main.keys) :
    (wholeRun args beat₀ hid hs).dev.hid.kbd
      = (heldKeys (wholeRun args beat₀ hid hs).main.keys).kbd := by
  have hlen : (wholeRun args beat₀ hid hs).delivered
      = 8 * (acceptedIn args beat₀ hid hs).length := Eq.trans hall (length_wire hs)
  rcases h with ⟨s', hs', hheld⟩
  rw [kbd_wholeRun, hlen, Nat.mul_div_cancel_left _ (by decide), List.take_length,
    Option.mem_def.mp hs', ← hheld]
  rfl

/-- **The device catches up.** If the last report that a handler sent was accepted, whatever
became of the ones before it, the device holds exactly the current modifiers and the first
six of the keys that are pressed once all bytes were handed on. -/
theorem caughtUp {hs : List Happening} (hlast : LastAccepted args beat₀ hid hs)
    (hall : AllDelivered (wholeRun args beat₀ hid hs)) :
    let kbd := (wholeRun args beat₀ hid hs).dev.hid.kbd
    let s := Daemon.run args (eventsOf hs)
    kbd.modifiers = s.modifiers.toUInt16
      ∧ keysDown kbd = (s.pressed.toList.take 6).filter (· ≠ 0)
      ∧ (s.pressed.toList.length ≤ 6 → ∀ u, u ∈ keysDown kbd ↔ u ≠ 0 ∧ u ∈ s.pressed) := by
  intro kbd s
  have hkbd : kbd = (heldKeys s).kbd := by
    have hfinal := kbd_of_upToDate hall (upToDate_of_lastAccepted hlast)
    rwa [wholeRun_keys] at hfinal
  have hkeys : keysDown kbd = (s.pressed.toList.take 6).filter (· ≠ 0) := by
    rw [hkbd, keysDown_kbd]
    rfl
  refine ⟨by rw [hkbd]; rfl, hkeys, fun hfew u => ?_⟩
  rw [hkeys, List.take_of_length_le hfew, List.mem_filter, decide_eq_true_eq, and_comm]
  exact Iff.rfl

end CatchingUp

/-- A press of `a` whose report is lost, and a snapshot of `a` whose report arrives in two
pieces, on a connection that was opened for it. -/
def lossThenSnapshot : List Happening :=
  [.turn
      { event := edgeA true 0 1
        connects := false
        sends := true
        beatNow := 0
        beatConnects := false },
    .turn
      { event := snapshotA 2
        connects := true
        sends := true
        beatNow := 0
        beatConnects := false },
    .deliver 3, .event, .deliver 5]

/-- The device ends up with `a`. -/
theorem caughtUp_lossThenSnapshot :
    keysDown (wholeRun (ρ := Unit) {} 0 { kind := .keyboard, rest := () }
      lossThenSnapshot).dev.hid.kbd = [4] := by
  have h := @caughtUp Unit {} 0 { kind := .keyboard, rest := () } lossThenSnapshot
    ⟨lossThenSnapshot.take 1, _, lossThenSnapshot.drop 2, rfl, rfl, trivial⟩ rfl
  rw [h.2.1]
  decide

end QuicKeys.Link
