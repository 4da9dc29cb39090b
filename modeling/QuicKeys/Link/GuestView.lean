import QuicKeys.Link.EndToEnd
import QuicKeys.Qemu.GuestReads

/-!
# From the handlers to the guest

Beside the daemon and the chardev the guest acts: it polls, it sends control requests and it
resets the bus, and the idle timer fires. All of this comes in any order.

What the guest reads is the report of a state the daemon was in, or the empty one: no key that
the daemon never held at one time, and nothing from before a reset.
-/

namespace QuicKeys.Link

open Daemon Qemu

variable {σ : Type*}

/-! ## The system -/

/-- What the guest does to the device, and the timer. -/
inductive GuestInput
  | idleTimer
  | reset
  | control (c : ControlRequest)
  | packet (p : USBPacket)

def GuestInput.usb : GuestInput → UsbInput
  | .idleTimer => .idleTimer
  | .reset => .reset
  | .control c => .control c
  | .packet p => .packet p

/-- What happens on either side of the device. -/
inductive Moment
  | host (h : Happening)
  | guest (g : GuestInput)

/-- One step of the daemon, the device and the guest. -/
def guestStep (core : UsbCore (ControlState σ)) (args : Args) (w : Whole (ControlState σ)) :
    Moment → Whole (ControlState σ)
  | .host h => wholeStep args w h
  | .guest g => { w with dev := usbStep core w.dev g.usb }

/-- A run from the start of the daemon and a device that has got nothing yet. -/
def guestRun (core : UsbCore (ControlState σ)) (args : Args) (beat₀ : ℤ)
    (hid : HIDState (ControlState σ)) (ms : List Moment) : Whole (ControlState σ) :=
  ms.foldl (guestStep core args) { main := { lastBeat := beat₀ }, dev := { hid } }

/-- What happens on the side of the daemon. -/
def hostSide (ms : List Moment) : List Happening :=
  ms.filterMap fun
    | .host h => some h
    | .guest _ => none

/-- `after` is what happened since the last reset, or since the start. -/
def SinceReset (before after : List Moment) : Prop :=
  (before = [] ∨ before.getLast? = some (.guest .reset)) ∧ .guest .reset ∉ after

/-- The report of the last of these states; no key if there is none. -/
def lastReport (seen : List KeyState) : List UInt8 :=
  (seen.getLast?.map fun s => (heldKeys s).report).getD (List.replicate 8 0)

/-- The states whose reports the device has, those since the reset. -/
def freshStates (core : UsbCore (ControlState σ)) (args : Args) (beat₀ : ℤ)
    (hid : HIDState (ControlState σ)) (before after : List Moment) : List KeyState :=
  ((acceptedIn args beat₀ hid (hostSide (before ++ after))).take
    ((guestRun core args beat₀ hid (before ++ after)).delivered / 8)).drop
      ((guestRun core args beat₀ hid before).delivered / 8)

/-! ## The inputs of the device -/

/-- What the device gets in one step. -/
def usbInputs (w : Whole (ControlState σ)) : Moment → List UsbInput
  | .host (.turn _) => []
  | .host (.deliver n) => [.bytes (((wire w.main.hid).drop w.delivered).take n)]
  | .host .event => [.event]
  | .guest g => [g.usb]

section Inputs

variable {core : UsbCore (ControlState σ)} {args : Args} {beat₀ : ℤ}
  {hid : HIDState (ControlState σ)}

lemma guestRun_concat (ms : List Moment) (m : Moment) :
    guestRun core args beat₀ hid (ms ++ [m])
      = guestStep core args (guestRun core args beat₀ hid ms) m := by
  rw [guestRun, List.foldl_append]
  rfl

lemma hostSide_append (ms ms' : List Moment) :
    hostSide (ms ++ ms') = hostSide ms ++ hostSide ms' := List.filterMap_append

/-- The guest does not disturb the daemon and the chardev. -/
lemma guestRun_host (core : UsbCore (ControlState σ)) (args : Args) (beat₀ : ℤ)
    (hid : HIDState (ControlState σ)) (ms : List Moment) :
    (guestRun core args beat₀ hid ms).main = (wholeRun args beat₀ hid (hostSide ms)).main
      ∧ (guestRun core args beat₀ hid ms).delivered
        = (wholeRun args beat₀ hid (hostSide ms)).delivered := by
  induction ms using List.reverseRecOn with
  | nil => exact ⟨rfl, rfl⟩
  | append_singleton ms m ih =>
    rcases ih with ⟨hmain, hdelivered⟩
    rw [guestRun_concat, hostSide_append]
    cases m with
    | host h =>
      rw [show hostSide [.host h] = [h] from rfl, wholeRun_concat, guestStep]
      cases h with
      | turn t => exact ⟨congrArg (turn args · t) hmain, hdelivered⟩
      | deliver n =>
        refine ⟨hmain, ?_⟩
        simp only [wholeStep, hmain, hdelivered]
      | event => exact ⟨hmain, hdelivered⟩
    | guest g =>
      rw [show hostSide [.guest g] = [] from rfl, List.append_nil]
      exact ⟨hmain, hdelivered⟩

/-- The device has made the run over `ins`, and their bytes are those handed on. -/
structure Fed (core : UsbCore (ControlState σ)) (us₀ : USBHIDState (ControlState σ))
    (ins : List UsbInput) (w : Whole (ControlState σ)) : Prop where
  dev : w.dev = usbRun core us₀ ins
  bytes : socketBytes ins = (wire w.main.hid).take w.delivered
  le : w.delivered ≤ (wire w.main.hid).length

/-- **Step lemma.** -/
lemma fed_step (args : Args) {us₀ : USBHIDState (ControlState σ)} {ins : List UsbInput}
    {w : Whole (ControlState σ)} (h : Fed core us₀ ins w) (m : Moment) :
    Fed core us₀ (ins ++ usbInputs w m) (guestStep core args w m) := by
  cases m with
  | host i =>
    cases i with
    | turn t =>
      have hpre : wire w.main.hid <+: wire (turn args w.main t).hid := wire_turn w.main t
      rw [show usbInputs w (.host (.turn t)) = [] from rfl, List.append_nil]
      refine ⟨h.dev, ?_, h.le.trans hpre.length_le⟩
      rcases hpre with ⟨more, hmore⟩
      show socketBytes ins = (wire (turn args w.main t).hid).take w.delivered
      rw [← hmore, List.take_append_of_le_length h.le]
      exact h.bytes
    | deliver n =>
      refine ⟨?_, ?_, ?_⟩
      · rw [usbRun, List.foldl_append]
        exact congrArg (kbdChrRead · _) h.dev
      · have hchunk := List.prefix_iff_eq_take.mp
          (List.take_prefix n ((wire w.main.hid).drop w.delivered))
        show socketBytes (ins ++ [.bytes _]) = (wire w.main.hid).take (w.delivered + _)
        rw [socketBytes_append, h.bytes, List.take_add, ← hchunk]
        exact congrArg _ (List.append_nil _)
      · have hle := h.le
        show w.delivered + _ ≤ (wire w.main.hid).length
        rw [List.length_take, List.length_drop]
        omega
    | event =>
      refine ⟨?_, ?_, h.le⟩
      · rw [usbRun, List.foldl_append]
        exact congrArg kbdChrEvent h.dev
      · rw [socketBytes_append]
        exact (List.append_nil _).trans h.bytes
  | guest g =>
    refine ⟨?_, ?_, h.le⟩
    · rw [usbRun, List.foldl_append]
      exact congrArg (usbStep core · g.usb) h.dev
    · rw [socketBytes_append, show socketBytes (usbInputs w (.guest g)) = [] by cases g <;> rfl,
        List.append_nil]
      exact h.bytes

/-- **Run lemma.** The device gets no reset but from the guest. -/
lemma fed_run (args : Args) {us₀ : USBHIDState (ControlState σ)} {ins : List UsbInput}
    {w : Whole (ControlState σ)} (h : Fed core us₀ ins w) (ms : List Moment) :
    ∃ more, Fed core us₀ (ins ++ more) (ms.foldl (guestStep core args) w)
      ∧ (.guest .reset ∉ ms → ∀ i ∈ more, i ≠ .reset) := by
  induction ms generalizing ins w with
  | nil => exact ⟨[], by rwa [List.append_nil], fun _ i hi => absurd hi List.not_mem_nil⟩
  | cons m ms ih =>
    rcases ih (fed_step args h m) with ⟨more, hfed, hmore⟩
    refine ⟨usbInputs w m ++ more, by rwa [← List.append_assoc], fun hms i hi => ?_⟩
    rcases List.mem_append.mp hi with hi | hi
    · rintro rfl
      refine hms (List.mem_cons.mpr (Or.inl ?_))
      match m, hi with
      | .guest .reset, _ => rfl
    · exact hmore (fun hmem => hms (List.mem_cons_of_mem _ hmem)) i hi

/-- At the start, and right after a reset, the register is empty. -/
lemma fed_before (core : UsbCore (ControlState σ)) (args : Args) (beat₀ : ℤ)
    (hid : HIDState (ControlState σ)) {before after : List Moment} (h : SinceReset before after) :
    ∃ ins, Fed core { hid } ins (guestRun core args beat₀ hid before)
      ∧ (viewAfter core ins).report = List.replicate 8 0 := by
  have hstart : Fed core { hid } [] { main := { lastBeat := beat₀ }, dev := { hid } } :=
    ⟨rfl, rfl, Nat.zero_le _⟩
  rcases h.1 with rfl | hlast
  · exact ⟨[], hstart, rfl⟩
  · rcases List.getLast?_eq_some_iff.mp hlast with ⟨before', rfl⟩
    rcases fed_run args hstart before' with ⟨ins, hfed, -⟩
    refine ⟨ins ++ [.reset], ?_, report_viewAfter_reset ins⟩
    rw [guestRun_concat]
    exact fed_step args hfed (.guest .reset)

end Inputs

/-! ## What the guest reads -/

/-- The guest gets the keys of the state. -/
lemma bootReport_reportOf (s : KeyState) :
    bootReport (reportOf s).bytes.toList = (heldKeys s).report := by
  have hlen : ((heldKeys s).usages ++ List.replicate 6 0).take 6
      = (heldKeys s).report.drop 2 := by
    have hle := (heldKeys s).length_le
    rw [drop_report, List.take_append, List.take_of_length_le hle, List.take_replicate,
      Nat.min_eq_left (Nat.sub_le _ _)]
  rw [bootReport, show (reportOf s).bytes.toList.drop 2 = (reportOf s).slots from rfl,
    filter_slots_reportOf, hlen]
  rfl

/-- The reports of the accepted states, as the guest gets them. -/
lemma bootReport_lastReport (seen : List KeyState) :
    bootReport (((seen.map fun s => (reportOf s).bytes.toList).getLast?).getD
      (List.replicate 8 0)) = lastReport seen := by
  rw [lastReport, List.getLast?_map]
  cases seen.getLast? with
  | none => decide
  | some s => exact bootReport_reportOf s

section Reads

variable {core : UsbCore (ControlState σ)} {args : Args} {beat₀ : ℤ}
  {hid : HIDState (ControlState σ)}

/-- **The register shows the daemon**: it holds the report of the last fresh state. -/
lemma shows_guestRun (hcore : Documented core) (args : Args) (beat₀ : ℤ)
    (hus : Realized ({ hid } : USBHIDState _)) (hkbd : hid.kbd = {}) {before after : List Moment}
    (h : SinceReset before after) :
    ∃ v : View, Shows v (guestRun core args beat₀ hid (before ++ after)).dev.hid
      ∧ bootReport v.report = lastReport (freshStates core args beat₀ hid before after) := by
  set w := guestRun core args beat₀ hid (before ++ after) with hw
  rcases fed_before core args beat₀ hid h with ⟨ins, hfed, hempty⟩
  rcases fed_run args hfed after with ⟨more, hfed', hmore⟩
  have hrun : after.foldl (guestStep core args) (guestRun core args beat₀ hid before) = w := by
    rw [hw, guestRun, guestRun, List.foldl_append]
  rw [hrun] at hfed'
  refine ⟨viewAfter core (ins ++ more), ?_, ?_⟩
  · rw [hfed'.dev]
    exact (simulates_run hcore hus hkbd (ins ++ more)).shows_
  · rcases guestRun_host core args beat₀ hid (before ++ after) with ⟨hmain, -⟩
    have hold : (Blocks.blocks 8 (socketBytes ins)).length
        = (guestRun core args beat₀ hid before).delivered / 8 := by
      rw [Blocks.length_blocks, hfed.bytes, List.length_take, Nat.min_eq_left hfed.le]
    rw [report_viewAfter ins (hmore h.2), hempty, hold, hfed'.bytes, hmain, blocks_wire,
      ← List.map_drop, bootReport_lastReport]
    rfl

/-- Once everything is delivered, a report since the reset shows what is held now. -/
lemma lastReport_of_upToDate {before after : List Moment}
    (hall : AllDelivered (guestRun core args beat₀ hid (before ++ after)))
    (hlast : LastAccepted args beat₀ hid (hostSide (before ++ after)))
    (hfresh : freshStates core args beat₀ hid before after ≠ []) :
    lastReport (freshStates core args beat₀ hid before after)
      = (heldKeys (guestRun core args beat₀ hid (before ++ after)).main.keys).report := by
  rcases guestRun_host core args beat₀ hid (before ++ after) with ⟨hmain, -⟩
  have hlen : (guestRun core args beat₀ hid (before ++ after)).delivered
      = 8 * (acceptedIn args beat₀ hid (hostSide (before ++ after))).length := by
    rw [hall, hmain, length_wire]
  rcases upToDate_of_lastAccepted hlast with ⟨s', hs', hheld⟩
  have hgetLast : (freshStates core args beat₀ hid before after).getLast? = some s' := by
    have hnext := hfresh
    rw [freshStates, hlen, Nat.mul_div_cancel_left _ (by decide), List.take_length] at hnext ⊢
    rw [List.getLast?_drop, if_neg fun hle => hnext (List.drop_eq_nil_iff.mpr hle)]
    exact hs'
  rw [lastReport, hgetLast, hmain, ← hheld]
  rfl

end Reads

/-- **The guest sees the daemon.** However polls, requests, resets and the idle timer come
between the handlers and the pieces of the stream, and whatever is lost: asked for its report,
the device answers with the report of the last state that was accepted and delivered since the
last reset, which is a state the daemon was in, and with no key if there is none; a poll gets
the same or a NAK. That state shows what the daemon holds now if the last report that a handler
sent was accepted and everything is delivered. -/
theorem guestSees {core : UsbCore (ControlState σ)} (hcore : Documented core) (args : Args)
    (beat₀ : ℤ) {hid : HIDState (ControlState σ)} (hus : Realized ({ hid } : USBHIDState _))
    (hkbd : hid.kbd = {}) {before after : List Moment} (hsince : SinceReset before after) :
    let w := guestRun core args beat₀ hid (before ++ after)
    let fresh := freshStates core args beat₀ hid before after
    (∀ s ∈ fresh, ∃ pre, pre <+: eventsOf (hostSide (before ++ after))
        ∧ s = Daemon.run args pre)
      ∧ (∀ c, c.reads core = true → 8 ≤ c.length →
        (usbHidHandleControl core w.dev c).2 = .data (lastReport fresh))
      ∧ (∀ p, p.polls = true → 8 ≤ p.size →
        (usbHidHandleData core.toHidCore w.dev p).2 = .nak
          ∨ (usbHidHandleData core.toHidCore w.dev p).2 = .data (lastReport fresh))
      ∧ (LastAccepted args beat₀ hid (hostSide (before ++ after)) → AllDelivered w → fresh ≠ [] →
        lastReport fresh = (heldKeys w.main.keys).report) := by
  intro w fresh
  rcases shows_guestRun hcore args beat₀ hus hkbd hsince with ⟨v, hshows, hreport⟩
  refine ⟨fun s hs => ?_, fun c hreads hlen => ?_, fun p hpolls hsize => ?_, ?_⟩
  · exact (wholeInv_run args beat₀ hid _).source s (List.mem_of_mem_take (List.mem_of_mem_drop hs))
  · rw [(control_spec_of_reads hcore hshows hreads).2 hlen, hreport]
  · rw [(packet_spec hcore hshows p).2 hpolls hsize, hreport]
    cases v.due with
    | false => exact Or.inl rfl
    | true => exact Or.inr rfl
  · exact fun hlast hall hfresh => lastReport_of_upToDate hall hlast hfresh

/-- The report of a snapshot of key `a` is in part delivered when the guest resets the bus. -/
def untilReset : List Moment :=
  ((lossThenSnapshot.take 3).map .host) ++ [.guest .reset]

/-- The rest of it comes, and the timer fires. -/
def afterReset : List Moment :=
  ((lossThenSnapshot.drop 3).map .host) ++ [.guest .idleTimer]

/-- The guest gets `a`. -/
theorem guestSees_afterReset :
    (usbHidHandleControl lampless (guestRun lampless {} 0
      { kind := .keyboard, rest := { protocol := 1, idle := 0, rest := () } }
      (untilReset ++ afterReset)).dev getReport).2 = .data [0, 0, 4, 0, 0, 0, 0, 0] := by
  have h := @guestSees Unit lampless documented_lampless {} 0
    { kind := .keyboard, rest := { protocol := 1, idle := 0, rest := () } }
    ⟨rfl, rfl, rfl, rfl, rfl⟩ rfl untilReset afterReset
    ⟨Or.inr rfl, by simp [afterReset, lossThenSnapshot]⟩
  refine (h.2.1 getReport (by decide) (by decide)).trans ?_
  decide +kernel

end QuicKeys.Link
