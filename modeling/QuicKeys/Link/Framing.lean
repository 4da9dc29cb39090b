import QuicKeys.Daemon.HidSocket
import QuicKeys.Lib.Runs
import QuicKeys.Qemu.KbdSocket

/-!
# From the HID socket to the device

The daemon puts reports on a stream, the device cuts the stream into blocks of 8 bytes.
Neither side marks where a report begins: the daemon takes a short send for a complete
one, and the device keeps a partial report across connections. So the blocks are reports
until the first short send, and none is from there on.
-/

namespace QuicKeys.Link

open Daemon Qemu

variable {ρ : Type*}

/-- What happens on the link: a call of `send_report`, the chardev handing on up to `n` of
the accepted bytes, and an open or close event. -/
inductive Input
  | send (connects : Bool) (res : SendResult) (r : HidReport8)
  | deliver (n : ℕ)
  | event

/-- The two ends, and how many bytes were handed on. -/
structure State (ρ : Type*) where
  hid : HidSocket := {}
  dev : USBHIDState ρ
  delivered : ℕ := 0

/-- The bytes the daemon has put on its connections. -/
def wire (h : HidSocket) : List UInt8 := (h.sent.map Sent.bytes).flatten

/-- One step of the link. -/
def step (s : State ρ) : Input → State ρ
  | .send connects res r => { s with hid := sendReport connects res r s.hid }
  | .deliver n =>
    let chunk := ((wire s.hid).drop s.delivered).take n
    { s with dev := kbdChrRead s.dev chunk, delivered := s.delivered + chunk.length }
  | .event => { s with dev := kbdChrEvent s.dev }

/-- A run from a device that has got nothing yet. -/
def run (hid : HIDState ρ) (ins : List Input) : State ρ := ins.foldl step { dev := { hid } }

/-! ## The two ends agree on the stream -/

/-- The device has received the first `delivered` bytes of the wire. -/
structure InStep (s : State ρ) : Prop where
  received : Received ((wire s.hid).take s.delivered) s.dev
  le : s.delivered ≤ (wire s.hid).length

/-- Sending only appends to the wire. -/
lemma wire_sendReport (connects : Bool) (res : SendResult) (r : HidReport8) (h : HidSocket) :
    wire h <+: wire (sendReport connects res r h) := by
  rw [wire, wire, sendReport_sent, List.map_append, List.flatten_append]
  exact List.prefix_append _ _

/-- **Step lemma.** -/
lemma inStep_step {s : State ρ} (h : InStep s) (i : Input) : InStep (step s i) := by
  cases i with
  | send connects res r =>
    have hpre := wire_sendReport connects res r s.hid
    refine ⟨?_, h.le.trans hpre.length_le⟩
    show Received ((wire (sendReport connects res r s.hid)).take s.delivered) s.dev
    rcases hpre with ⟨more, hmore⟩
    rw [← hmore, List.take_append_of_le_length h.le]
    exact h.received
  | deliver n =>
    have hle := h.le
    refine ⟨?_, ?_⟩
    -- what is handed on is what the wire holds next
    · have hchunk := List.prefix_iff_eq_take.mp
        (List.take_prefix n ((wire s.hid).drop s.delivered))
      show Received ((wire s.hid).take (s.delivered + _)) _
      rw [List.take_add, ← hchunk]
      exact received_read h.received _
    · show s.delivered + _ ≤ (wire s.hid).length
      rw [List.length_take, List.length_drop]
      omega
  | event => exact ⟨h.received, h.le⟩

/-- **Run lemma.** -/
theorem inStep_run (hid : HIDState ρ) (ins : List Input) : InStep (run hid ins) := by
  refine Runs.foldl_invariant (I := InStep) (fun _ i h => inStep_step h i)
    ⟨?_, Nat.zero_le _⟩ ins
  rw [List.take_zero]
  exact received_nil rfl rfl

/-! ## Blocks and reports -/

/-- The report was passed to `send_report`. -/
def Passed (ins : List Input) (r : HidReport8) : Prop :=
  ∃ connects res, .send connects res r ∈ ins

/-- Every block given to the device is one report that was passed to `send_report`, and its
bytes are those of that one call. -/
def Unmixed (ins : List Input) (s : State ρ) : Prop :=
  ∀ k, ∀ hk : k < s.dev.applied.length, ∃ i, ∃ hi : i < s.hid.sent.length,
    ((s.hid.sent.take i).map (·.count)).sum = 8 * k ∧ s.hid.sent[i].count = 8
      ∧ s.dev.applied[k] = s.hid.sent[i].report.bytes.toList
      ∧ Passed ins s.hid.sent[i].report

/-- The sends in front of the first short one. -/
def fullSends (h : HidSocket) : ℕ := h.sent.findIdx fun x => x.count != 8

/-- Fewer than 8 bytes have been delivered of what was sent from the first short send on. -/
def ShortUndelivered (s : State ρ) : Prop := s.delivered < 8 * fullSends s.hid + 8

lemma fullSends_eq_leading (h : HidSocket) :
    fullSends h = Blocks.leading 8 (h.sent.map Sent.bytes) := by
  rw [fullSends, Blocks.leading, List.findIdx_map]
  simp only [Function.comp_def, Sent.length_bytes]

lemma offset_sent (h : HidSocket) (i : ℕ) :
    Blocks.offset (h.sent.map Sent.bytes) i = ((h.sent.take i).map (·.count)).sum := by
  rw [Blocks.offset, List.length_flatten, ← List.map_take, List.map_map]
  simp only [Function.comp_def, Sent.length_bytes]

/-- What is on the wire was passed to `send_report`. -/
lemma passed_of_mem_sent (hid : HIDState ρ) (ins : List Input) :
    ∀ x ∈ (run hid ins).hid.sent, Passed ins x.report := by
  refine Runs.foldl_history (I := fun ins (s : State ρ) => ∀ x ∈ s.hid.sent, Passed ins x.report)
    (fun x hx => absurd hx List.not_mem_nil) (fun ins i ih x hx => ?_) ins
  have hold (hx : x ∈ (ins.foldl step { dev := { hid } } : State ρ).hid.sent) :
      Passed (ins ++ [i]) x.report := by
    rcases ih x hx with ⟨connects, res, hmem⟩
    exact ⟨connects, res, List.mem_append_left _ hmem⟩
  cases i with
  | send connects res r =>
    simp only [step, sendReport_sent, List.mem_append] at hx
    rcases hx with hx | hx
    · exact hold hx
    · split at hx
      · rw [List.mem_singleton.mp hx]
        exact ⟨connects, _, List.mem_append_right _ (List.mem_singleton_self _)⟩
      · exact absurd hx List.not_mem_nil
  | deliver n => exact hold hx
  | event => exact hold hx

section Unmixed

variable {s : State ρ}

lemma InStep.length_applied (h : InStep s) : s.dev.applied.length = s.delivered / 8 := by
  rw [h.received.applied, Blocks.length_blocks, List.length_take, Nat.min_eq_left h.le]

/-- A block is what the wire holds in its place. -/
lemma InStep.getElem_applied (h : InStep s) {k : ℕ} (hk : k < s.dev.applied.length) :
    s.dev.applied[k] = ((wire s.hid).drop (8 * k)).take 8 := by
  have hk' := hk
  rw [h.length_applied] at hk'
  simp only [h.received.applied, Blocks.getElem_blocks]
  rw [List.drop_take, List.take_take, Nat.min_eq_left (by omega)]

/-- A block is a report iff it is one of the pieces the daemon sent. -/
lemma InStep.unmixed_iff (h : InStep s) {ins : List Input}
    (hpassed : ∀ x ∈ s.hid.sent, Passed ins x.report) :
    Unmixed ins s ↔ ∀ k < s.delivered / 8, Blocks.IsPiece 8 (s.hid.sent.map Sent.bytes) k := by
  rw [← h.length_applied]
  refine forall_congr' fun k => ⟨fun hk hlt => ?_, fun hk hlt => ?_⟩
  · rcases hk hlt with ⟨i, hi, hoff, hcount, -⟩
    refine ⟨i, by rwa [List.length_map], by rw [offset_sent, hoff], ?_⟩
    rw [List.getElem_map, Sent.length_bytes, hcount]
  · rcases hk hlt with ⟨i, hi, hoff, hlen⟩
    have hblock := Blocks.take_drop_of_offset_eq hi hoff hlen
    rw [List.getElem_map, Sent.length_bytes] at hlen
    rw [List.getElem_map, Sent.bytes_of_count_eq hlen] at hblock
    refine ⟨i, by rwa [List.length_map] at hi, by rw [← offset_sent, hoff], hlen, ?_,
      hpassed _ (List.getElem_mem _)⟩
    rw [h.getElem_applied hlt, ← hblock]
    rfl

end Unmixed

/-- **Exactly a short send mixes reports**: in a run every block given to the device is one
report iff no block was delivered of the bytes from the first short send on. -/
theorem unmixed_iff_shortUndelivered (hid : HIDState ρ) (ins : List Input) :
    Unmixed ins (run hid ins) ↔ ShortUndelivered (run hid ins) := by
  rw [(inStep_run hid ins).unmixed_iff (passed_of_mem_sent hid ins), ShortUndelivered,
    fullSends_eq_leading]
  refine Blocks.forall_isPiece_iff (by decide) (fun p hp => ?_) _
  rcases List.mem_map.mp hp with ⟨x, -, rfl⟩
  rw [Sent.length_bytes]
  exact x.pos

/-! ## A short send -/

/-- The report for key `a`, cut off after 4 bytes, the report for Ctrl and key `b`, and the
delivery of 8 bytes. -/
def shortSend : List Input :=
  [.send true (.accepted 4 (by decide) (by decide)) (buildHidReport [4] 0),
    .send true .full (buildHidReport [5] 1), .deliver 8]

/-- The device applies a block that is neither of the two reports. -/
theorem not_unmixed_shortSend :
    ¬Unmixed shortSend (run (ρ := Unit) { kind := .keyboard, rest := () } shortSend)
      ∧ ∀ r, Passed shortSend r → r.bytes.toList
          ∉ (run (ρ := Unit) { kind := .keyboard, rest := () } shortSend).dev.applied := by
  constructor
  · intro h
    rcases h 0 (by decide) with ⟨i, hi, hoff, hcount, -⟩
    match i, hi with
    | 0, hi => exact absurd hcount (by decide +revert)
    | 1, _ => exact absurd hoff (by decide)
  · intro r hpassed
    rcases hpassed with ⟨connects, res, hmem⟩
    simp only [shortSend, List.mem_cons, Input.send.injEq, reduceCtorEq, List.not_mem_nil,
      or_false] at hmem
    rcases hmem with ⟨-, -, rfl⟩ | ⟨-, -, rfl⟩ <;> decide

end QuicKeys.Link
