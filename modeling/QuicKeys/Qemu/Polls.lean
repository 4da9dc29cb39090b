import QuicKeys.Lib.Runs
import QuicKeys.Qemu.KbdSocket

/-!
# What the guest sees

The guest learns the keyboard state by polling the interrupt endpoint. A poll is answered
with data only if `hid_has_events` holds, that is, if scancodes are queued or an idle
report is due. `usb_hid_kbd_apply_report` installs a state and clears exactly these two.
So the wakeup it ends with leads to a poll that is answered with a NAK.
-/

namespace QuicKeys.Qemu

variable {ρ : Type*}

/-- What happens to the device: socket bytes, a socket event, an interrupt IN poll on
endpoint 1 with room for a report. -/
inductive DevInput
  | bytes (chunk : List UInt8)
  | event
  | poll (size : ℕ) (le : 8 ≤ size)

def DevInput.isPoll : DevInput → Bool
  | .poll .. => true
  | _ => false

/-- The packet of a poll. -/
def inPoll (size : ℕ) : USBPacket := { pid := .tokenIn, epNr := 1, size }

/-- The device after one input. -/
def devStep (core : HidCore ρ) (us : USBHIDState ρ) : DevInput → USBHIDState ρ
  | .bytes chunk => kbdChrRead us chunk
  | .event => kbdChrEvent us
  | .poll size _ => (usbHidHandleData core us (inPoll size)).1

/-- The device after a run. -/
def devRun (core : HidCore ρ) (us₀ : USBHIDState ρ) (ins : List DevInput) : USBHIDState ρ :=
  ins.foldl (devStep core) us₀

/-- The answer to a poll. -/
def answer (core : HidCore ρ) (us : USBHIDState ρ) (size : ℕ) : PacketResult :=
  (usbHidHandleData core us (inPoll size)).2

/-- The socket bytes of a run. -/
def bytesOf (ins : List DevInput) : List UInt8 :=
  ins.flatMap fun
    | .bytes chunk => chunk
    | _ => []

lemma bytesOf_append (ins ins' : List DevInput) :
    bytesOf (ins ++ ins') = bytesOf ins ++ bytesOf ins' := List.flatMap_append

/-- A keyboard as it is realized, with no scancodes queued and no idle report due. -/
structure Realized (us : USBHIDState ρ) : Prop where
  kind : us.hid.kind = .keyboard
  n : us.hid.n = 0
  idlePending : us.hid.idlePending = false
  buf : us.kbdSockBuf = []
  applied : us.applied = []

/-! ## The property -/

/-- What the guest should get of a report: the modifiers, 0, and the nonzero keys in front
of zeros. -/
def bootReport (rep : List UInt8) : List UInt8 :=
  rep.getD 0 0 :: 0 :: ((rep.drop 2).filter (· ≠ 0) ++ List.replicate 6 0).take 6

/-- Since the last poll reports were applied, and `rep` was the last of them. -/
def Unseen (core : HidCore ρ) (us₀ : USBHIDState ρ) (ins : List DevInput)
    (rep : List UInt8) : Prop :=
  ∃ pre since, ins = pre ++ since ∧ (∀ i ∈ since, i.isPoll = false)
    ∧ (devRun core us₀ pre).applied.length < (devRun core us₀ ins).applied.length
    ∧ (devRun core us₀ ins).applied.getLast? = some rep

/-- The first poll after a report and before any further one returns that report. -/
def ShowsReports (core : HidCore ρ) (us₀ : USBHIDState ρ) (ins : List DevInput) : Prop :=
  ∀ pre size le post, ins = pre ++ .poll size le :: post → ∀ rep, Unseen core us₀ pre rep →
    answer core (devRun core us₀ pre) size = .data (bootReport rep)

/-- No poll comes after the first complete report. -/
def NeverPolled (ins : List DevInput) : Prop :=
  ∀ pre size le post, ins = pre ++ .poll size le :: post → (bytesOf pre).length < 8

/-! ## A keyboard without events -/

/-- Nothing is queued and no idle report is due. -/
structure Quiet (us : USBHIDState ρ) : Prop where
  kind : us.hid.kind = .keyboard
  n : us.hid.n = 0
  idlePending : us.hid.idlePending = false

section Device

variable {core : HidCore ρ} {us us₀ : USBHIDState ρ}

lemma quiet_put (h : Quiet us) (b : UInt8) : Quiet (kbdChrPut us b) := by
  unfold kbdChrPut
  dsimp only
  split
  · exact ⟨h.kind, rfl, rfl⟩
  · exact ⟨h.kind, h.n, h.idlePending⟩

/-- The backend never leaves an event behind. -/
lemma quiet_read (h : Quiet us) (chunk : List UInt8) : Quiet (kbdChrRead us chunk) := by
  induction chunk generalizing us with
  | nil => exact h
  | cons b chunk ih =>
    rw [kbdChrRead]
    split
    · exact ih (quiet_put h b)
    · exact h

section Poll

variable (hevents : ∀ hs, core.hasEvents hs = (decide (0 < hs.n) || hs.idlePending))

include hevents

/-- A poll without events is answered with a NAK and changes nothing. -/
lemma handleData_of_quiet (h : Quiet us) (size : ℕ) :
    usbHidHandleData core us (inPoll size) = (us, .nak) := by
  have hkind : ¬(us.hid.kind = .mouse ∨ us.hid.kind = .tablet) := by
    rw [h.kind]
    decide
  have hnone : core.hasEvents us.hid = false := by
    rw [hevents, h.n, h.idlePending]
    rfl
  unfold usbHidHandleData inPoll
  simp only [if_neg hkind, hnone, Bool.not_false, if_true]

/-- What holds after a run: there are no events, and the socket bytes are received. -/
structure DevInv (ins : List DevInput) (us : USBHIDState ρ) : Prop where
  quiet : Quiet us
  received : Received (bytesOf ins) us

/-- **Step lemma.** -/
lemma devInv_step {ins : List DevInput} (h : DevInv ins us) (i : DevInput) :
    DevInv (ins ++ [i]) (devStep core us i) := by
  cases i with
  | bytes chunk =>
    refine ⟨quiet_read h.quiet chunk, ?_⟩
    rw [bytesOf_append, bytesOf, bytesOf, List.flatMap_singleton]
    exact received_read h.received chunk
  | event =>
    refine ⟨h.quiet, ?_⟩
    rw [bytesOf_append, show bytesOf [DevInput.event] = [] from rfl, List.append_nil]
    exact h.received
  | poll size le =>
    show DevInv _ (usbHidHandleData core us (inPoll size)).1
    rw [handleData_of_quiet hevents h.quiet]
    refine ⟨h.quiet, ?_⟩
    rw [bytesOf_append, show bytesOf [DevInput.poll size le] = [] from rfl, List.append_nil]
    exact h.received

/-- **Run lemma.** -/
lemma devInv_run (hus : Realized us₀) (ins : List DevInput) :
    DevInv ins (devRun core us₀ ins) :=
  Runs.foldl_history (I := DevInv)
    ⟨⟨hus.kind, hus.n, hus.idlePending⟩, received_nil hus.applied hus.buf⟩
    (fun _ i h => devInv_step hevents h i) ins

/-- A report has been applied iff 8 bytes have arrived. -/
lemma applied_eq_nil_iff (hus : Realized us₀) (ins : List DevInput) :
    (devRun core us₀ ins).applied = [] ↔ (bytesOf ins).length < 8 := by
  rw [(devInv_run hevents hus ins).received.applied, ← List.length_eq_zero_iff,
    Blocks.length_blocks]
  omega

/-- The first poll after a report finds it unseen. -/
lemma exists_unseen (hus : Realized us₀) {pre since : List DevInput}
    (hpre : (devRun core us₀ pre).applied = []) (hsince : ∀ i ∈ since, i.isPoll = false)
    (h8 : 8 ≤ (bytesOf (pre ++ since)).length) : ∃ rep, Unseen core us₀ (pre ++ since) rep := by
  have hne : (devRun core us₀ (pre ++ since)).applied ≠ [] := by
    rw [Ne, applied_eq_nil_iff hevents hus]
    omega
  refine ⟨_, pre, since, rfl, hsince, ?_, List.getLast?_eq_some_getLast hne⟩
  rw [hpre, List.length_nil]
  exact List.length_pos_iff.mpr hne

end Poll

end Device

/-- A run ends in a part without polls, behind its last poll. -/
lemma split_last_poll (ins : List DevInput) :
    (∀ i ∈ ins, i.isPoll = false)
      ∨ ∃ pre size le since, ins = pre ++ .poll size le :: since
        ∧ ∀ i ∈ since, i.isPoll = false := by
  induction ins using List.reverseRecOn with
  | nil => exact Or.inl fun i hi => absurd hi List.not_mem_nil
  | append_singleton ins i ih =>
    cases hi : i.isPoll with
    | true =>
      obtain ⟨size, le, rfl⟩ : ∃ size le, i = .poll size le := by
        cases i with
        | poll size le => exact ⟨size, le, rfl⟩
        | bytes chunk => cases hi
        | event => cases hi
      exact Or.inr ⟨ins, size, le, [], rfl, fun i hi => absurd hi List.not_mem_nil⟩
    | false =>
      have hlast : ∀ j ∈ [i], j.isPoll = false := fun j hj => by
        rwa [List.mem_singleton.mp hj]
      rcases ih with hnone | ⟨pre, size, le, since, rfl, hsince⟩
      · exact Or.inl (List.forall_mem_append.mpr ⟨hnone, hlast⟩)
      · exact Or.inr ⟨pre, size, le, since ++ [i], by simp,
          List.forall_mem_append.mpr ⟨hsince, hlast⟩⟩

/-! ## Runs -/

/-- **No report is ever shown**: a run of the device shows its reports iff the guest never
polls once a report is complete, because each of these polls is answered with a NAK. -/
theorem showsReports_iff_neverPolled {core : HidCore ρ} {us₀ : USBHIDState ρ}
    (hevents : ∀ hs, core.hasEvents hs = (decide (0 < hs.n) || hs.idlePending))
    (hus : Realized us₀) (ins : List DevInput) :
    ShowsReports core us₀ ins ↔ NeverPolled ins := by
  constructor
  · intro hshows pre
    -- the poll in question may not be the first one behind the report
    induction hn : pre.length using Nat.strongRecOn generalizing pre with
    | ind n ih =>
      intro size le post hins
      by_contra h8
      have hunseen : ∃ rep, Unseen core us₀ pre rep := by
        rcases split_last_poll pre with hnone | ⟨pre', size', le', since, rfl, hsince⟩
        · have hnil : (devRun core us₀ []).applied = [] := hus.applied
          exact exists_unseen hevents hus hnil hnone (Nat.le_of_not_lt h8)
        -- by induction no report was complete at the last poll, so this one is unseen
        · have hlt : (bytesOf pre').length < 8 := by
            refine ih pre'.length ?_ pre' rfl size' le' (since ++ .poll size le :: post) ?_
            · rw [← hn, List.length_append, List.length_cons]
              omega
            · rw [hins, List.append_assoc, List.cons_append]
          have hpre : (devRun core us₀ (pre' ++ [.poll size' le'])).applied = [] := by
            rw [applied_eq_nil_iff hevents hus, bytesOf_append,
              show bytesOf [DevInput.poll size' le'] = [] from rfl, List.append_nil]
            exact hlt
          rw [List.append_cons] at h8 ⊢
          exact exists_unseen hevents hus hpre hsince (Nat.le_of_not_lt h8)
      rcases hunseen with ⟨rep, hrep⟩
      have hanswer := hshows pre size le post hins rep hrep
      rw [answer, handleData_of_quiet hevents (devInv_run hevents hus pre).quiet] at hanswer
      cases hanswer
  · intro hnever pre size le post hins rep hunseen
    rcases hunseen with ⟨-, -, -, -, -, hlast⟩
    rw [(applied_eq_nil_iff hevents hus pre).mpr (hnever pre size le post hins)] at hlast
    cases hlast

/-- `hid.c` for a keyboard whose idle rate is 0 and whose queue is empty. -/
def idleCore : HidCore Unit where
  hasEvents hs := decide (0 < hs.n) || hs.idlePending
  setNextIdle hs := hs
  pointerActivate hs := hs
  pointerPoll hs _ := (hs, [])
  keyboardPoll hs len :=
    let keys := if 6 < hs.kbd.keys then List.replicate 6 1 else hs.kbd.key.toList.take 6
    ({ hs with idlePending := false }, (hs.kbd.modifiers.toUInt8 :: 0 :: keys).take len)

/-- The keyboard of `idleCore`, as it is realized. -/
def idleKbd : USBHIDState Unit where
  hid := { kind := .keyboard, rest := () }

lemma realized_idleKbd : Realized idleKbd := ⟨rfl, rfl, rfl, rfl, rfl⟩

/-- `wMaxPacketSize` of the keyboard's endpoint. -/
def wMaxPacketSize : ℕ := 8

lemma le_wMaxPacketSize : 8 ≤ wMaxPacketSize := Nat.le_refl 8

/-- The report for key `a` arrives in two pieces, then the guest polls. -/
def pressThenPoll : List DevInput :=
  [.bytes [0, 0, 4], .bytes [0, 0, 0, 0, 0], .poll wMaxPacketSize le_wMaxPacketSize]

/-- The condition decides the run of one report and one poll. -/
theorem showsReports_iff_neverPolled_pressThenPoll :
    ShowsReports idleCore idleKbd pressThenPoll ↔ NeverPolled pressThenPoll :=
  showsReports_iff_neverPolled (fun _ => rfl) realized_idleKbd pressThenPoll

/-- The poll is answered with a NAK although key `a` was installed. -/
theorem not_showsReports_pressThenPoll :
    ¬ShowsReports idleCore idleKbd pressThenPoll := by
  intro h
  have hanswer := h (pressThenPoll.take 2) wMaxPacketSize le_wMaxPacketSize [] rfl
    [0, 0, 4, 0, 0, 0, 0, 0] ⟨[], pressThenPoll.take 2, rfl, by decide, by decide, by decide⟩
  revert hanswer
  decide

end QuicKeys.Qemu
