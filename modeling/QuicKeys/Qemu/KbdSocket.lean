import Mathlib.Tactic.Common
import QuicKeys.Lib.Blocks

/-!
# The socket backend of the usb-kbd device

`dev-hid.c`: the bytes of the socket are collected into reports of 8 bytes, and each
report replaces the state of the keyboard. `hid.c` and `hid.h` belong to QEMU and are not
part of this source. The fields of `HIDState` that `dev-hid.c` itself reads or writes on
these paths are fields here, the others are in `rest`; the functions of `hid.c` that
`usb_hid_handle_data` calls are the parameter `HidCore`.
-/

namespace QuicKeys.Qemu

/-! ## The state -/

/-- `hs->kind`. -/
inductive HidKind
  | mouse
  | tablet
  | keyboard
deriving DecidableEq

/-- `hs->kbd`: the fields the backend installs. -/
structure KbdState where
  modifiers : UInt16 := 0
  key : Vector UInt8 16 := Vector.replicate 16 0
  keys : ℕ := 0

/-- `HIDState`. -/
structure HIDState (ρ : Type*) where
  kind : HidKind
  kbd : KbdState := {}
  n : ℕ := 0
  idlePending : Bool := false
  rest : ρ

/-- `USBHIDState`. `kbdSockBuf` is the part of the buffer below `kbd_sock_len`, `intr` the
number of wakeups of the interrupt endpoint. `applied` records the reports that were
applied; nothing reads it. -/
structure USBHIDState (ρ : Type*) where
  hid : HIDState ρ
  kbdSockBuf : List UInt8 := []
  intr : ℕ := 0
  applied : List (List UInt8) := []

variable {ρ : Type*}

/-! ## Ingest -/

/-- `usb_hid_changed`. -/
def usbHidChanged (us : USBHIDState ρ) : USBHIDState ρ := { us with intr := us.intr + 1 }

/-- The loop over the six key slots: nonzero keys are packed to the front of `key`, and all
of them are counted. -/
def packKeys (slots : List UInt8) (kbd : Vector UInt8 16 × ℕ) : Vector UInt8 16 × ℕ :=
  slots.foldl (fun (key, cnt) k =>
    if k ≠ 0 then
      (if h : cnt < 16 then key.set cnt k else key, cnt + 1)
    else (key, cnt)) kbd

/-- `usb_hid_kbd_apply_report`. -/
def usbHidKbdApplyReport (us : USBHIDState ρ) (rep : List UInt8) : USBHIDState ρ :=
  -- the keys of the last report do not survive
  let packed := packKeys (rep.drop 2) (Vector.replicate 16 0, 0)
  usbHidChanged
    { us with
      hid := { us.hid with
        kbd := {
          modifiers := (rep.getD 0 0).toUInt16
          key := packed.1
          keys := min packed.2 16 }
        n := 0
        idlePending := false }
      applied := us.applied ++ [rep] }

/-- `sizeof(us->kbd_sock_buf)`. -/
def kbdSockBufSize : ℕ := 16

/-- `kbd_chr_can_read`. -/
def kbdChrCanRead (us : USBHIDState ρ) : ℕ := kbdSockBufSize - us.kbdSockBuf.length

/-- The loop body of `kbd_chr_read`. -/
def kbdChrPut (us : USBHIDState ρ) (b : UInt8) : USBHIDState ρ :=
  let us := { us with kbdSockBuf := us.kbdSockBuf ++ [b] }
  if 8 ≤ us.kbdSockBuf.length then
    let us := usbHidKbdApplyReport us (us.kbdSockBuf.take 8)
    -- more than one report may be in the buffer
    { us with kbdSockBuf := us.kbdSockBuf.drop 8 }
  else us

/-- `kbd_chr_read`. -/
def kbdChrRead (us : USBHIDState ρ) : List UInt8 → USBHIDState ρ
  | [] => us
  | b :: buf =>
    if us.kbdSockBuf.length < kbdSockBufSize then kbdChrRead (kbdChrPut us b) buf else us

/-- `kbd_chr_event` ignores the event: the buffer survives a reconnection. -/
def kbdChrEvent (us : USBHIDState ρ) : USBHIDState ρ := us

/-! ## Interrupt polls -/

/-- The functions of `hid.c` behind the interrupt endpoint; the polls also return the bytes
they put into the buffer of the given size. -/
structure HidCore (ρ : Type*) where
  hasEvents : HIDState ρ → Bool
  setNextIdle : HIDState ρ → HIDState ρ
  pointerActivate : HIDState ρ → HIDState ρ
  pointerPoll : HIDState ρ → ℕ → HIDState ρ × List UInt8
  keyboardPoll : HIDState ρ → ℕ → HIDState ρ × List UInt8

/-- `p->pid`. -/
inductive Pid
  | tokenIn
  | tokenOut
  | tokenSetup
deriving DecidableEq

/-- What `usb_hid_handle_data` reads of a `USBPacket`. -/
structure USBPacket where
  pid : Pid
  epNr : ℕ
  size : ℕ

/-- The status of a packet, or the bytes copied into it. -/
inductive PacketResult
  | nak
  | stall
  | data (bytes : List UInt8)
deriving DecidableEq

/-- `usb_hid_handle_data`. -/
def usbHidHandleData (core : HidCore ρ) (us : USBHIDState ρ) (p : USBPacket) :
    USBHIDState ρ × PacketResult :=
  match p.pid with
  | .tokenIn =>
    if p.epNr = 1 then
      let hs :=
        if us.hid.kind = .mouse ∨ us.hid.kind = .tablet then core.pointerActivate us.hid
        else us.hid
      -- without an event nothing is polled
      if !core.hasEvents hs then ({ us with hid := hs }, .nak)
      else
        let hs := core.setNextIdle hs
        let (hs, buf) :=
          if hs.kind = .mouse ∨ hs.kind = .tablet then core.pointerPoll hs p.size
          else core.keyboardPoll hs p.size
        ({ us with hid := hs }, .data buf)
    else (us, .stall)
  | _ => (us, .stall)

/-! ## What the compaction loop does -/

lemma packKeys_append (slots slots' : List UInt8) (kbd : Vector UInt8 16 × ℕ) :
    packKeys (slots ++ slots') kbd = packKeys slots' (packKeys slots kbd) :=
  List.foldl_append

/-- Empty slots are skipped. -/
lemma packKeys_replicate_zero (m : ℕ) (kbd : Vector UInt8 16 × ℕ) :
    packKeys (List.replicate m 0) kbd = kbd := by
  induction m with
  | zero => rfl
  | succ m ih => exact ih

/-- Empty slots do not count, wherever they are. -/
lemma packKeys_filter (slots : List UInt8) (kbd : Vector UInt8 16 × ℕ) :
    packKeys (slots.filter (· ≠ 0)) kbd = packKeys slots kbd := by
  induction slots generalizing kbd with
  | nil => rfl
  | cons k slots ih =>
    by_cases hk : k = 0
    · rw [List.filter_cons_of_neg (by simpa using hk), ih]
      simp [packKeys, hk]
    · rw [List.filter_cons_of_pos (by simpa using hk)]
      exact ih _

/-- Keys that fit are put behind those that are there. -/
lemma packKeys_of_ne_zero {keys : List UInt8} (hkeys : ∀ k ∈ keys, k ≠ 0)
    (key : Vector UInt8 16) (cnt : ℕ) (hcnt : cnt + keys.length ≤ 16) :
    (packKeys keys (key, cnt)).2 = cnt + keys.length
      ∧ ∀ i, ∀ hi : i < 16, (packKeys keys (key, cnt)).1[i]
        = if i < cnt then key[i] else (keys[i - cnt]?).getD key[i] := by
  induction keys generalizing key cnt with
  | nil => exact ⟨rfl, fun i hi => by simp [packKeys]⟩
  | cons k keys ih =>
    rw [List.length_cons] at hcnt
    have hk : k ≠ 0 := hkeys k List.mem_cons_self
    have hlt : cnt < 16 := by omega
    have hround : packKeys (k :: keys) (key, cnt) = packKeys keys (key.set cnt k, cnt + 1) := by
      simp [packKeys, hk, hlt]
    rcases ih (fun k' hk' => hkeys k' (List.mem_cons_of_mem _ hk')) (key.set cnt k) (cnt + 1)
      (by omega) with ⟨hcount, hget⟩
    rw [hround, hcount, List.length_cons]
    refine ⟨by omega, fun i hi => ?_⟩
    rw [hget i hi, Vector.getElem_set]
    rcases Nat.lt_trichotomy i cnt with h | rfl | h
    · rw [if_pos (by omega), if_pos h, if_neg (by omega)]
    · simp
    · rw [if_neg (by omega), if_neg (by omega), if_neg (by omega),
        show i - cnt = i - (cnt + 1) + 1 by omega, List.getElem?_cons_succ]

/-! ## What reading does -/

section Read

variable (us : USBHIDState ρ)

@[simp] lemma applyReport_applied (rep : List UInt8) :
    (usbHidKbdApplyReport us rep).applied = us.applied ++ [rep] := rfl

@[simp] lemma applyReport_kbdSockBuf (rep : List UInt8) :
    (usbHidKbdApplyReport us rep).kbdSockBuf = us.kbdSockBuf := rfl

/-- One byte completes a report or lengthens the buffer. -/
lemma kbdChrPut_spec (h : us.kbdSockBuf.length < 8) (b : UInt8) :
    if us.kbdSockBuf.length + 1 = 8 then
      (kbdChrPut us b).applied = us.applied ++ [us.kbdSockBuf ++ [b]]
        ∧ (kbdChrPut us b).kbdSockBuf = []
    else (kbdChrPut us b).applied = us.applied
        ∧ (kbdChrPut us b).kbdSockBuf = us.kbdSockBuf ++ [b] := by
  unfold kbdChrPut
  dsimp only
  rw [List.length_append, List.length_singleton]
  split
  · rename_i h8
    have hlen : (us.kbdSockBuf ++ [b]).length = 8 := by simp [h8]
    rw [if_pos (by omega)]
    refine ⟨?_, ?_⟩
    · rw [applyReport_applied, List.take_of_length_le hlen.le]
    · rw [applyReport_kbdSockBuf, List.drop_eq_nil_of_le hlen.le]
  · rename_i h8
    rw [if_neg (by omega)]
    exact ⟨rfl, rfl⟩

/-- The device has received the bytes `l` of its socket. -/
structure Received (l : List UInt8) (us : USBHIDState ρ) : Prop where
  applied : us.applied = Blocks.blocks 8 l
  buf : us.kbdSockBuf = Blocks.rest 8 l

variable {us}

lemma Received.length_buf {l : List UInt8} (h : Received l us) :
    us.kbdSockBuf.length = l.length % 8 := by
  rw [h.buf, Blocks.length_rest]

lemma received_nil (happlied : us.applied = []) (hbuf : us.kbdSockBuf = []) :
    Received [] us where
  applied := by rw [happlied, Blocks.blocks_of_length_lt (by decide)]
  buf := by rw [hbuf, Blocks.rest_of_length_lt (by decide)]

lemma received_put {l : List UInt8} (h : Received l us) (b : UInt8) :
    Received (l ++ [b]) (kbdChrPut us b) := by
  have hput := kbdChrPut_spec us (by rw [h.length_buf]; omega) b
  have hblocks := Blocks.blocks_concat (by decide : 0 < 8) l b
  rw [h.buf] at hput
  split at hput
  · rename_i h8
    rw [if_pos h8] at hblocks
    exact ⟨by rw [hput.1, hblocks.1, h.applied], by rw [hput.2, hblocks.2]⟩
  · rename_i h8
    rw [if_neg h8] at hblocks
    exact ⟨by rw [hput.1, hblocks.1, h.applied], by rw [hput.2, hblocks.2]⟩

/-- **Chunking does not matter.** Whatever the calls of `kbd_chr_read` are, the reports are
the consecutive blocks of 8 bytes, and what is left over stays in the buffer. -/
theorem received_read {l : List UInt8} (h : Received l us) (buf : List UInt8) :
    Received (l ++ buf) (kbdChrRead us buf) := by
  induction buf generalizing l us with
  | nil => rwa [List.append_nil, kbdChrRead]
  | cons b buf ih =>
    have hroom : us.kbdSockBuf.length < kbdSockBufSize := by
      rw [h.length_buf, kbdSockBufSize]
      omega
    rw [kbdChrRead, if_pos hroom, List.append_cons]
    exact ih (received_put h b)

end Read

end QuicKeys.Qemu
