import QuicKeys.Lib.Runs
import QuicKeys.Qemu.Polls

/-!
# What the guest reads

The guest has two ways to read the keyboard: it polls the interrupt endpoint, or it asks for
the report with a control request. `usb_hid_handle_control`, `usb_hid_handle_data` and
`usb_hid_handle_reset` are the callbacks of the device, among them socket bytes arrive and the
idle timer fires. To the guest the device is one register that holds the last report since a
reset, and a flag that tells whether a poll is answered.
-/

namespace QuicKeys.Qemu

/-! ## Control requests -/

/-- The fields of `HIDState` that only the control requests touch. -/
structure ControlState (σ : Type*) where
  protocol : Int32
  idle : UInt8
  rest : σ

/-- The requests that `usb_hid_handle_control` tells apart. -/
inductive Request
  | getDescriptor
  | getReport
  | setReport
  | getProtocol
  | setProtocol
  | getIdle
  | setIdle
  | other
deriving DecidableEq

/-- What `usb_hid_handle_control` reads of a request; `data` is what the host sends. -/
structure ControlRequest where
  request : Request
  value : Int32
  length : ℕ
  data : List UInt8

/-- The functions of QEMU that the callbacks call besides those of `HidCore`. The descriptor
code answers requests of its own and leaves the others to the device. -/
structure UsbCore (ρ : Type*) extends HidCore ρ where
  descHandleControl : ControlRequest → Option (List UInt8)
  keyboardWrite : HIDState ρ → List UInt8 → HIDState ρ
  reset : HIDState ρ → HIDState ρ
  idleTimer : HIDState ρ → HIDState ρ

/-- `qemu_mouse_hid_report_descriptor`, `qemu_tablet_hid_report_descriptor` and
`qemu_keyboard_hid_report_descriptor`. -/
def reportDescriptor : HidKind → List UInt8
  | .mouse =>
    [0x05, 0x01, 0x09, 0x02, 0xa1, 0x01, 0x09, 0x01, 0xa1, 0x00, 0x05, 0x09, 0x19, 0x01, 0x29,
     0x05, 0x15, 0x00, 0x25, 0x01, 0x95, 0x05, 0x75, 0x01, 0x81, 0x02, 0x95, 0x01, 0x75, 0x03,
     0x81, 0x01, 0x05, 0x01, 0x09, 0x30, 0x09, 0x31, 0x09, 0x38, 0x15, 0x81, 0x25, 0x7f, 0x75,
     0x08, 0x95, 0x03, 0x81, 0x06, 0xc0, 0xc0]
  | .tablet =>
    [0x05, 0x01, 0x09, 0x02, 0xa1, 0x01, 0x09, 0x01, 0xa1, 0x00, 0x05, 0x09, 0x19, 0x01, 0x29,
     0x03, 0x15, 0x00, 0x25, 0x01, 0x95, 0x03, 0x75, 0x01, 0x81, 0x02, 0x95, 0x01, 0x75, 0x05,
     0x81, 0x01, 0x05, 0x01, 0x09, 0x30, 0x09, 0x31, 0x15, 0x00, 0x26, 0xff, 0x7f, 0x35, 0x00,
     0x46, 0xff, 0x7f, 0x75, 0x10, 0x95, 0x02, 0x81, 0x02, 0x05, 0x01, 0x09, 0x38, 0x15, 0x81,
     0x25, 0x7f, 0x35, 0x00, 0x45, 0x00, 0x75, 0x08, 0x95, 0x01, 0x81, 0x06, 0xc0, 0xc0]
  | .keyboard =>
    [0x05, 0x01, 0x09, 0x06, 0xa1, 0x01, 0x75, 0x01, 0x95, 0x08, 0x05, 0x07, 0x19, 0xe0, 0x29,
     0xe7, 0x15, 0x00, 0x25, 0x01, 0x81, 0x02, 0x95, 0x01, 0x75, 0x08, 0x81, 0x01, 0x95, 0x05,
     0x75, 0x01, 0x05, 0x08, 0x19, 0x01, 0x29, 0x05, 0x91, 0x02, 0x95, 0x01, 0x75, 0x03, 0x91,
     0x01, 0x95, 0x06, 0x75, 0x08, 0x15, 0x00, 0x25, 0xff, 0x05, 0x07, 0x19, 0x00, 0x29, 0xff,
     0x81, 0x00, 0xc0]

variable {σ ρ : Type*}

/-- `usb_hid_handle_control`. -/
def usbHidHandleControl (core : UsbCore (ControlState σ)) (us : USBHIDState (ControlState σ))
    (c : ControlRequest) : USBHIDState (ControlState σ) × PacketResult :=
  match core.descHandleControl c with
  | some bytes => (us, .data bytes)
  | none =>
    let hs := us.hid
    match c.request with
    | .getDescriptor =>
      if c.value >>> 8 = 0x22 then (us, .data (reportDescriptor hs.kind)) else (us, .stall)
    | .getReport =>
      -- no event is needed here
      let (hs, buf) :=
        if hs.kind = .mouse ∨ hs.kind = .tablet then core.pointerPoll hs c.length
        else core.keyboardPoll hs c.length
      ({ us with hid := hs }, .data buf)
    | .setReport =>
      if hs.kind = .keyboard then ({ us with hid := core.keyboardWrite hs c.data }, .data [])
      else (us, .stall)
    | .getProtocol =>
      if hs.kind ≠ .keyboard ∧ hs.kind ≠ .mouse then (us, .stall)
      else (us, .data [hs.rest.protocol.toUInt32.toUInt8])
    | .setProtocol =>
      if hs.kind ≠ .keyboard ∧ hs.kind ≠ .mouse then (us, .stall)
      else ({ us with hid := { hs with rest := { hs.rest with protocol := c.value } } }, .data [])
    | .getIdle => (us, .data [hs.rest.idle])
    | .setIdle =>
      let idle := (c.value >>> 8).toUInt32.toUInt8
      let hs := core.setNextIdle { hs with rest := { hs.rest with idle } }
      let hs := if hs.kind = .mouse ∨ hs.kind = .tablet then core.pointerActivate hs else hs
      ({ us with hid := hs }, .data [])
    | .other => (us, .stall)

/-- `usb_hid_handle_reset`: the bytes of the socket stay. -/
def usbHidHandleReset (core : UsbCore ρ) (us : USBHIDState ρ) : USBHIDState ρ :=
  { us with hid := core.reset us.hid }

/-! ## Runs -/

/-- What happens to the device. -/
inductive UsbInput
  | bytes (chunk : List UInt8)
  | event
  | idleTimer
  | reset
  | control (c : ControlRequest)
  | packet (p : USBPacket)

/-- The device after one input; the timer calls `usb_hid_changed`. -/
def usbStep (core : UsbCore (ControlState σ)) (us : USBHIDState (ControlState σ)) :
    UsbInput → USBHIDState (ControlState σ)
  | .bytes chunk => kbdChrRead us chunk
  | .event => kbdChrEvent us
  | .idleTimer => usbHidChanged { us with hid := core.idleTimer us.hid }
  | .reset => usbHidHandleReset core us
  | .control c => (usbHidHandleControl core us c).1
  | .packet p => (usbHidHandleData core.toHidCore us p).1

/-- The device after a run. -/
def usbRun (core : UsbCore (ControlState σ)) (us₀ : USBHIDState (ControlState σ))
    (ins : List UsbInput) : USBHIDState (ControlState σ) :=
  ins.foldl (usbStep core) us₀

/-- The socket bytes of a run. -/
def socketBytes (ins : List UsbInput) : List UInt8 :=
  ins.flatMap fun
    | .bytes chunk => chunk
    | _ => []

lemma socketBytes_append (ins ins' : List UsbInput) :
    socketBytes (ins ++ ins') = socketBytes ins ++ socketBytes ins' := List.flatMap_append

/-! ## The register of the guest -/

/-- What the device is to the guest. -/
structure View where
  pending : List UInt8 := []
  report : List UInt8 := List.replicate 8 0
  due : Bool := false

/-- The last complete report counts, and it is not announced. -/
def View.feed (v : View) (chunk : List UInt8) : View :=
  match (Blocks.blocks 8 (v.pending ++ chunk)).getLast? with
  | some report => { pending := Blocks.rest 8 (v.pending ++ chunk), report, due := false }
  | none => { v with pending := Blocks.rest 8 (v.pending ++ chunk) }

/-- The guest asks for the report. -/
def ControlRequest.reads (core : UsbCore ρ) (c : ControlRequest) : Bool :=
  core.descHandleControl c = none ∧ c.request = .getReport

/-- The guest polls the interrupt endpoint. -/
def USBPacket.polls (p : USBPacket) : Bool := p.pid = .tokenIn ∧ p.epNr = 1

/-- The register after one input. -/
def View.step (core : UsbCore ρ) (v : View) : UsbInput → View
  | .bytes chunk => v.feed chunk
  | .event => v
  | .idleTimer => { v with due := true }
  | .reset => { v with report := List.replicate 8 0, due := false }
  | .control c => if c.reads core then { v with due := false } else v
  | .packet p => if p.polls then { v with due := false } else v

/-- The register after a run. -/
def viewAfter (core : UsbCore ρ) (ins : List UsbInput) : View := ins.foldl (View.step core) {}

lemma viewAfter_concat (core : UsbCore ρ) (ins : List UsbInput) (i : UsbInput) :
    viewAfter core (ins ++ [i]) = (viewAfter core ins).step core i := by
  rw [viewAfter, List.foldl_append]
  rfl

/-! ## The functions of `hid.c` -/

/-- The report of a keyboard state: with more than six keys, a rollover error in each slot. -/
def KbdState.bytes (kbd : KbdState) : List UInt8 :=
  kbd.modifiers.toUInt8 :: 0
    :: (if 6 < kbd.keys then List.replicate 6 1 else kbd.key.toList.take 6)

/-- Neither the keys nor the events change. -/
structure SameKeyboard (hs hs' : HIDState ρ) : Prop where
  kind : hs'.kind = hs.kind
  kbd : hs'.kbd = hs.kbd
  n : hs'.n = hs.n
  idlePending : hs'.idlePending = hs.idlePending

/-- What `hid.c` does for a keyboard without queued scancodes. -/
structure Documented (core : UsbCore ρ) : Prop where
  hasEvents : ∀ hs, core.hasEvents hs = (decide (0 < hs.n) || hs.idlePending)
  setNextIdle : ∀ hs, SameKeyboard hs (core.setNextIdle hs)
  keyboardPoll : ∀ hs len, hs.kind = .keyboard → hs.n = 0 →
    SameKeyboard { hs with idlePending := false } (core.keyboardPoll hs len).1
      ∧ (2 ≤ len → (core.keyboardPoll hs len).2 = hs.kbd.bytes.take len)
  keyboardWrite : ∀ hs data, hs.kind = .keyboard → SameKeyboard hs (core.keyboardWrite hs data)
  reset : ∀ hs, hs.kind = .keyboard →
    SameKeyboard { hs with kbd := {}, n := 0, idlePending := false } (core.reset hs)
  idleTimer : ∀ hs, SameKeyboard { hs with idlePending := true } (core.idleTimer hs)

/-! ## A report that is installed -/

/-- The keyboard behind a report. -/
def installed (hs : HIDState ρ) (rep : List UInt8) : HIDState ρ :=
  (usbHidKbdApplyReport { hid := hs } rep).hid

/-- The keyboard behind the last report, if there is one. -/
def installedLast (hs : HIDState ρ) : Option (List UInt8) → HIDState ρ
  | none => hs
  | some rep => installed hs rep

/-- **The guest gets the report as it was sent**, its keys packed to the front. -/
lemma bytes_installed (hs : HIDState ρ) {rep : List UInt8} (hlen : rep.length = 8) :
    (installed hs rep).kbd.bytes = bootReport rep := by
  set keys := (rep.drop 2).filter (· ≠ 0) with hkeys
  have hle : keys.length ≤ 6 := by
    refine (List.length_filter_le _ _).trans ?_
    rw [List.length_drop, hlen]
  have hne : ∀ k ∈ keys, k ≠ 0 := by
    intro k hk
    simpa using (List.mem_filter.mp hk).2
  have hpacked : packKeys (rep.drop 2) (Vector.replicate 16 0, 0)
      = packKeys keys (Vector.replicate 16 0, 0) := (packKeys_filter _ _).symm
  rcases packKeys_of_ne_zero hne (Vector.replicate 16 0) 0 (by omega) with ⟨hcount, hget⟩
  have hkbd : (installed hs rep).kbd
      = { modifiers := (rep.getD 0 0).toUInt16
          key := (packKeys keys (Vector.replicate 16 0, 0)).1
          keys := min (packKeys keys (Vector.replicate 16 0, 0)).2 16 } := by
    rw [← hpacked]
    rfl
  rw [KbdState.bytes, hkbd, bootReport, UInt8.toUInt8_toUInt16]
  dsimp only
  rw [if_neg (by rw [hcount]; omega), ← hkeys]
  congr 2
  apply List.ext_getElem
  · simp
  · intro i hi hi'
    have hi6 : i < 6 := by simpa using hi
    rw [List.getElem_take, List.getElem_take, Vector.getElem_toList, hget i (by omega),
      if_neg (Nat.not_lt_zero i), Nat.sub_zero, List.getElem_append]
    by_cases hk : i < keys.length
    · rw [dif_pos hk, List.getElem?_eq_getElem hk, Option.getD_some]
    · rw [dif_neg hk, List.getElem?_eq_none (not_lt.mp hk), Option.getD_none,
        Vector.getElem_replicate, List.getElem_replicate]

/-- No key is the empty report. -/
lemma bytes_default : ({} : KbdState).bytes = bootReport (List.replicate 8 0) := by decide

lemma installedLast_or (hs : HIDState ρ) (x y : Option (List UInt8)) :
    installedLast (installedLast hs x) y = installedLast hs (y.or x) := by
  cases y with
  | none => rfl
  | some rep => cases x <;> rfl

/-- A byte installs the report that it completes. -/
lemma hid_kbdChrPut {us : USBHIDState ρ} (h : us.kbdSockBuf.length < 8) (b : UInt8) :
    (kbdChrPut us b).hid
      = installedLast us.hid (Blocks.blocks 8 (us.kbdSockBuf ++ [b])).getLast? := by
  have hlen : (us.kbdSockBuf ++ [b]).length = us.kbdSockBuf.length + 1 := by simp
  unfold kbdChrPut
  dsimp only
  by_cases h8 : 8 ≤ (us.kbdSockBuf ++ [b]).length
  · have hone : Blocks.blocks 8 (us.kbdSockBuf ++ [b]) = [us.kbdSockBuf ++ [b]] := by
      have h := Blocks.blocks_append (by decide : 0 < 8) (b := us.kbdSockBuf ++ [b]) (by omega) []
      rwa [List.append_nil, Blocks.blocks_of_length_lt (l := []) (by decide)] at h
    rw [if_pos h8, hone, List.getLast?_singleton, List.take_of_length_le (by omega)]
    rfl
  · rw [if_neg h8, Blocks.blocks_of_length_lt (by omega)]
    rfl

/-- **Reading installs the last report** that the bytes complete. -/
lemma hid_kbdChrRead {l : List UInt8} {us : USBHIDState ρ} (h : Received l us)
    (chunk : List UInt8) :
    (kbdChrRead us chunk).hid
      = installedLast us.hid (Blocks.blocks 8 (Blocks.rest 8 l ++ chunk)).getLast? := by
  induction chunk generalizing l us with
  | nil =>
    rw [List.append_nil, Blocks.blocks_of_length_lt (Blocks.length_rest_lt (by decide) l)]
    rfl
  | cons b chunk ih =>
    have hlt : us.kbdSockBuf.length < 8 := by
      rw [h.length_buf]
      omega
    rcases Blocks.blocks_append_rest (by decide : 0 < 8) (Blocks.rest 8 l ++ [b]) chunk with
      ⟨hblocks, -⟩
    have hcons : Blocks.rest 8 l ++ b :: chunk = Blocks.rest 8 l ++ [b] ++ chunk :=
      List.append_cons _ _ _
    rw [kbdChrRead, if_pos (by rw [kbdSockBufSize]; omega), ih (received_put h b),
      hid_kbdChrPut hlt, installedLast_or, h.buf, hcons, hblocks, List.getLast?_append,
      (Blocks.blocks_append_rest (by decide : 0 < 8) l [b]).2]

/-! ## The device is the register -/

/-- The keyboard shows the report of the register, and has an event iff it is due. -/
structure Shows (v : View) (hs : HIDState ρ) : Prop where
  kind : hs.kind = .keyboard
  n : hs.n = 0
  bytes : hs.kbd.bytes = bootReport v.report
  due : hs.idlePending = v.due

/-- The device has received the bytes `l` and is the register `v`. -/
structure Simulates (l : List UInt8) (v : View) (us : USBHIDState ρ) : Prop where
  received : Received l us
  pending : v.pending = Blocks.rest 8 l
  shows_ : Shows v us.hid

/-- Nothing that the guest can read is changed. -/
lemma SameKeyboard.shows {hs hs' : HIDState ρ} (h : SameKeyboard hs hs') {v : View}
    (hv : Shows v hs) : Shows v hs' where
  kind := h.kind.trans hv.kind
  n := h.n.trans hv.n
  bytes := by rw [h.kbd, hv.bytes]
  due := h.idlePending.trans hv.due

/-- The requests leave the socket alone. -/
lemma control_frame (core : UsbCore (ControlState σ)) (us : USBHIDState (ControlState σ))
    (c : ControlRequest) :
    (usbHidHandleControl core us c).1.kbdSockBuf = us.kbdSockBuf
      ∧ (usbHidHandleControl core us c).1.applied = us.applied := by
  unfold usbHidHandleControl
  cases core.descHandleControl c with
  | some bytes => exact ⟨rfl, rfl⟩
  | none => cases c.request <;> dsimp only <;> (try split) <;> exact ⟨rfl, rfl⟩

/-- So do the packets. -/
lemma data_frame (core : HidCore ρ) (us : USBHIDState ρ) (p : USBPacket) :
    (usbHidHandleData core us p).1.kbdSockBuf = us.kbdSockBuf
      ∧ (usbHidHandleData core us p).1.applied = us.applied := by
  unfold usbHidHandleData
  split
  · split
    · dsimp only
      split <;> split <;> exact ⟨rfl, rfl⟩
    · exact ⟨rfl, rfl⟩
  · exact ⟨rfl, rfl⟩

section Device

variable {core : UsbCore (ControlState σ)} {us : USBHIDState (ControlState σ)} {v : View}
  {l : List UInt8}

/-- **Step lemma**, for socket bytes. -/
lemma simulates_bytes (h : Simulates l v us) (chunk : List UInt8) :
    Simulates (l ++ chunk) (v.feed chunk) (kbdChrRead us chunk) := by
  rcases Blocks.blocks_append_rest (by decide : 0 < 8) l chunk with ⟨-, hrest⟩
  have hhid := hid_kbdChrRead h.received chunk
  rw [← h.pending] at hhid hrest
  refine ⟨received_read h.received chunk, ?_, ?_⟩
  · rw [hrest, View.feed]
    split <;> rfl
  · rw [View.feed, hhid]
    cases hlast : (Blocks.blocks 8 (v.pending ++ chunk)).getLast? with
    | none => exact ⟨h.shows_.kind, h.shows_.n, h.shows_.bytes, h.shows_.due⟩
    | some rep =>
      have hlen : rep.length = 8 :=
        Blocks.length_of_mem_blocks (List.mem_of_getLast? hlast)
      exact ⟨h.shows_.kind, rfl, bytes_installed _ hlen, rfl⟩

variable (hcore : Documented core)

include hcore

/-- An answer to a read is the report of the register. -/
lemma Shows.poll {hs : HIDState (ControlState σ)} (h : Shows v hs) (len : ℕ) :
    Shows { v with due := false } (core.keyboardPoll hs len).1
      ∧ (8 ≤ len → (core.keyboardPoll hs len).2 = bootReport v.report) := by
  rcases hcore.keyboardPoll hs len h.kind h.n with ⟨hsame, hbytes⟩
  refine ⟨hsame.shows ⟨h.kind, h.n, h.bytes, rfl⟩, fun hlen => ?_⟩
  have hboot : (bootReport v.report).length = 8 := by simp [bootReport]
  rw [hbytes (by omega), h.bytes, List.take_of_length_le (by omega)]

/-- **Step lemma**, for a packet, and its answer. -/
lemma packet_spec (h : Shows v us.hid) (p : USBPacket) :
    Shows (v.step core (.packet p)) (usbHidHandleData core.toHidCore us p).1.hid
      ∧ (p.polls = true → 8 ≤ p.size →
        (usbHidHandleData core.toHidCore us p).2
          = if v.due then .data (bootReport v.report) else .nak) := by
  by_cases hpoll : p.polls = true
  · obtain ⟨hpid, hep⟩ : p.pid = .tokenIn ∧ p.epNr = 1 := by simpa [USBPacket.polls] using hpoll
    have hkind : ¬(us.hid.kind = .mouse ∨ us.hid.kind = .tablet) := by
      rw [h.kind]
      decide
    have hevents : core.hasEvents us.hid = v.due := by
      rw [hcore.hasEvents, h.n, h.due]
      rfl
    rw [View.step, if_pos hpoll]
    unfold usbHidHandleData
    simp only [hpid, hep, if_true, if_neg hkind, hevents]
    cases hdue : v.due with
    | false =>
      exact ⟨⟨h.kind, h.n, h.bytes, h.due.trans hdue⟩, fun _ _ => rfl⟩
    | true =>
      have hnext : Shows v (core.setNextIdle us.hid) := (hcore.setNextIdle us.hid).shows h
      have hkind' : ¬((core.setNextIdle us.hid).kind = .mouse
          ∨ (core.setNextIdle us.hid).kind = .tablet) := by
        rw [hnext.kind]
        decide
      rcases hnext.poll hcore p.size with ⟨hshows, hbytes⟩
      simp only [if_neg hkind', Bool.not_true, Bool.false_eq_true, if_false, if_true]
      exact ⟨hshows, fun _ hsize => congrArg PacketResult.data (hbytes hsize)⟩
  · have hfst : (usbHidHandleData core.toHidCore us p).1 = us := by
      unfold usbHidHandleData
      cases hpid : p.pid with
      | tokenIn =>
        have hep : ¬p.epNr = 1 := fun hep => hpoll (by simp [USBPacket.polls, hpid, hep])
        dsimp only
        rw [if_neg hep]
      | tokenOut => rfl
      | tokenSetup => rfl
    rw [View.step, if_neg hpoll, hfst]
    exact ⟨h, fun hp => absurd hp hpoll⟩

/-- **Step lemma**, for a request for the report, and its answer. -/
lemma control_spec_of_reads (h : Shows v us.hid) {c : ControlRequest}
    (hreads : c.reads core = true) :
    Shows { v with due := false } (usbHidHandleControl core us c).1.hid
      ∧ (8 ≤ c.length → (usbHidHandleControl core us c).2 = .data (bootReport v.report)) := by
  obtain ⟨hdesc, hreq⟩ : core.descHandleControl c = none ∧ c.request = .getReport := by
    simpa [ControlRequest.reads] using hreads
  have hkind : ¬(us.hid.kind = .mouse ∨ us.hid.kind = .tablet) := by
    rw [h.kind]
    decide
  rcases h.poll hcore c.length with ⟨hshows, hbytes⟩
  unfold usbHidHandleControl
  simp only [hdesc, hreq, if_neg hkind]
  exact ⟨hshows, fun hlen => congrArg PacketResult.data (hbytes hlen)⟩

/-- **Step lemma**, for the other control requests. -/
lemma control_spec_of_not_reads (h : Shows v us.hid) {c : ControlRequest}
    (hreads : ¬c.reads core = true) : Shows v (usbHidHandleControl core us c).1.hid := by
  unfold usbHidHandleControl
  cases hdesc : core.descHandleControl c with
  | some bytes => exact h
  | none =>
    cases hreq : c.request with
    | getReport => exact absurd (by simp [ControlRequest.reads, hdesc, hreq]) hreads
    | getDescriptor =>
      dsimp only
      split <;> exact h
    | setReport =>
      dsimp only
      rw [if_pos h.kind]
      exact (hcore.keyboardWrite us.hid c.data h.kind).shows h
    | getProtocol =>
      dsimp only
      split <;> exact h
    | setProtocol =>
      dsimp only
      split
      · exact h
      · exact ⟨h.kind, h.n, h.bytes, h.due⟩
    | getIdle => exact h
    | setIdle =>
      dsimp only
      have hidle : Shows v { us.hid with
          rest := { us.hid.rest with idle := (c.value >>> 8).toUInt32.toUInt8 } } :=
        ⟨h.kind, h.n, h.bytes, h.due⟩
      have hnext := (hcore.setNextIdle _).shows hidle
      rw [if_neg (by rw [hnext.kind]; decide)]
      exact hnext
    | other => exact h

/-- **Step lemma.** -/
lemma simulates_step {ins : List UsbInput} (h : Simulates (socketBytes ins) v us) (i : UsbInput) :
    Simulates (socketBytes (ins ++ [i])) (v.step core i) (usbStep core us i) := by
  have hbytes := socketBytes_append ins [i]
  -- only socket bytes touch the buffer
  have hkeep : ∀ {us' : USBHIDState (ControlState σ)} {v' : View}, socketBytes [i] = [] →
      us'.kbdSockBuf = us.kbdSockBuf → us'.applied = us.applied → v'.pending = v.pending →
      Shows v' us'.hid → Simulates (socketBytes (ins ++ [i])) v' us' := by
    intro us' v' hnone hbuf happlied hpending hshows
    rw [hbytes, hnone, List.append_nil]
    exact ⟨⟨happlied.trans h.received.applied, hbuf.trans h.received.buf⟩,
      hpending.trans h.pending, hshows⟩
  cases i with
  | bytes chunk =>
    have hone : socketBytes [.bytes chunk] = chunk := List.append_nil chunk
    rw [hbytes, hone]
    exact simulates_bytes h chunk
  | event => exact hkeep rfl rfl rfl rfl h.shows_
  | idleTimer =>
    exact hkeep rfl rfl rfl rfl ((hcore.idleTimer us.hid).shows
      ⟨h.shows_.kind, h.shows_.n, h.shows_.bytes, rfl⟩)
  | reset =>
    have hfresh : Shows { v with report := List.replicate 8 0, due := false }
        { us.hid with kbd := {}, n := 0, idlePending := false } :=
      ⟨h.shows_.kind, rfl, bytes_default, rfl⟩
    exact hkeep rfl rfl rfl rfl ((hcore.reset us.hid h.shows_.kind).shows hfresh)
  | control c =>
    rcases control_frame core us c with ⟨hbuf, happlied⟩
    by_cases hreads : c.reads core = true
    · rw [View.step, if_pos hreads]
      exact hkeep rfl hbuf happlied rfl (control_spec_of_reads hcore h.shows_ hreads).1
    · rw [View.step, if_neg hreads]
      exact hkeep rfl hbuf happlied rfl (control_spec_of_not_reads hcore h.shows_ hreads)
  | packet p =>
    rcases data_frame core.toHidCore us p with ⟨hbuf, happlied⟩
    refine hkeep rfl hbuf happlied ?_ (packet_spec hcore h.shows_ p).1
    rw [View.step]
    split <;> rfl

/-- **Run lemma.** -/
lemma simulates_run {us₀ : USBHIDState (ControlState σ)} (hus : Realized us₀)
    (hkbd : us₀.hid.kbd = {}) (ins : List UsbInput) :
    Simulates (socketBytes ins) (viewAfter core ins) (usbRun core us₀ ins) := by
  induction ins using List.reverseRecOn with
  | nil =>
    refine ⟨received_nil hus.applied hus.buf, rfl, hus.kind, hus.n, ?_, hus.idlePending⟩
    show us₀.hid.kbd.bytes = _
    rw [hkbd]
    exact bytes_default
  | append_singleton ins i ih =>
    rw [viewAfter_concat, usbRun, List.foldl_append]
    exact simulates_step hcore ih i

omit hcore

/-- A poll is due only after the timer has fired. -/
lemma due_eq_false {ins : List UsbInput} (h : ∀ i ∈ ins, i ≠ .idleTimer) :
    (viewAfter core ins).due = false := by
  induction ins using List.reverseRecOn with
  | nil => rfl
  | append_singleton ins i ih =>
    rcases List.forall_mem_append.mp h with ⟨hins, hi⟩
    have hdue := ih hins
    rw [viewAfter_concat]
    cases i with
    | bytes chunk =>
      rw [View.step, View.feed]
      split
      · rfl
      · exact hdue
    | event => exact hdue
    | idleTimer => exact absurd rfl (hi _ (List.mem_singleton_self _))
    | reset => rfl
    | control c =>
      rw [View.step]
      split
      · rfl
      · exact hdue
    | packet p =>
      rw [View.step]
      split
      · rfl
      · exact hdue

end Device

/-! ## The report of the register -/

section Register

variable {core : UsbCore ρ}

/-- What one input does to the register, unless it is a reset. -/
lemma View.step_spec {v : View} (hv : v.pending.length < 8) (i : UsbInput) :
    (v.step core i).pending = Blocks.rest 8 (v.pending ++ socketBytes [i])
      ∧ (i ≠ .reset → (v.step core i).report
        = ((Blocks.blocks 8 (v.pending ++ socketBytes [i])).getLast?).getD v.report) := by
  -- without bytes there is no complete report
  have hkeep : ∀ {v' : View}, socketBytes [i] = [] → v'.pending = v.pending →
      (i ≠ .reset → v'.report = v.report) →
      v'.pending = Blocks.rest 8 (v.pending ++ socketBytes [i])
        ∧ (i ≠ .reset → v'.report
          = ((Blocks.blocks 8 (v.pending ++ socketBytes [i])).getLast?).getD v.report) := by
    intro v' hnone hpending hreport
    rw [hnone, List.append_nil, Blocks.rest_of_length_lt hv, Blocks.blocks_of_length_lt hv]
    exact ⟨hpending, hreport⟩
  cases i with
  | bytes chunk =>
    rw [show socketBytes [.bytes chunk] = chunk from List.append_nil chunk, View.step, View.feed]
    cases (Blocks.blocks 8 (v.pending ++ chunk)).getLast? <;> exact ⟨rfl, fun _ => rfl⟩
  | event => exact hkeep rfl rfl fun _ => rfl
  | idleTimer => exact hkeep rfl rfl fun _ => rfl
  | reset => exact hkeep rfl rfl fun h => absurd rfl h
  | control c =>
    rw [View.step]
    split <;> exact hkeep rfl rfl fun _ => rfl
  | packet p =>
    rw [View.step]
    split <;> exact hkeep rfl rfl fun _ => rfl

/-- The register keeps the bytes of an incomplete report, also over a reset. -/
lemma pending_viewAfter (core : UsbCore ρ) (ins : List UsbInput) :
    (viewAfter core ins).pending = Blocks.rest 8 (socketBytes ins) := by
  induction ins using List.reverseRecOn with
  | nil => rfl
  | append_singleton ins i ih =>
    have hlt : (viewAfter core ins).pending.length < 8 := by
      rw [ih]
      exact Blocks.length_rest_lt (by decide) _
    rw [viewAfter_concat, (View.step_spec hlt i).1, ih, socketBytes_append,
      (Blocks.blocks_append_rest (by decide) (socketBytes ins) _).2]

/-- **The report is the last one** that was completed in the meantime, if there is one and no
reset comes in between. -/
lemma report_viewAfter (pre : List UsbInput) {post : List UsbInput}
    (hpost : ∀ i ∈ post, i ≠ .reset) :
    (viewAfter core (pre ++ post)).report
      = (((Blocks.blocks 8 (socketBytes (pre ++ post))).drop
        (Blocks.blocks 8 (socketBytes pre)).length).getLast?).getD (viewAfter core pre).report := by
  induction post using List.reverseRecOn with
  | nil =>
    rw [List.append_nil, List.drop_length]
    rfl
  | append_singleton post i ih =>
    rcases List.forall_mem_append.mp hpost with ⟨hpost', hi⟩
    have hpending := pending_viewAfter core (pre ++ post)
    have hlt : (viewAfter core (pre ++ post)).pending.length < 8 := by
      rw [hpending]
      exact Blocks.length_rest_lt (by decide) _
    have hle : (Blocks.blocks 8 (socketBytes pre)).length
        ≤ (Blocks.blocks 8 (socketBytes (pre ++ post))).length := by
      rw [socketBytes_append, (Blocks.blocks_append_rest (by decide) (socketBytes pre) _).1,
        List.length_append]
      exact Nat.le_add_right _ _
    rw [← List.append_assoc, viewAfter_concat,
      (View.step_spec hlt i).2 (hi i (List.mem_singleton_self i)), hpending, ih hpost',
      socketBytes_append (pre ++ post),
      (Blocks.blocks_append_rest (by decide) (socketBytes (pre ++ post)) _).1,
      List.drop_append_of_le_length hle, List.getLast?_append]
    cases (Blocks.blocks 8 (Blocks.rest 8 (socketBytes (pre ++ post)) ++ socketBytes [i])).getLast?
      <;> rfl

lemma report_viewAfter_reset (ins : List UsbInput) :
    (viewAfter core (ins ++ [.reset])).report = List.replicate 8 0 := by
  rw [viewAfter_concat]
  rfl

end Register

/-- **The guest reads one register.** Whatever control requests, packets, resets and timer
events come between the socket bytes, the reports are the consecutive blocks of the bytes; a
request for the report is answered with the last report since a reset, its keys packed to the
front; and a poll is answered with the same if the idle timer has fired since the report was
installed or read, and with a NAK otherwise, which is always so if the timer never fires. -/
theorem guestReads {core : UsbCore (ControlState σ)} (hcore : Documented core)
    {us₀ : USBHIDState (ControlState σ)} (hus : Realized us₀) (hkbd : us₀.hid.kbd = {})
    (ins : List UsbInput) :
    let us := usbRun core us₀ ins
    let v := viewAfter core ins
    us.applied = Blocks.blocks 8 (socketBytes ins)
      ∧ (∀ c, c.reads core = true → 8 ≤ c.length →
        (usbHidHandleControl core us c).2 = .data (bootReport v.report))
      ∧ (∀ p, p.polls = true → 8 ≤ p.size →
        (usbHidHandleData core.toHidCore us p).2
          = if v.due then .data (bootReport v.report) else .nak)
      ∧ ((∀ i ∈ ins, i ≠ .idleTimer) → v.due = false) := by
  intro us v
  have hsim : Simulates (socketBytes ins) v us := simulates_run hcore hus hkbd ins
  refine ⟨hsim.received.applied, fun c hreads => ?_, fun p => ?_, due_eq_false⟩
  · exact (control_spec_of_reads hcore hsim.shows_ hreads).2
  · exact (packet_spec hcore hsim.shows_ p).2

/-- `hid.c` for a keyboard without lights whose timer is driven from outside. -/
def lampless : UsbCore (ControlState Unit) where
  hasEvents hs := decide (0 < hs.n) || hs.idlePending
  setNextIdle hs := hs
  pointerActivate hs := hs
  pointerPoll hs _ := (hs, [])
  keyboardPoll hs len :=
    ({ hs with idlePending := false }, if len < 2 then [] else hs.kbd.bytes.take len)
  descHandleControl _ := none
  keyboardWrite hs _ := hs
  reset hs :=
    { hs with
      kbd := {}
      n := 0
      idlePending := false
      rest := { protocol := 1, idle := 0, rest := () } }
  idleTimer hs := { hs with idlePending := true }

lemma documented_lampless : Documented lampless := by
  constructor
  · exact fun _ => rfl
  · exact fun _ => ⟨rfl, rfl, rfl, rfl⟩
  · exact fun hs len _ _ => ⟨⟨rfl, rfl, rfl, rfl⟩, fun hlen => if_neg (by omega)⟩
  · exact fun _ _ _ => ⟨rfl, rfl, rfl, rfl⟩
  · exact fun _ _ => ⟨rfl, rfl, rfl, rfl⟩
  · exact fun _ => ⟨rfl, rfl, rfl, rfl⟩

/-- The report for key `a` in two pieces, a reset of the bus between them. -/
def resetInReport : List UsbInput :=
  [.bytes [2, 0, 4], .reset, .bytes [0, 0, 0, 0, 0]]

/-- The request for the report. -/
def getReport : ControlRequest := { request := .getReport, value := 0x100, length := 8, data := [] }

/-- The reset does not disturb the report. -/
theorem guestReads_resetInReport :
    (usbHidHandleControl lampless (usbRun lampless
      { hid := { kind := .keyboard, rest := { protocol := 1, idle := 0, rest := () } } }
      resetInReport) getReport).2 = .data [2, 0, 4, 0, 0, 0, 0, 0] :=
  (guestReads documented_lampless ⟨rfl, rfl, rfl, rfl, rfl⟩ rfl resetInReport).2.1 getReport
    (by decide) (by decide)

end QuicKeys.Qemu
