import QuicKeys.Daemon.Report
import QuicKeys.Qemu.KbdSocket

/-!
# The HID socket protocol

What `build_hid_report` puts into a report is what `usb_hid_kbd_apply_report` takes out of
it, and the device applies the reports of a stream one by one, however the stream is split
into calls of `kbd_chr_read`.
-/

namespace QuicKeys.Link

open Daemon Qemu

variable {ρ : Type*}

/-! ## What is sent -/

/-- The keys and modifiers of one report: at most six usages, none of them twice. -/
structure HeldKeys where
  usages : List UInt8
  modifiers : UInt8
  length_le : usages.length ≤ 6
  nodup : usages.Nodup
  ne_zero : ∀ u ∈ usages, u ≠ 0

/-- The bytes of its report. -/
def HeldKeys.report (k : HeldKeys) : List UInt8 :=
  (buildHidReport k.usages k.modifiers).bytes.toList

@[simp] lemma HeldKeys.length_report (k : HeldKeys) : k.report.length = 8 :=
  HidReport8.length_toList _

/-- The keyboard state that holds these keys: the list of usages, followed by zeros. -/
def HeldKeys.kbd (k : HeldKeys) : KbdState where
  modifiers := k.modifiers.toUInt16
  key := Vector.ofFn fun i => k.usages.getD i 0
  keys := k.usages.length

/-! ## What the device does -/

/-- The device in the loop body, when a byte has been put into the buffer. -/
def pushByte (us : USBHIDState ρ) (b : UInt8) : USBHIDState ρ :=
  { us with kbdSockBuf := us.kbdSockBuf ++ [b] }

/-- The report it completes, if it does. -/
def completed (us : USBHIDState ρ) (b : UInt8) : List (List UInt8) :=
  if 8 ≤ (pushByte us b).kbdSockBuf.length then [(pushByte us b).kbdSockBuf.take 8] else []

/-- The device right after the invocations of `usb_hid_kbd_apply_report` that a call of
`kbd_chr_read` makes. -/
def invocations : USBHIDState ρ → List UInt8 → List (USBHIDState ρ)
  | _, [] => []
  | us, b :: buf =>
    if us.kbdSockBuf.length < kbdSockBufSize then
      (completed us b).map (usbHidKbdApplyReport (pushByte us b))
        ++ invocations (kbdChrPut us b) buf
    else []

/-- The indices of `kbd_sock_buf` that a call of `kbd_chr_read` uses: each byte is stored
behind the others, and a complete buffer is read and shifted as far as it is filled. -/
def indices : USBHIDState ρ → List UInt8 → List ℕ
  | _, [] => []
  | us, b :: buf =>
    if us.kbdSockBuf.length < kbdSockBufSize then
      us.kbdSockBuf.length
        :: (if 8 ≤ (pushByte us b).kbdSockBuf.length then
          List.range (pushByte us b).kbdSockBuf.length
        else []) ++ indices (kbdChrPut us b) buf
    else []

/-- The device after calls of `kbd_chr_read`. -/
def readAll (us : USBHIDState ρ) (calls : List (List UInt8)) : USBHIDState ρ :=
  calls.foldl kbdChrRead us

/-- The device right after the invocations in all calls. -/
def invocationsAll : USBHIDState ρ → List (List UInt8) → List (USBHIDState ρ)
  | _, [] => []
  | us, buf :: calls => invocations us buf ++ invocationsAll (kbdChrRead us buf) calls

/-- The indices used in all calls. -/
def indicesAll : USBHIDState ρ → List (List UInt8) → List ℕ
  | _, [] => []
  | us, buf :: calls => indices us buf ++ indicesAll (kbdChrRead us buf) calls

/-- The keyboard state a report is turned into. -/
def kbdOfReport (rep : List UInt8) : KbdState :=
  let packed := packKeys (rep.drop 2) (Vector.replicate 16 0, 0)
  { modifiers := (rep.getD 0 0).toUInt16, key := packed.1, keys := min packed.2 16 }

@[simp] lemma applyReport_kbd (us : USBHIDState ρ) (rep : List UInt8) :
    (usbHidKbdApplyReport us rep).hid.kbd = kbdOfReport rep := rfl

/-- **One report round-trips.** -/
theorem kbdOfReport_report (k : HeldKeys) : kbdOfReport k.report = k.kbd := by
  have hslots : k.report.drop 2 = k.usages ++ List.replicate (6 - k.usages.length) 0 :=
    slots_buildHidReport k.length_le _
  have hlen := k.length_le
  rcases packKeys_of_ne_zero k.ne_zero (Vector.replicate 16 0) 0 (by omega) with
    ⟨hcount, hget⟩
  have hkey : (packKeys k.usages (Vector.replicate 16 0, 0)).1 = k.kbd.key := by
    ext i hi
    rw [hget i hi, if_neg (by omega), Nat.sub_zero]
    simp [HeldKeys.kbd]
  rw [kbdOfReport, hslots, packKeys_append, packKeys_replicate_zero, hkey, hcount,
    Nat.zero_add, Nat.min_eq_left (by omega)]
  rfl

/-! ## One call -/

section Read

variable (us : USBHIDState ρ)

/-- The loop body applies the report the byte completes. -/
lemma applied_kbdChrPut (b : UInt8) :
    (kbdChrPut us b).applied = us.applied ++ completed us b := by
  unfold kbdChrPut
  dsimp only
  by_cases hfull : 8 ≤ (us.kbdSockBuf ++ [b]).length
  · rw [if_pos hfull, completed, if_pos (show 8 ≤ (pushByte us b).kbdSockBuf.length from hfull)]
    rfl
  · rw [if_neg hfull, completed, if_neg (show ¬8 ≤ (pushByte us b).kbdSockBuf.length from hfull),
      List.append_nil]

/-- It leaves less than a report in the buffer. -/
lemma length_kbdChrPut (h : us.kbdSockBuf.length < 8) (b : UInt8) :
    (kbdChrPut us b).kbdSockBuf.length < 8 := by
  have hput := kbdChrPut_spec us h b
  split at hput
  · rw [hput.2]
    decide
  · rw [hput.2, List.length_append, List.length_singleton]
    omega

/-- What the invocations of one call leave, one after the other. -/
lemma invocations_spec (buf : List UInt8) :
    ∃ reps, (kbdChrRead us buf).applied = us.applied ++ reps
      ∧ (invocations us buf).map (fun x => (x.applied.getLast?, x.hid.kbd))
        = reps.map fun rep => (some rep, kbdOfReport rep) := by
  induction buf generalizing us with
  | nil => exact ⟨[], (List.append_nil _).symm, rfl⟩
  | cons b buf ih =>
    rw [kbdChrRead, invocations]
    by_cases hroom : us.kbdSockBuf.length < kbdSockBufSize
    · rw [if_pos hroom, if_pos hroom]
      rcases ih (kbdChrPut us b) with ⟨reps, happlied, hmap⟩
      refine ⟨completed us b ++ reps, ?_, ?_⟩
      · rw [happlied, applied_kbdChrPut, List.append_assoc]
      · rw [List.map_append, hmap, List.map_map, List.map_append]
        congr 1
        apply List.map_congr_left
        intro rep _
        rw [Function.comp_apply, applyReport_applied, List.getLast?_concat, applyReport_kbd]
    · rw [if_neg hroom, if_neg hroom]
      exact ⟨[], (List.append_nil _).symm, rfl⟩

/-- The indices stay in the first half of the buffer. -/
lemma lt_of_mem_indices (h : us.kbdSockBuf.length < 8) {buf : List UInt8} :
    ∀ i ∈ indices us buf, i < 8 := by
  induction buf generalizing us with
  | nil => exact fun i hi => absurd hi List.not_mem_nil
  | cons b buf ih =>
    intro i hi
    have hpush : (pushByte us b).kbdSockBuf.length = us.kbdSockBuf.length + 1 := by
      simp [pushByte]
    rw [indices, if_pos (show us.kbdSockBuf.length < kbdSockBufSize by rw [kbdSockBufSize]; omega),
      hpush] at hi
    rcases List.mem_cons.mp hi with rfl | hi
    · exact h
    rcases List.mem_append.mp hi with hi | hi
    · split at hi
      · have := List.mem_range.mp hi
        omega
      · exact absurd hi List.not_mem_nil
    · exact ih _ (length_kbdChrPut us h b) i hi

end Read

/-! ## All calls -/

/-- The device has received the bytes of all calls. -/
lemma received_readAll {us : USBHIDState ρ} {l : List UInt8} (h : Received l us)
    (calls : List (List UInt8)) : Received (l ++ calls.flatten) (readAll us calls) := by
  induction calls generalizing us l with
  | nil => rwa [List.flatten_nil, List.append_nil]
  | cons buf calls ih =>
    rw [List.flatten_cons, ← List.append_assoc]
    exact ih (received_read h buf)

lemma invocationsAll_spec (us : USBHIDState ρ) (calls : List (List UInt8)) :
    ∃ reps, (readAll us calls).applied = us.applied ++ reps
      ∧ (invocationsAll us calls).map (fun x => (x.applied.getLast?, x.hid.kbd))
        = reps.map fun rep => (some rep, kbdOfReport rep) := by
  induction calls generalizing us with
  | nil => exact ⟨[], (List.append_nil _).symm, rfl⟩
  | cons buf calls ih =>
    rcases invocations_spec us buf with ⟨reps, happlied, hmap⟩
    rcases ih (kbdChrRead us buf) with ⟨reps', happlied', hmap'⟩
    refine ⟨reps ++ reps', ?_, ?_⟩
    · show (readAll (kbdChrRead us buf) calls).applied = _
      rw [happlied', happlied, List.append_assoc]
    · rw [invocationsAll, List.map_append, hmap, hmap', List.map_append]

lemma lt_of_mem_indicesAll {us : USBHIDState ρ} {l : List UInt8} (h : Received l us)
    (calls : List (List UInt8)) : ∀ i ∈ indicesAll us calls, i < 8 := by
  induction calls generalizing us l with
  | nil => exact fun i hi => absurd hi List.not_mem_nil
  | cons buf calls ih =>
    intro i hi
    have hlen := h.length_buf
    rcases List.mem_append.mp hi with hi | hi
    · exact lt_of_mem_indices us (by omega) i hi
    · exact ih (received_read h buf) i hi

/-- The device holds what the last report that was applied installs. -/
def Installed (kbd₀ : KbdState) (us : USBHIDState ρ) : Prop :=
  us.hid.kbd = (us.applied.getLast?.map kbdOfReport).getD kbd₀

lemma installed_put {kbd₀ : KbdState} {us : USBHIDState ρ} (h : Installed kbd₀ us) (b : UInt8) :
    Installed kbd₀ (kbdChrPut us b) := by
  unfold kbdChrPut
  dsimp only
  split
  · rw [Installed, applyReport_applied, List.getLast?_concat, applyReport_kbd]
    rfl
  · exact h

lemma installed_read {kbd₀ : KbdState} {us : USBHIDState ρ} (h : Installed kbd₀ us)
    (buf : List UInt8) : Installed kbd₀ (kbdChrRead us buf) := by
  induction buf generalizing us with
  | nil => exact h
  | cons b buf ih =>
    rw [kbdChrRead]
    split
    · exact ih (installed_put h b)
    · exact h

lemma installed_readAll {kbd₀ : KbdState} {us : USBHIDState ρ} (h : Installed kbd₀ us)
    (calls : List (List UInt8)) : Installed kbd₀ (readAll us calls) := by
  induction calls generalizing us with
  | nil => exact h
  | cons buf calls ih => exact ih (installed_read h buf)

/-- Between two calls: fewer than 8 bytes wait, there is room for at least 9, and the reports
applied so far and these bytes are all that was read. -/
structure Between (l : List UInt8) (us : USBHIDState ρ) : Prop where
  length_buf : us.kbdSockBuf.length < 8
  canRead : 9 ≤ kbdChrCanRead us
  nothingDropped : us.applied.flatten ++ us.kbdSockBuf = l

lemma between_of_received {us : USBHIDState ρ} {l : List UInt8} (h : Received l us) :
    Between l us := by
  have hlen : us.kbdSockBuf.length < 8 := by
    rw [h.length_buf]
    omega
  refine ⟨hlen, ?_, ?_⟩
  · rw [kbdChrCanRead, kbdSockBufSize]
    omega
  · rw [h.applied, h.buf, Blocks.flatten_blocks_append_rest (by decide)]

/-- **The protocol round-trips.** The reports of any list of held keys, read in calls of any
sizes by a device with an empty buffer, are applied once each and in order, and each of
them installs its keys. After every call the buffer has room, no byte is dropped, and the device
holds the keys of the last report that is complete. -/
theorem roundTrip (hid : HIDState ρ) (held : List HeldKeys) (calls : List (List UInt8))
    (hcalls : calls.flatten = (held.map HeldKeys.report).flatten) :
    (readAll { hid } calls).applied = held.map HeldKeys.report
      ∧ (invocationsAll { hid } calls).map (fun x => (x.applied.getLast?, x.hid.kbd))
        = held.map (fun k => (some k.report, k.kbd))
      ∧ (∀ pre, pre <+: calls → Between pre.flatten (readAll { hid } pre)
        ∧ (readAll { hid } pre).hid.kbd
          = ((held.take (pre.flatten.length / 8)).getLast?.map HeldKeys.kbd).getD hid.kbd)
      ∧ ∀ i ∈ indicesAll { hid } calls, i < kbdSockBufSize := by
  have hstart : Received [] ({ hid } : USBHIDState ρ) := received_nil rfl rfl
  have hlen : ∀ b ∈ held.map HeldKeys.report, b.length = 8 := by
    intro b hb
    rcases List.mem_map.mp hb with ⟨k, -, rfl⟩
    exact k.length_report
  -- after some of the calls, the complete reports were applied
  have hprefix : ∀ pre, pre <+: calls → (readAll { hid } pre).applied
      = (held.take (pre.flatten.length / 8)).map HeldKeys.report := by
    rintro pre ⟨post, rfl⟩
    have htake : pre.flatten = (held.map HeldKeys.report).flatten.take pre.flatten.length := by
      rw [← hcalls, List.flatten_append, List.take_left']
      rfl
    rw [(received_readAll hstart pre).applied, List.nil_append, htake,
      Blocks.blocks_take_flatten (by decide) hlen, ← htake, List.map_take]
  have happlied : (readAll { hid } calls).applied = held.map HeldKeys.report := by
    have hblocks := Blocks.blocks_flatten_append (t := []) (by decide) hlen (by decide)
    rw [List.append_nil, ← hcalls] at hblocks
    rw [(received_readAll hstart calls).applied, List.nil_append, hblocks.1]
  refine ⟨happlied, ?_, fun pre hpre => ⟨?_, ?_⟩, fun i hi => ?_⟩
  · rcases invocationsAll_spec { hid } calls with ⟨reps, hreps, hmap⟩
    rw [happlied] at hreps
    rw [hmap, ← List.nil_append reps, ← hreps, List.map_map]
    apply List.map_congr_left
    intro k _
    rw [Function.comp_apply, kbdOfReport_report]
  · exact between_of_received (received_readAll hstart pre)
  · have hhid : Installed hid.kbd ({ hid } : USBHIDState ρ) := rfl
    have hinstalled : (readAll { hid } pre).hid.kbd = _ := installed_readAll hhid pre
    rw [hinstalled, hprefix pre hpre, List.getLast?_map, Option.map_map]
    congr 2
    funext k
    exact kbdOfReport_report k
  · have := lt_of_mem_indicesAll hstart calls i hi
    rw [kbdSockBufSize]
    omega

/-! ## Two reports -/

/-- `a` and `b` with Ctrl, and then nothing. -/
def pressAndClear : List HeldKeys :=
  [{ usages := [4, 5], modifiers := 1, length_le := by decide, nodup := by decide
     ne_zero := fun u hu => by rcases List.mem_pair.mp hu with rfl | rfl <;> decide },
   { usages := [], modifiers := 0, length_le := by decide, nodup := List.nodup_nil
     ne_zero := fun _ hu => absurd hu List.not_mem_nil }]

/-- The reports arrive in three calls, the second of which ends the first and begins the other
one. -/
def threeCalls : List (List UInt8) :=
  let bytes := (pressAndClear.map HeldKeys.report).flatten
  [bytes.take 3, (bytes.drop 3).take 7, bytes.drop 10]

/-- Both are applied, and the first one installs its two keys. -/
theorem roundTrip_threeCalls :
    (readAll { hid := { kind := .keyboard, rest := () } } threeCalls).applied
        = pressAndClear.map HeldKeys.report
      ∧ (invocationsAll { hid := { kind := .keyboard, rest := () } } threeCalls).map
          (fun x => (x.applied.getLast?, x.hid.kbd))
        = pressAndClear.map fun k => (some k.report, k.kbd) := by
  have h := roundTrip { kind := .keyboard, rest := () } pressAndClear threeCalls (by decide)
  exact ⟨h.1, h.2.1⟩

end QuicKeys.Link
