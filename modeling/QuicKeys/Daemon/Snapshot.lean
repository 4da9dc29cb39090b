import QuicKeys.Daemon.State
import QuicKeys.Lib.Bitmap
import QuicKeys.Lib.Sweep

/-!
# Snapshots

`parse_snapshot` and the callback of the snapshot listener. A record is a header of 16
bytes, 4 bytes of modifiers and a bitmap of 32 bytes; the header's sequence number and
timestamp are skipped.
-/

namespace QuicKeys.Daemon

/-! ## Decoding -/

/-- `usage >= 0x04 && usage <= 0xA5`, the valid keyboard usages. -/
def isKeyboardUsage (usage : UInt8) : Bool := 0x04 ≤ usage && usage ≤ 0xA5

lemma isKeyboardUsage_iff (u : UInt8) :
    isKeyboardUsage u = true ↔ 4 ≤ u.toNat ∧ u.toNat ≤ 165 := by
  rw [isKeyboardUsage, Bool.and_eq_true, decide_eq_true_eq, decide_eq_true_eq,
    UInt8.le_iff_toNat_le, UInt8.le_iff_toNat_le]
  exact Iff.rfl

/-- The inner loop over the bits of one byte of the bitmap. -/
def insertBits (ord : IterOrder UInt8) (byteIdx : ℕ) (byte : UInt8)
    (newPressed : UnorderedSet UInt8) : UnorderedSet UInt8 :=
  if byte = 0 then newPressed
  else
    (List.range 8).foldl (fun set bit =>
      if byte.toNat &&& 1 <<< bit ≠ 0 then
        let usage := UInt8.ofNat (byteIdx * 8 + bit)
        if isKeyboardUsage usage then set.insert ord usage else set
      else set) newPressed

/-- `new_pressed`, from the bitmap of the record. -/
def newPressed (ord : IterOrder UInt8) (bitmap : List UInt8) : UnorderedSet UInt8 :=
  (List.range 32).foldl (fun set byteIdx => insertBits ord byteIdx (bitmap.getD byteIdx 0) set) ∅

/-- `snap_mods`: the low byte of the big-endian word at offset 16. -/
def snapMods (data : List UInt8) : UInt8 :=
  let modsU32 := (data.getD 16 0).toUInt32 <<< 24 ||| (data.getD 17 0).toUInt32 <<< 16
    ||| (data.getD 18 0).toUInt32 <<< 8 ||| (data.getD 19 0).toUInt32
  (modsU32 &&& 0xFF).toUInt8

/-- The modifiers and the keys of a record; `none` if it is too short. -/
def decodeSnapshot (ord : IterOrder UInt8) (data : List UInt8) :
    Option (UInt8 × UnorderedSet UInt8) :=
  if data.length < 52 then none
  else some (snapMods data, newPressed ord (data.drop 20))

/-! ## Reconciliation -/

/-- The loop over `pressed`: a key the snapshot does not contain is released. -/
def releaseMissing (newPressed : UnorderedSet UInt8) (u : UInt8) (km : KeyMeta) : KeyMeta :=
  if u ∈ newPressed then km else { km with upMarkerNs := none, pressed := false }

/-- The `[heal]` line for a key that is released, if a marker was set for it. -/
def healLine (now : UInt64) (newPressed : UnorderedSet UInt8) (u : UInt8) (km : KeyMeta) :
    List LogLine :=
  if u ∈ newPressed then []
  else match km.upMarkerNs with
    | some t => [.heal u (nsToMs (now - t))]
    | none => []

/-- The loop over the new `pressed`: every key of the snapshot is stamped with `now_ns`. -/
def reaffirm (now : UInt64) (_ : UInt8) (km : KeyMeta) : KeyMeta :=
  { km with pressed := true, lastSnapshotNs := now }

/-- The critical section of `parse_snapshot`. -/
def reconcile (now : UInt64) (mods : UInt8) (newPressed : UnorderedSet UInt8) (s : KeyState) :
    KeyState × List LogLine :=
  -- the old `pressed` is iterated before it is replaced
  let released := Sweep.sweep (releaseMissing newPressed) (healLine now newPressed)
    s.pressed.toList (s.keymeta, [])
  -- every key of the snapshot is stamped, also those that were pressed already
  let stamped := Sweep.sweep (reaffirm now) (fun _ _ => []) newPressed.toList released
  ({ pressed := newPressed, modifiers := mods, keymeta := stamped.1 }, stamped.2)

/-- `parse_snapshot`; `none` is the result `false`. -/
def parseSnapshot (ord : IterOrder UInt8) (now : UInt64) (data : List UInt8) (s : KeyState) :
    Option (KeyState × List LogLine) :=
  (decodeSnapshot ord data).map fun (mods, keys) => reconcile now mods keys s

/-- The snapshot callback: a record that parses is followed by a report. -/
def snapshotCallback (ord : IterOrder UInt8) (now : UInt64) (data : List UInt8)
    (s : KeyState) : Outcome :=
  match parseSnapshot ord now data s with
  | some (s', log) => { state := s', log, emit := true }
  | none => { state := s }

/-! ## What a snapshot does -/

lemma mem_insertBits {ord : IterOrder UInt8} {byteIdx : ℕ} {byte : UInt8}
    {set : UnorderedSet UInt8} {u : UInt8} :
    u ∈ insertBits ord byteIdx byte set
      ↔ u ∈ set ∨ ∃ bit < 8, byte.toNat.testBit bit = true
          ∧ u = UInt8.ofNat (byteIdx * 8 + bit) ∧ isKeyboardUsage u = true := by
  unfold insertBits
  split
  · rename_i h
    simp [h]
  · rw [UnorderedSet.mem_foldl (P := fun bit u => byte.toNat.testBit bit = true
      ∧ u = UInt8.ofNat (byteIdx * 8 + bit) ∧ isKeyboardUsage u = true)]
    · simp only [List.mem_range]
    · intro set bit v
      by_cases hbit : byte.toNat.testBit bit = true
      · rw [if_pos ((Bitmap.and_shiftLeft_ne_zero _ _).mpr hbit)]
        by_cases husage : isKeyboardUsage (UInt8.ofNat (byteIdx * 8 + bit)) = true
        · rw [if_pos husage, UnorderedSet.mem_insert, or_comm]
          constructor
          · intro hv
            rcases hv with h | rfl
            · exact Or.inl h
            · exact Or.inr ⟨hbit, rfl, husage⟩
          · intro hv
            rcases hv with h | ⟨-, h, -⟩
            · exact Or.inl h
            · exact Or.inr h
        · rw [if_neg husage]
          constructor
          · exact Or.inl
          · intro hv
            rcases hv with h | ⟨-, rfl, h⟩
            · exact h
            · exact absurd h husage
      · rw [if_neg (mt (Bitmap.and_shiftLeft_ne_zero _ _).mp hbit)]
        simp [hbit]

/-- **The decoded keys** are the valid usages whose bit is set. -/
theorem mem_newPressed {ord : IterOrder UInt8} {bitmap : List UInt8} {u : UInt8} :
    u ∈ newPressed ord bitmap
      ↔ isKeyboardUsage u = true ∧ Bitmap.bit bitmap u.toNat = true := by
  have hstep (set : UnorderedSet UInt8) (byteIdx : ℕ) (v : UInt8) :
      v ∈ insertBits ord byteIdx (bitmap.getD byteIdx 0) set
        ↔ v ∈ set ∨ ∃ bit < 8, (bitmap.getD byteIdx 0).toNat.testBit bit = true
            ∧ v = UInt8.ofNat (byteIdx * 8 + bit) ∧ isKeyboardUsage v = true :=
    mem_insertBits
  rw [newPressed, UnorderedSet.mem_foldl hstep]
  constructor
  · intro hu
    rcases hu with h | ⟨byteIdx, hbyte, bit, hbit, htest, rfl, husage⟩
    · exact absurd h (UnorderedSet.not_mem_empty u)
    -- the 256 bits have distinct usages: no index wraps
    · have hval : (UInt8.ofNat (byteIdx * 8 + bit)).toNat = byteIdx * 8 + bit := by
        rw [UInt8.toNat_ofNat']
        have := List.mem_range.mp hbyte
        omega
      refine ⟨husage, ?_⟩
      rw [Bitmap.bit, hval, show (byteIdx * 8 + bit) / 8 = byteIdx by omega,
        show (byteIdx * 8 + bit) % 8 = bit by omega]
      exact htest
  · intro hbits
    rcases hbits with ⟨husage, hbit⟩
    have hlt := u.toNat_lt
    refine Or.inr ⟨u.toNat / 8, List.mem_range.mpr (by omega), u.toNat % 8,
      Nat.mod_lt _ (by norm_num), hbit, ?_, husage⟩
    rw [Nat.div_add_mod', UInt8.ofNat_toNat]

/-- The modifier byte of a record is its byte 19. -/
lemma snapMods_eq (data : List UInt8) : snapMods data = data.getD 19 0 :=
  MachineInt.toUInt8_bigEndian _ _ _ _

/-- Every key is stamped, released or left alone. -/
lemma reconcile_keymeta (now : UInt64) (mods : UInt8) (keys : UnorderedSet UInt8)
    (s : KeyState) (u : UInt8) :
    (reconcile now mods keys s).1.keymeta u
      = if u ∈ keys then { s.keymeta u with pressed := true, lastSnapshotNs := now }
        else if u ∈ s.pressed then { s.keymeta u with upMarkerNs := none, pressed := false }
        else s.keymeta u := by
  show (Sweep.sweep _ _ keys.toList _).1 u = _
  rw [Sweep.sweep_fst_apply keys.nodup, Sweep.sweep_fst_apply s.pressed.nodup]
  by_cases hk : u ∈ keys <;> by_cases hp : u ∈ s.pressed <;>
    simp [hk, hp, reaffirm, releaseMissing]

lemma mem_healLine {now : UInt64} {keys : UnorderedSet UInt8} {u : UInt8} {km : KeyMeta}
    {line : LogLine} :
    line ∈ healLine now keys u km
      ↔ u ∉ keys ∧ ∃ t, km.upMarkerNs = some t ∧ line = .heal u (nsToMs (now - t)) := by
  rw [healLine]
  by_cases hkeys : u ∈ keys
  · simp [hkeys]
  · cases km.upMarkerNs <;> simp [hkeys]

/-- **The lines of a snapshot** are about the keys it releases for which a marker is set. -/
lemma heal_mem_reconcile {now : UInt64} {mods : UInt8} {keys : UnorderedSet UInt8}
    {s : KeyState} {u : UInt8} {healMs : ℚ} :
    .heal u healMs ∈ (reconcile now mods keys s).2
      ↔ u ∈ s.pressed ∧ u ∉ keys
        ∧ ∃ t, (s.keymeta u).upMarkerNs = some t ∧ healMs = nsToMs (now - t) := by
  show _ ∈ (Sweep.sweep _ _ keys.toList _).2 ↔ _
  rw [Sweep.mem_sweep_snd keys.nodup, Sweep.mem_sweep_snd s.pressed.nodup]
  simp only [List.not_mem_nil, false_or, and_false, exists_false, or_false,
    UnorderedSet.mem_toList]
  constructor
  · rintro ⟨v, hv, hline⟩
    rcases mem_healLine.mp hline with ⟨hkeys, t, hmarker, heq⟩
    rcases LogLine.heal.inj heq with ⟨rfl, hms⟩
    exact ⟨hv, hkeys, t, hmarker, hms⟩
  · rintro ⟨hu, hkeys, t, hmarker, rfl⟩
    exact ⟨u, hu, mem_healLine.mpr ⟨hkeys, t, hmarker, rfl⟩⟩

end QuicKeys.Daemon
