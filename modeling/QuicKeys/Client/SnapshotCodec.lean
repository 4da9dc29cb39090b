import QuicKeys.Client.Decoding

/-!
# The snapshot codec

`build_snapshot` on the client and `parse_snapshot` on the daemon: what is encoded of any
set of integers comes out as its keyboard usages, and what is decoded of any record
survives being encoded and decoded again.
-/

namespace QuicKeys.Client

open Daemon

/-- The size of the records the daemon takes off a snapshot stream. -/
def snapshotSize : ℕ := 52

/-- `parse_snapshot` succeeds on a record and leaves this state. -/
def Parses (ord : IterOrder UInt8) (now : UInt64) (data : List UInt8) (s s' : KeyState) : Prop :=
  ∃ log, parseSnapshot ord now data s = some (s', log)

/-- The client's set for pressed keys of the daemon. -/
def usageInts (keys : UnorderedSet UInt8) : UnorderedSet ℤ where
  toList := keys.toList.map usageInt
  nodup := keys.nodup.map fun _ _ h => usageInt_inj.mp h

/-- What is decoded, encoded again; version, sequence number and time are free. -/
def reencode (a : SnapshotArgs) (s : KeyState) : List UInt8 :=
  buildSnapshot { a with mods := s.modifiers.toUInt32 } (bitmapFromPressed (usageInts s.pressed))

/-- The keyboard usages, as integers. -/
lemma isKeyboardUsage_iff_usageInt (u : UInt8) :
    isKeyboardUsage u = true ↔ 0x04 ≤ usageInt u ∧ usageInt u ≤ 0xA5 := by
  rw [isKeyboardUsage_iff, usageInt]
  omega

lemma mem_usageInts {keys : UnorderedSet UInt8} {u : UInt8} :
    usageInt u ∈ usageInts keys ↔ u ∈ keys := by
  show usageInt u ∈ keys.toList.map usageInt ↔ _
  rw [List.mem_map_of_injective fun _ _ h => usageInt_inj.mp h]
  exact Iff.rfl

lemma length_buildSnapshot (a : SnapshotArgs) (pressed : UnorderedSet ℤ) :
    (buildSnapshot a (bitmapFromPressed pressed)).length = snapshotSize := by
  rcases buildSnapshot_eq a (bitmapFromPressed pressed) with ⟨hdr, hlen, heq⟩
  rw [heq, List.length_append, List.length_cons, hlen, length_bitmapFromPressed]
  rfl

section Parse

variable (ord : IterOrder UInt8) (now : UInt64) (s : KeyState)

lemma parses_of_decode {data : List UInt8} {mods : UInt8} {keys : UnorderedSet UInt8}
    (h : decodeSnapshot ord data = some (mods, keys)) :
    Parses ord now data s (reconcile now mods keys s).1 :=
  ⟨(reconcile now mods keys s).2, by rw [parseSnapshot, h, Option.map_some]⟩

/-- The record of a snapshot parses in any state. -/
lemma parses_buildSnapshot (a : SnapshotArgs) (pressed : UnorderedSet ℤ) :
    ∃ s', Parses ord now (buildSnapshot a (bitmapFromPressed pressed)) s s'
      ∧ s'.modifiers = a.mods.toUInt8
      ∧ ∀ u, u ∈ s'.pressed ↔ isKeyboardUsage u = true ∧ usageInt u ∈ pressed :=
  ⟨_, parses_of_decode ord now s (decodeSnapshot_buildSnapshot ord a pressed), rfl,
    fun _ => mem_newPressed_bitmapFromPressed⟩

/-- Any record of the right size does, and yields keyboard usages only. -/
lemma parses_of_length {data : List UInt8} (h : data.length = snapshotSize) :
    ∃ s', Parses ord now data s s' ∧ ∀ u ∈ s'.pressed, isKeyboardUsage u = true := by
  have hdecode : decodeSnapshot ord data = some (snapMods data, newPressed ord (data.drop 20)) := by
    rw [decodeSnapshot, if_neg (by rw [h]; decide)]
  exact ⟨_, parses_of_decode ord now s hdecode, fun u hu => (mem_newPressed.mp hu).1⟩

end Parse

/-- **The snapshot codec.** A snapshot of any set of integers has the size of a record, and in
any state the daemon reads its modifiers modulo 256 and its keyboard usages back. What it
reads off any record is what it reads off the snapshot of that. -/
theorem snapshotCodec :
    (∀ (a : SnapshotArgs) (pressed : UnorderedSet ℤ),
        (buildSnapshot a (bitmapFromPressed pressed)).length = snapshotSize
          ∧ ∀ ord now s, ∃ s', Parses ord now (buildSnapshot a (bitmapFromPressed pressed)) s s'
            ∧ s'.modifiers.toNat = a.mods.toNat % 256
            ∧ ∀ z : ℤ, (∃ u ∈ s'.pressed, usageInt u = z) ↔ z ∈ pressed ∧ 0x04 ≤ z ∧ z ≤ 0xA5)
      ∧ ∀ (record : Vector UInt8 snapshotSize) ord now s, ∃ s', Parses ord now record.toList s s'
        ∧ ∀ a ord' now' t, ∃ t', Parses ord' now' (reencode a s') t t'
          ∧ t'.modifiers = s'.modifiers ∧ ∀ u, u ∈ t'.pressed ↔ u ∈ s'.pressed := by
  constructor
  · intro a pressed
    refine ⟨length_buildSnapshot a pressed, fun ord now s => ?_⟩
    rcases parses_buildSnapshot ord now s a pressed with
      ⟨s', hparses, hmods, hpressed⟩
    refine ⟨s', hparses, by rw [hmods, UInt32.toNat_toUInt8], fun z => ?_⟩
    constructor
    · intro hz
      rcases hz with ⟨u, hu, rfl⟩
      rw [hpressed, isKeyboardUsage_iff_usageInt] at hu
      exact ⟨hu.2, hu.1⟩
    · intro hz
      rcases hz with ⟨hmem, hlow, hhigh⟩
      have hval : usageInt (UInt8.ofNat z.toNat) = z := by
        rw [usageInt, UInt8.toNat_ofNat']
        omega
      refine ⟨UInt8.ofNat z.toNat, (hpressed _).mpr ⟨?_, ?_⟩, hval⟩
      · rw [isKeyboardUsage_iff_usageInt, hval]
        exact ⟨hlow, hhigh⟩
      · rwa [hval]
  · intro record ord now s
    rcases parses_of_length ord now s record.length_toList with
      ⟨s', hparses, hvalid⟩
    refine ⟨s', hparses, fun a ord' now' t => ?_⟩
    rcases parses_buildSnapshot ord' now' t
      { a with mods := s'.modifiers.toUInt32 } (usageInts s'.pressed) with ⟨t', ht, hmods, hpressed⟩
    refine ⟨t', ht, by rw [hmods, UInt8.toUInt8_toUInt32], fun u => ?_⟩
    rw [hpressed, mem_usageInts]
    exact and_iff_right_of_imp (hvalid u)

end QuicKeys.Client
