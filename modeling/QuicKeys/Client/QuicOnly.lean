import QuicKeys.Client.Decoding

/-!
# The client without UDP

`baselines_quic_only.py`: every edge is one record of 16 bytes on a QUIC stream. The daemon
decodes a record to the edge it was made of.
-/

namespace QuicKeys.Client.QuicOnly

open Daemon

/-! ## The encoder -/

/-- `usage_for_key` of this client, which has no usage for the space; `none` is the exception
`ord` raises on two characters. -/
def usageForKey (key : List Char) : Option ℤ :=
  if key = ['E', 'N', 'T', 'E', 'R'] then some 0x28
  else match key with
    | [ch] =>
      let c := lower ch
      if ['a'] ≤ c ∧ c ≤ ['z'] then
        match c with
        | [x] => some (0x04 + ((x.toNat : ℤ) - ('a').toNat))
        | _ => none
      else some 0
    | _ => some 0

/-- Only the space is the space in lower case. -/
lemma eq_space_of_lower {ch : Char} (h : lower ch = [' ']) : ch = ' ' := by
  rw [lower] at h
  split at h
  · rename_i hcap
    have hlow : 65 ≤ ch.toNat := hcap.1
    have hhigh : ch.toNat ≤ 90 := hcap.2
    have hval : (Char.ofNat (ch.toNat + 32)).toNat = ch.toNat + 32 := by
      rw [Char.ofNat, dif_pos (Or.inl (by omega))]
      rfl
    rw [List.singleton_inj.mp h, show (' ').toNat = 32 from rfl] at hval
    omega
  · split at h
    · exact absurd h (by decide)
    · split at h
      · exact absurd h (by decide)
      · exact List.singleton_inj.mp h

/-- The table of this client is that of the hybrid client without the space. -/
theorem usageForKey_eq (key : List Char) :
    usageForKey key = if key = [' '] then some 0 else Client.usageForKey key := by
  by_cases hspace : key = [' ']
  · subst hspace
    rfl
  rw [if_neg hspace]
  unfold usageForKey Client.usageForKey
  match key with
  | [] => rfl
  | [ch] =>
    have hlower : lower ch ≠ [' '] := fun hl => hspace (by rw [eq_space_of_lower hl])
    have hzero : (if lower ch = [' '] then some 0x2C else some 0) = some (0 : ℤ) := if_neg hlower
    exact (congrArg (ite _ _) (congrArg (ite _ _) hzero)).symm
  | _ :: _ :: _ => rfl

/-- `struct.pack("!H", x)`. -/
def packU16 (x : UInt16) : List UInt8 := [(x >>> 8).toUInt8, x.toUInt8]

/-- `struct.pack("!IQHBB", seq, t_ms, usage, 1 if cmd == "down" else 0, 0)`. -/
def packEdge (seq : UInt32) (tMs : UInt64) (usage : UInt16) (cmd : Cmd) : List UInt8 :=
  packU32 seq ++ packU64 tMs ++ packU16 usage ++ [if cmd = .down then 1 else 0, 0]

/-- What is written to the stream for one event; a key without a usage is skipped. -/
def writeEdge (seq : UInt32) (tMs : UInt64) (cmd : Cmd) (key : List Char) :
    Option (List UInt8) := do
  let usage ← usageForKey key
  if usage = 0 then return []
  else return packEdge seq tMs (UInt16.ofNat usage.toNat) cmd

/-! ## What the daemon reads -/

section Decode

variable (seq : UInt32) (tMs : UInt64) (usage : UInt16) (cmd : Cmd)

@[simp] lemma length_packEdge : (packEdge seq tMs usage cmd).length = 16 := rfl

/-- `be_u64` reads the milliseconds back. -/
lemma beU64_packEdge : beU64 ((packEdge seq tMs usage cmd).drop 4) = tMs := by
  rw [← UInt64.toNat_inj, ← bigEndian_packU64 tMs,
    ← MachineInt.toNat_foldl_shiftLeft_or (l := packU64 tMs) (Nat.le_refl 8)]
  rfl

/-- The two bytes of the usage make it up. -/
lemma usage_packEdge :
    ((packEdge seq tMs usage cmd).getD 12 0).toUInt16 <<< 8
      ||| ((packEdge seq tMs usage cmd).getD 13 0).toUInt16 = usage := by
  show (usage >>> 8).toUInt8.toUInt16 <<< 8 ||| usage.toUInt8.toUInt16 = usage
  have hlt := usage.toNat_lt
  have hhigh : ((usage >>> 8).toUInt8.toUInt16 <<< 8).toNat = (usage.toNat / 256) <<< 8 := by
    rw [UInt16.toNat_shiftLeft, Nat.shiftLeft_eq, Nat.shiftLeft_eq]
    simp [Nat.shiftRight_eq_div_pow]
    omega
  rw [← UInt16.toNat_inj, UInt16.toNat_or, hhigh, UInt8.toNat_toUInt16, UInt16.toNat_toUInt8,
    ← Nat.shiftLeft_add_eq_or_of_lt (Nat.mod_lt _ (by decide)), Nat.shiftLeft_eq]
  omega

end Decode

lemma usageForKey_name (k : Key) : usageForKey k.name = some (usageInt k.usage) := by
  have hspace : k.name ≠ [' '] := by
    cases k with
    | letter i =>
      revert i
      decide
    | enter => decide
  rw [usageForKey_eq, if_neg hspace, Client.usageForKey_name]

/-- The record of an edge on a key of the workloads. -/
lemma writeEdge_name (seq : UInt32) (tMs : UInt64) (cmd : Cmd) (k : Key) :
    writeEdge seq tMs cmd k.name = some (packEdge seq tMs k.usage.toUInt16 cmd) := by
  have husage : UInt16.ofNat (usageInt k.usage).toNat = k.usage.toUInt16 := by
    rw [usageInt, Int.toNat_natCast, ← UInt16.toNat_inj, UInt16.toNat_ofNat',
      UInt8.toNat_toUInt16]
    exact Nat.mod_eq_of_lt (Nat.lt_trans k.usage.toNat_lt (by decide))
  rw [writeEdge, usageForKey_name, Option.bind_eq_bind, Option.bind_some,
    if_neg (usageInt_usage_ne_zero k), husage]
  rfl

/-- A record, when the callback gets it. -/
def recordEvent (data : List UInt8) (now : UInt64) (ord : IterOrder UInt8) : Event where
  msg := .quicEdge data
  now
  ord

/-- The age of a record, 0 if its clock is ahead. -/
def age (now tMs : UInt64) : ℚ := if tMs ≤ now / 1000000 then (now / 1000000 - tMs).toNat else 0

/-- The daemon's reading of the clock is not past the deadline of a record stamped `tMs`. -/
def WithinDeadline (args : Args) (now tMs : UInt64) : Prop :=
  ¬(0 < args.deadlineMs ∧ (args.deadlineMs.toInt : ℚ) < age now tMs)

lemma withinDeadline_of_le {args : Args} (hdl : args.deadlineMs ≤ 0) {now tMs : UInt64} :
    WithinDeadline args now tMs :=
  fun h => absurd h.1 (Int32.not_lt.mpr hdl)

section Verdict

variable {args : Args} {now tMs : UInt64} (seq : UInt32) (k : Key) (down : Bool)

/-- A record within the deadline is an edge. -/
lemma quicVerdict_packEdge (h : WithinDeadline args now tMs) :
    quicVerdict args now (packEdge seq tMs k.usage.toUInt16 (edgeCmd down))
      = .edge 0 down k.usage.toUInt16 (age now tMs)
        (beU32 (packEdge seq tMs k.usage.toUInt16 (edgeCmd down))) := by
  have hlt : k.usage.toUInt16 < 256 := by
    rw [UInt16.lt_iff_toNat_lt, UInt8.toNat_toUInt16]
    exact k.usage.toNat_lt
  unfold quicVerdict
  dsimp only
  rw [if_neg (by simp), beU64_packEdge, usage_packEdge, ← age, if_neg h, if_pos hlt]
  cases down <;> rfl

/-- A record past the deadline is dropped. -/
lemma quicVerdict_packEdge_of_not (h : ¬WithinDeadline args now tMs) :
    quicVerdict args now (packEdge seq tMs k.usage.toUInt16 (edgeCmd down))
      = .drop (age now tMs) k.usage.toUInt16 := by
  unfold quicVerdict
  dsimp only
  rw [if_neg (by simp), beU64_packEdge, usage_packEdge, ← age, if_pos (Classical.not_not.mp h)]

end Verdict

/-- **A record within the deadline** presses or releases its key and clears the modifiers. -/
theorem effectOf_record {args : Args} {now tMs : UInt64} (seq : UInt32) (k : Key)
    (ord : IterOrder UInt8) (down : Bool) (h : WithinDeadline args now tMs) :
    effectOf args (recordEvent (packEdge seq tMs k.usage.toUInt16 (edgeCmd down)) now ord)
      = .edge (some 0) down k.usage := by
  unfold effectOf recordEvent
  dsimp only
  rw [quicVerdict_packEdge seq k down h]
  dsimp only
  rw [UInt8.toUInt8_toUInt16]

end QuicKeys.Client.QuicOnly
