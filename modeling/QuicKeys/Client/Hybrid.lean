import Mathlib.Data.Char
import Mathlib.Data.List.Lex
import QuicKeys.Lib.Ascii
import QuicKeys.Lib.Bitmap
import QuicKeys.Lib.Runs
import QuicKeys.Lib.UnorderedSet

/-!
# The hybrid client

`hybrid_run.py`: the state machine that keeps the pressed set, and the encoders of edges
and snapshots. Strings are lists of characters, the set of pressed usages is a Python set
of integers. `struct.pack` takes its arguments in range here (`UInt32`, `UInt64`).
-/

namespace QuicKeys.Client

open Ascii

/-! ## Keys -/

/-- `str.lower` of one character, as far as the result touches ASCII: the capital letters,
the Kelvin sign, and the capital I with dot, which becomes two characters. -/
def lower (c : Char) : List Char :=
  if 'A' ≤ c ∧ c ≤ 'Z' then [Char.ofNat (c.toNat + 32)]
  else if c.toNat = 0x212A then ['k']
  else if c.toNat = 0x130 then ['i', Char.ofNat 0x307]
  else [c]

/-- `usage_for_key`; `none` is the exception `ord` raises on two characters. -/
def usageForKey (key : List Char) : Option ℤ :=
  if key = ['E', 'N', 'T', 'E', 'R'] then some 0x28
  else match key with
    | [ch] =>
      let c := lower ch
      if ['a'] ≤ c ∧ c ≤ ['z'] then
        match c with
        | [x] => some (0x04 + ((x.toNat : ℤ) - ('a').toNat))
        | _ => none
      -- the daemon has no usage for this key
      else if c = [' '] then some 0x2C
      else some 0
    | _ => some 0

/-- `cmd` of an event. -/
inductive Cmd
  | down
  | mup
  | up
deriving DecidableEq

/-- The word for it. -/
def Cmd.name : Cmd → List Char
  | .down => ['d', 'o', 'w', 'n']
  | .mup => ['m', 'u', 'p']
  | .up => ['u', 'p']

/-- One event of `state_machine`; `none` if `usage_for_key` raises. -/
def stateMachine (ord : IterOrder ℤ) (pressed : UnorderedSet ℤ) (cmd : Cmd)
    (key : List Char) : Option (UnorderedSet ℤ) := do
  let u ← if key = [] then some 0 else usageForKey key
  if cmd = .down ∧ u ≠ 0 then return pressed.insert ord u
  else if cmd = .up ∧ u ≠ 0 then return pressed.erase u
  else return pressed

/-! ## Encoders -/

/-- `bitmap_from_pressed`. -/
def bitmapFromPressed (pressed : UnorderedSet ℤ) : List UInt8 :=
  pressed.toList.foldl
    (fun b u => if 0 ≤ u ∧ u < 256 then Bitmap.setBit b u.toNat else b) (List.replicate 32 0)

/-- `struct.pack("!I", x)`. -/
def packU32 (x : UInt32) : List UInt8 :=
  [(x >>> 24).toUInt8, (x >>> 16).toUInt8, (x >>> 8).toUInt8, x.toUInt8]

/-- `struct.pack("!Q", x)`. -/
def packU64 (x : UInt64) : List UInt8 :=
  packU32 (x >>> 32).toUInt32 ++ packU32 x.toUInt32

/-- What `build_snapshot` takes besides the bitmap; `tMs` is the millisecond value it
computes from its clock reading. -/
structure SnapshotArgs where
  mods : UInt32 := 0
  version : UInt32 := 1
  seq : UInt32 := 0
  tMs : UInt64 := 0

/-- `build_snapshot`. -/
def buildSnapshot (a : SnapshotArgs) (pressedBits : List UInt8) : List UInt8 :=
  packU32 a.version ++ packU32 a.seq ++ packU64 a.tMs ++ packU32 a.mods ++ pressedBits

/-- `build_edge_msg`. -/
def buildEdgeMsg (cmd : Cmd) (key : List Char) (tNs : ℕ) : List UInt8 :=
  utf8 (['t', '='] ++ Nat.toDigits 10 tNs ++ [' '] ++ cmd.name ++ [' '] ++ key)

/-! ## The keys of the workloads -/

/-- The keys `a` to `z` and `ENTER`. -/
inductive Key
  | letter (i : Fin 26)
  | enter
deriving DecidableEq

/-- The name of a key in an event. -/
def Key.name : Key → List Char
  | .letter i => [Char.ofNat (0x61 + i)]
  | .enter => ['E', 'N', 'T', 'E', 'R']

/-- The usage of a key. -/
def Key.usage : Key → UInt8
  | .letter i => UInt8.ofNat (4 + i)
  | .enter => 0x28

/-- A usage, as a Python integer. -/
def usageInt (u : UInt8) : ℤ := u.toNat

lemma usageInt_inj {u v : UInt8} : usageInt u = usageInt v ↔ u = v := by
  rw [usageInt, usageInt, Int.natCast_inj, UInt8.toNat_inj]

lemma usageForKey_name (k : Key) : usageForKey k.name = some (usageInt k.usage) := by
  cases k with
  | letter i =>
    revert i
    decide
  | enter => decide

lemma name_ne_nil (k : Key) : k.name ≠ [] := by
  cases k <;> exact List.cons_ne_nil _ _

lemma usageInt_usage_ne_zero (k : Key) : usageInt k.usage ≠ 0 := by
  cases k with
  | letter i =>
    revert i
    decide
  | enter => decide

/-- The command of an edge. -/
def edgeCmd (down : Bool) : Cmd := if down then .down else .up

/-- On the keys of the workloads, an edge adds or discards the usage. -/
lemma stateMachine_edge (ord : IterOrder ℤ) (pressed : UnorderedSet ℤ) (down : Bool) (k : Key) :
    stateMachine ord pressed (edgeCmd down) k.name
      = some (if down then pressed.insert ord (usageInt k.usage)
        else pressed.erase (usageInt k.usage)) := by
  cases down <;>
    simp [stateMachine, edgeCmd, name_ne_nil, usageForKey_name, usageInt_usage_ne_zero]

/-- A marker leaves the set alone. -/
lemma stateMachine_mup (ord : IterOrder ℤ) (pressed : UnorderedSet ℤ) (k : Key) :
    stateMachine ord pressed .mup k.name = some pressed := by
  simp [stateMachine, name_ne_nil, usageForKey_name]

/-- An edge on a key of the workloads. -/
structure KeyEdge where
  down : Bool
  key : Key
  ord : IterOrder ℤ

/-- The pressed set after one more edge. -/
def pressedAfter (pressed : UnorderedSet ℤ) (e : KeyEdge) : UnorderedSet ℤ :=
  (stateMachine e.ord pressed (edgeCmd e.down) e.key.name).getD pressed

/-- The pressed set after a history. -/
def pressedSet (h : List KeyEdge) : UnorderedSet ℤ := h.foldl pressedAfter ∅

lemma mem_pressedAfter {pressed : UnorderedSet ℤ} {e : KeyEdge} {z : ℤ} :
    z ∈ pressedAfter pressed e
      ↔ if z = usageInt e.key.usage then e.down = true else z ∈ pressed := by
  rw [pressedAfter, stateMachine_edge, Option.getD_some]
  by_cases hz : z = usageInt e.key.usage <;> cases e.down <;> simp [hz]

/-- All members are usages of keys. -/
def KeysOnly (pressed : UnorderedSet ℤ) : Prop :=
  ∀ z ∈ pressed, ∃ k : Key, z = usageInt k.usage

lemma keysOnly_pressedAfter {pressed : UnorderedSet ℤ} (h : KeysOnly pressed) (e : KeyEdge) :
    KeysOnly (pressedAfter pressed e) := by
  intro z hz
  rw [mem_pressedAfter] at hz
  split at hz
  · rename_i hzu
    exact ⟨e.key, hzu⟩
  · exact h z hz

lemma keysOnly_pressedSet (h : List KeyEdge) : KeysOnly (pressedSet h) :=
  Runs.foldl_invariant (I := KeysOnly) (fun _ e hs => keysOnly_pressedAfter hs e)
    (fun z hz => absurd hz (UnorderedSet.not_mem_empty z)) h

/-! ## What the encoders produce -/

/-- A bit of the bitmap is set iff its number is in the set. -/
lemma bit_bitmapFromPressed (pressed : UnorderedSet ℤ) (u : UInt8) :
    Bitmap.bit (bitmapFromPressed pressed) u.toNat = decide (usageInt u ∈ pressed) := by
  have hfold (l : List ℤ) (b : List UInt8) :
      l.foldl (fun b u => if 0 ≤ u ∧ u < 256 then Bitmap.setBit b u.toNat else b) b
        = ((l.filter fun u => decide (0 ≤ u ∧ u < 256)).map Int.toNat).foldl Bitmap.setBit b := by
    rw [List.foldl_map, List.foldl_filter]
    simp only [decide_eq_true_eq]
  rw [bitmapFromPressed, hfold, Bitmap.bit_foldl_setBit]
  · rw [Bitmap.bit_replicate_zero, Bool.or_false]
    congr 1
    simp only [List.mem_map, List.mem_filter, decide_eq_true_eq, eq_iff_iff,
      UnorderedSet.mem_toList]
    have hlt := u.toNat_lt
    constructor
    · intro hmem
      rcases hmem with ⟨z, ⟨hz, h0, h256⟩, hzu⟩
      rwa [show usageInt u = z by rw [usageInt]; omega]
    · intro hu
      exact ⟨usageInt u, ⟨hu, by rw [usageInt]; omega, by rw [usageInt]; omega⟩, rfl⟩
  · intro n hn
    simp only [List.mem_map, List.mem_filter, decide_eq_true_eq] at hn
    rcases hn with ⟨z, ⟨-, h0, h256⟩, rfl⟩
    simp
    omega

@[simp] lemma length_bitmapFromPressed (pressed : UnorderedSet ℤ) :
    (bitmapFromPressed pressed).length = 32 := by
  rw [bitmapFromPressed]
  refine List.foldlRecOn (motive := fun b : List UInt8 => b.length = 32) _ _ (by simp)
    fun b hb u _ => ?_
  split
  · rw [Bitmap.length_setBit, hb]
  · exact hb

/-- A snapshot is 20 bytes in front of its bitmap, the last of which is the low byte of the
modifiers. -/
lemma buildSnapshot_eq (a : SnapshotArgs) (bits : List UInt8) :
    ∃ hdr : List UInt8, hdr.length = 19 ∧ buildSnapshot a bits = hdr ++ a.mods.toUInt8 :: bits :=
  ⟨packU32 a.version ++ packU32 a.seq ++ packU64 a.tMs
      ++ [(a.mods >>> 24).toUInt8, (a.mods >>> 16).toUInt8, (a.mods >>> 8).toUInt8],
    rfl, by simp [buildSnapshot, packU32]⟩

end QuicKeys.Client
