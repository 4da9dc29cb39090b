import Mathlib.Data.Rat.Init
import Mathlib.Tactic.NormNum
import QuicKeys.Lib.MachineInt
import QuicKeys.Lib.UnorderedSet

/-!
# The daemon's key state

What `state_mu` guards: the set of pressed usages, the modifier byte and the per-key
metadata. Machine words keep their width (`uint64_t` clock readings are `UInt64`, so that
`now_ns - last_snapshot_ns` wraps as it does in the code; the `int` options are `Int32`).

The latencies the daemon prints are doubles; here they are the exact quotients
(`nsToMs`). The only comparison made with one is against an `int` number of
milliseconds, where the double comparison agrees with the exact one: up to the deadline
the nanoseconds are below `2 ^ 53`, and one nanosecond beyond it already exceeds half the
spacing of the doubles there.
-/

namespace QuicKeys.Daemon

/-- The options the handlers read. -/
structure Args where
  watchdogMs : Int32 := 200
  deadlineMs : Int32 := 100
  stuckMs : Int32 := 300
  verbose : Bool := false

/-- What is kept for each of the 256 usages. -/
structure KeyMeta where
  pressed : Bool := false
  lastEdgeNs : UInt64 := 0
  lastSnapshotNs : UInt64 := 0
  upMarkerNs : Option UInt64 := none
  stuckReported : Bool := false
deriving DecidableEq

/-- The data guarded by `state_mu`. -/
@[ext] structure KeyState where
  pressed : UnorderedSet UInt8 := ∅
  modifiers : UInt8 := 0x00
  keymeta : UInt8 → KeyMeta := fun _ => {}

/-- The lines written to `std::cerr` by the handlers, other than progress messages. -/
inductive LogLine
  | heal (key : UInt8) (healMs : ℚ)
  | stuck (key : UInt8) (ageMs : ℚ)
  | watchdog (key : UInt8) (ageMs : ℚ)
  | drop (dtMs : ℚ) (cmd key : List UInt8)
  | dropQuicEdge (dtMs : ℚ) (key : UInt16)
  | lat (dtMs : ℚ) (cmd key : List UInt8)
  | latQuicEdge (dtMs : ℚ) (seq : UInt32) (usage : UInt16)
deriving DecidableEq

/-- What a handler leaves behind: the key state, its log lines, and whether it goes on to
capture and send a report. -/
structure Outcome where
  state : KeyState
  log : List LogLine := []
  emit : Bool := false

/-! ## Time -/

/-- `ns_to_ms`. -/
def nsToMs (ns : UInt64) : ℚ := ns.toNat / 10 ^ 6

lemma nsToMs_nonneg (ns : UInt64) : 0 ≤ nsToMs ns :=
  div_nonneg (Nat.cast_nonneg _) (by norm_num)

/-- `(uint64_t)ms * 1000000ULL`. -/
def msToNs (ms : Int32) : UInt64 := ms.toInt64.toUInt64 * 1000000

/-- A positive option in nanoseconds is exact: it does not overflow. -/
lemma toNat_msToNs {ms : Int32} (h : 0 < ms) : (msToNs ms).toNat = ms.toInt.toNat * 10 ^ 6 :=
  MachineInt.toNat_toUInt64_mul h (by decide)

/-! ## One entry of `keymeta` -/

/-- `auto& km = keymeta[u]; ...`: rewrite the entry of one usage. -/
def KeyState.modifyMeta (s : KeyState) (u : UInt8) (f : KeyMeta → KeyMeta) : KeyState :=
  { s with keymeta := Function.update s.keymeta u (f (s.keymeta u)) }

section ModifyMeta

variable (s : KeyState) (u v : UInt8) (f : KeyMeta → KeyMeta)

@[simp] lemma pressed_modifyMeta : (s.modifyMeta u f).pressed = s.pressed := rfl

@[simp] lemma modifiers_modifyMeta : (s.modifyMeta u f).modifiers = s.modifiers := rfl

lemma keymeta_modifyMeta :
    (s.modifyMeta u f).keymeta v = if v = u then f (s.keymeta v) else s.keymeta v := by
  show Function.update s.keymeta u (f (s.keymeta u)) v = _
  rw [Function.update_apply]
  split
  · rename_i h
    rw [h]
  · rfl

@[simp] lemma keymeta_modifyMeta_self : (s.modifyMeta u f).keymeta u = f (s.keymeta u) := by
  rw [keymeta_modifyMeta, if_pos rfl]

end ModifyMeta

end QuicKeys.Daemon
