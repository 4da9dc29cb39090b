import QuicKeys.Daemon.State

/-!
# Edges

The update that both edge handlers make under `state_mu`, each with a copy of its own, and the
callback of the listener for binary edge records (`!IQHBB`: sequence number, milliseconds, usage,
command, modifiers).
-/

namespace QuicKeys.Daemon

/-! ## The update -/

/-- What an edge does: the key's entry and its membership change together. -/
def applyEdge (ord : IterOrder UInt8) (now : UInt64) (down : Bool) (usage : UInt8)
    (s : KeyState) : KeyState :=
  if down then
    { s.modifyMeta usage fun km =>
        { km with lastEdgeNs := now, pressed := true, stuckReported := false } with
      pressed := s.pressed.insert ord usage }
  else
    { s.modifyMeta usage fun km =>
        { km with
          lastEdgeNs := now, pressed := false, upMarkerNs := none, stuckReported := false } with
      pressed := s.pressed.erase usage }

/-- The entry of the key after an edge. -/
def edgeMeta (now : UInt64) (down : Bool) (km : KeyMeta) : KeyMeta :=
  { km with
    lastEdgeNs := now, pressed := down, stuckReported := false
    upMarkerNs := if down then km.upMarkerNs else none }

section ApplyEdge

variable (ord : IterOrder UInt8) (now : UInt64) (down : Bool) (u v : UInt8) (s : KeyState)

/-- **An edge** puts its key into the set or takes it out, and leaves the others. -/
theorem mem_applyEdge_pressed :
    v ∈ (applyEdge ord now down u s).pressed
      ↔ if v = u then down = true else v ∈ s.pressed := by
  unfold applyEdge
  by_cases hv : v = u <;> cases down <;> simp [hv]

@[simp] lemma applyEdge_modifiers :
    (applyEdge ord now down u s).modifiers = s.modifiers := by
  unfold applyEdge
  split <;> rfl

lemma applyEdge_keymeta :
    (applyEdge ord now down u s).keymeta v
      = if v = u then edgeMeta now down (s.keymeta v) else s.keymeta v := by
  cases down
  · exact keymeta_modifyMeta s u v fun km =>
      { km with lastEdgeNs := now, pressed := false, upMarkerNs := none, stuckReported := false }
  · exact keymeta_modifyMeta s u v fun km =>
      { km with lastEdgeNs := now, pressed := true, stuckReported := false }

end ApplyEdge

/-! ## Binary edge records -/

/-- `be_u32`. -/
def beU32 (p : List UInt8) : UInt32 :=
  (p.getD 0 0).toUInt32 <<< 24 ||| (p.getD 1 0).toUInt32 <<< 16
    ||| (p.getD 2 0).toUInt32 <<< 8 ||| (p.getD 3 0).toUInt32

/-- `be_u64`. -/
def beU64 (p : List UInt8) : UInt64 :=
  (List.range 8).foldl (fun v i => v <<< 8 ||| (p.getD i 0).toUInt64) 0

/-- What the callback decides about a record before it takes the lock. -/
inductive QuicVerdict
  | short
  | drop (dtMs : ℚ) (usage : UInt16)
  | noKey
  | edge (mods : UInt8) (down : Bool) (usage : UInt16) (dtMs : ℚ) (seq : UInt32)

/-- The callback up to the critical section: length, deadline and range of the usage. The
age is clamped at 0 when the client's clock is ahead. -/
def quicVerdict (args : Args) (now : UInt64) (data : List UInt8) : QuicVerdict :=
  if data.length < 16 then .short
  else
    let seq := beU32 data
    let tMs := beU64 (data.drop 4)
    let usage := (data.getD 12 0).toUInt16 <<< 8 ||| (data.getD 13 0).toUInt16
    let cmd := data.getD 14 0
    let mods := data.getD 15 0
    let nowMs := now / 1000000
    let dtMs : ℚ := if tMs ≤ nowMs then (nowMs - tMs).toNat else 0
    -- no wrapping here: the age is clamped at 0
    if 0 < args.deadlineMs ∧ (args.deadlineMs.toInt : ℚ) < dtMs then .drop dtMs usage
    -- every command other than 1 is a release
    else if usage < 256 then .edge mods (cmd == 1) usage dtMs seq
    else .noKey

/-- The critical section of the callback. -/
def applyQuicEdge (ord : IterOrder UInt8) (now : UInt64) (mods : UInt8) (down : Bool)
    (usage : UInt8) (s : KeyState) : KeyState :=
  let s := { s with modifiers := mods }
  if down then
    { s.modifyMeta usage fun km =>
        { km with lastEdgeNs := now, pressed := true, stuckReported := false } with
      pressed := s.pressed.insert ord usage }
  else
    { s.modifyMeta usage fun km =>
        { km with
          lastEdgeNs := now, pressed := false, stuckReported := false, upMarkerNs := none } with
      pressed := s.pressed.erase usage }

/-- It sets the modifiers first, and is the update of an edge. -/
@[simp] lemma applyQuicEdge_eq (ord : IterOrder UInt8) (now : UInt64) (mods : UInt8) (down : Bool)
    (usage : UInt8) (s : KeyState) :
    applyQuicEdge ord now mods down usage s
      = applyEdge ord now down usage { s with modifiers := mods } := by
  cases down <;> rfl

/-- The edge callback. -/
def quicEdgeCallback (args : Args) (ord : IterOrder UInt8) (now : UInt64) (data : List UInt8)
    (s : KeyState) : Outcome :=
  match quicVerdict args now data with
  | .short => { state := s }
  | .drop dtMs usage => { state := s, log := [.dropQuicEdge dtMs usage] }
  | .noKey => { state := s }
  | .edge mods down usage dtMs seq =>
    { state := applyQuicEdge ord now mods down usage.toUInt8 s
      log := [.latQuicEdge dtMs seq usage]
      emit := true }

end QuicKeys.Daemon
