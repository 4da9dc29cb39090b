import QuicKeys.Client.QuicOnly

/-!
# Two deadline filters

A datagram carries nanoseconds and a record milliseconds. Up to the granularity of the
milliseconds both filters accept and drop the same edges, unless the timestamp is ahead of
the daemon's clock: the filter of the records clamps the age at 0, the one of the datagrams
lets it wrap, and what is ahead looks very old.
-/

namespace QuicKeys.Client.QuicOnly

open Daemon

/-! ## Accepting and dropping -/

/-- The handler presses or releases the key. -/
def Accepts (args : Args) (e : Event) (down : Bool) (usage : UInt8) : Prop :=
  ∃ mods, effectOf args e = .edge mods down usage

/-- A line `[drop]`. -/
def isDropLine : LogLine → Bool
  | .drop .. => true
  | .dropQuicEdge .. => true
  | _ => false

/-- The handler does nothing but say that it drops the edge. -/
def Drops (args : Args) (e : Event) : Prop :=
  effectOf args e = .none ∧ ∀ s, ∃ line, (handle args s e).log = [line] ∧ isDropLine line = true

/-- The record of an edge at `t` nanoseconds. -/
def recordAt (t : UInt64) (seq : UInt32) (down : Bool) (k : Key) : List UInt8 :=
  packEdge seq (t / 1000000) k.usage.toUInt16 (edgeCmd down)

/-- Both paths accept an edge stamped `t`. -/
def BothAccept (args : Args) (now t : UInt64) : Prop :=
  ∀ down k seq ord, Accepts args (edgeEvent (edgeCmd down) k t now ord) down k.usage
    ∧ Accepts args (recordEvent (recordAt t seq down k) now ord) down k.usage

/-- Both paths drop an edge stamped `t`. -/
def BothDrop (args : Args) (now t : UInt64) : Prop :=
  ∀ down k seq ord, Drops args (edgeEvent (edgeCmd down) k t now ord)
    ∧ Drops args (recordEvent (recordAt t seq down k) now ord)

/-- The paths agree up to the granularity of the clock: one millisecond before the deadline
both accept, as they do for an edge that is not behind the clock, and one millisecond after
it both drop. -/
structure Agree (args : Args) (now t : UInt64) : Prop where
  accept : now ≤ t ∨ (now.toNat : ℤ) - t.toNat ≤ (args.deadlineMs.toInt - 1) * 10 ^ 6 →
    BothAccept args now t
  drop : (args.deadlineMs.toInt + 1) * 10 ^ 6 ≤ (now.toNat : ℤ) - t.toNat →
    BothDrop args now t

/-! ## The filters, in nanoseconds -/

section Filters

variable {args : Args} (hD : 0 < args.deadlineMs) (now : UInt64) {t : UInt64}

include hD

/-- The filter of the datagrams. -/
lemma withinDeadline_datagram (ht : t ≠ 0) :
    Client.WithinDeadline args now t
      ↔ ((now - t).toNat : ℤ) ≤ args.deadlineMs.toInt * 10 ^ 6 := by
  rw [Client.WithinDeadline, and_iff_right hD, if_neg ht, nsToMs, not_lt,
    div_le_iff₀ (by norm_num)]
  norm_cast

/-- The filter of the records. -/
lemma withinDeadline_record :
    WithinDeadline args now (t / 1000000)
      ↔ ((now.toNat / 10 ^ 6 : ℕ) : ℤ) ≤ (t.toNat / 10 ^ 6 : ℕ) + args.deadlineMs.toInt := by
  have hpos : 0 < args.deadlineMs.toInt := by simpa using Int32.lt_iff_toInt_lt.mp hD
  have hnow : (now / 1000000).toNat = now.toNat / 10 ^ 6 := UInt64.toNat_div _ _
  have hms : (t / 1000000).toNat = t.toNat / 10 ^ 6 := UInt64.toNat_div _ _
  rw [WithinDeadline, and_iff_right hD, not_lt, age]
  by_cases hle : t / 1000000 ≤ now / 1000000
  · rw [if_pos hle, UInt64.toNat_sub_of_le _ _ hle, hnow, hms]
    rw [UInt64.le_iff_toNat_le, hnow, hms] at hle
    norm_cast
    omega
  -- the age is clamped
  · rw [if_neg hle]
    rw [UInt64.le_iff_toNat_le, hnow, hms] at hle
    norm_cast
    omega

end Filters

/-! ## What the filters decide -/

section Decide

variable {args : Args} {e : Event} {now t : UInt64}

/-- No event is accepted and dropped. -/
lemma Accepts.not_drops {down : Bool} {usage : UInt8} (h : Accepts args e down usage) :
    ¬Drops args e := by
  intro hdrop
  rcases h with ⟨mods, heff⟩
  rw [hdrop.1] at heff
  cases heff

lemma drops_datagram (down : Bool) (k : Key) (ord : IterOrder UInt8)
    (h : ¬Client.WithinDeadline args now t) :
    Drops args (edgeEvent (edgeCmd down) k t now ord) := by
  have hverdict := udpVerdict_edge_of_not k h down
  refine ⟨?_, fun s => ⟨.drop (nsToMs (now - if t = 0 then now else t))
    (Ascii.ascii (edgeCmd down).name) (Ascii.ascii k.name), ?_, rfl⟩⟩
  · unfold effectOf edgeEvent
    dsimp only
    rw [hverdict]
  · unfold handle edgeEvent
    dsimp only [handleDatagram]
    rw [hverdict]

lemma drops_record (seq : UInt32) (down : Bool) (k : Key) (ord : IterOrder UInt8)
    (h : ¬WithinDeadline args now (t / 1000000)) :
    Drops args (recordEvent (recordAt t seq down k) now ord) := by
  have hverdict := quicVerdict_packEdge_of_not seq k down h
  refine ⟨?_, fun s =>
    ⟨.dropQuicEdge (age now (t / 1000000)) k.usage.toUInt16, ?_, rfl⟩⟩
  · unfold effectOf recordEvent
    dsimp only [recordAt]
    rw [hverdict]
  · unfold handle recordEvent
    dsimp only [quicEdgeCallback, recordAt]
    rw [hverdict]

lemma bothAccept_iff :
    BothAccept args now t
      ↔ Client.WithinDeadline args now t ∧ WithinDeadline args now (t / 1000000) := by
  constructor
  · intro h
    rcases h true .enter 0 (IterOrder.front UInt8) with ⟨hdatagram, hrecord⟩
    constructor
    · by_contra hlate
      exact hdatagram.not_drops (drops_datagram _ _ _ hlate)
    · by_contra hlate
      exact hrecord.not_drops (drops_record _ _ _ _ hlate)
  · intro h down k seq ord
    exact ⟨⟨_, effectOf_edge k ord h.1 down⟩, ⟨_, effectOf_record seq k ord down h.2⟩⟩

lemma bothDrop_of_not (hdatagram : ¬Client.WithinDeadline args now t)
    (hrecord : ¬WithinDeadline args now (t / 1000000)) : BothDrop args now t :=
  fun down k seq ord => ⟨drops_datagram down k ord hdatagram, drops_record seq down k ord hrecord⟩

end Decide

/-- **The filters agree** on a timestamp iff it is not ahead of the clock, or so far ahead that
the wrapped age is within the deadline. -/
theorem agree_iff {args : Args} (hD : 0 < args.deadlineMs) {now t : UInt64} (ht : t ≠ 0) :
    Agree args now t
      ↔ t ≤ now ∨ (2 ^ 64 + now.toNat : ℤ) - t.toNat ≤ args.deadlineMs.toInt * 10 ^ 6 := by
  have hpos : 0 < args.deadlineMs.toInt := by simpa using Int32.lt_iff_toInt_lt.mp hD
  have hdatagram := withinDeadline_datagram hD now ht
  have hrecord := withinDeadline_record hD now (t := t)
  rw [MachineInt.toNat_sub_eq] at hdatagram
  have hnow := now.toNat_lt
  have htlt := t.toNat_lt
  constructor
  · intro h
    by_cases hle : t ≤ now
    · exact Or.inl hle
    rw [UInt64.le_iff_toNat_le] at hle
    have haccept := h.accept (Or.inl (by rw [UInt64.le_iff_toNat_le]; omega))
    have hin := hdatagram.mp (bothAccept_iff.mp haccept).1
    rw [if_neg hle] at hin
    exact Or.inr (by omega)
  · intro h
    constructor
    · intro hnear
      rw [UInt64.le_iff_toNat_le] at hnear h
      refine bothAccept_iff.mpr ⟨hdatagram.mpr ?_, hrecord.mpr ?_⟩
      · split <;> omega
      · omega
    · intro hfar
      refine bothDrop_of_not (mt hdatagram.mp ?_) (mt hrecord.mp ?_)
      · rw [if_pos (by omega)]
        omega
      · omega

/-- They agree on an edge that is a nanosecond old. -/
theorem agree_iff_behind : Agree {} 1000000000 999999999 :=
  (agree_iff (by decide) (by decide)).mpr (Or.inl (by decide))

/-- They do not on one that is a nanosecond ahead: its datagram is dropped. -/
theorem not_agree_ahead : ¬Agree {} 1000000000 1000000001 := by
  intro h
  have haccept := h.accept (Or.inl (by decide))
  have hin := (withinDeadline_datagram (by decide) _ (by decide)).mp (bothAccept_iff.mp haccept).1
  revert hin
  decide

end QuicKeys.Client.QuicOnly
