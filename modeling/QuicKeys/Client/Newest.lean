import QuicKeys.Client.Decoding

/-!
# The newest snapshot

The outbox of the client writes snapshots in the order of their sampled send times, so they
reach the daemon in any order. Their sequence numbers would tell which one is the newest,
but `parse_snapshot` skips them: the record processed last wins, whatever its number.
-/

namespace QuicKeys.Client

open Daemon Runs

/-- A snapshot record: what `build_snapshot` took, its sequence number included, and the
pressed set it took it of. -/
structure Record where
  args : SnapshotArgs
  pressed : UnorderedSet ℤ

/-- What the daemon processes: a record, or a round of the monitor thread. -/
inductive Processed
  | record (r : Record) (now : UInt64) (ord : IterOrder UInt8)
  | tick (now : UInt64)

/-- The event of it. -/
def Processed.event : Processed → Event
  | .record r now ord => snapshotEvent r.args r.pressed now ord
  | .tick now => tickAt now

/-- The records, in the order of their processing. -/
def recordsOf (ps : List Processed) : List Record :=
  ps.filterMap fun
    | .record r _ _ => some r
    | .tick _ => none

/-- The key state after all are processed. -/
def processAll (args : Args) (s : KeyState) (ps : List Processed) : KeyState :=
  ps.foldl (fun s p => step args s p.event) s

/-- The watchdog releases nothing. -/
def Quiet (args : Args) (s : KeyState) (ps : List Processed) : Prop :=
  Along (fun s p => step args s p.event) (fun s p => match p with
    | .record .. => True
    | .tick now => (handle args s (tickAt now)).emit = false) s ps

/-- The pressed set and the modifiers are those of the record. -/
structure Announced (r : Record) (s : KeyState) : Prop where
  pressed : ∀ u, u ∈ s.pressed ↔ isKeyboardUsage u = true ∧ usageInt u ∈ r.pressed
  modifiers : s.modifiers = r.args.mods.toUInt8

/-- The records name the same keys and modifiers. -/
structure Alike (r r' : Record) : Prop where
  pressed : ∀ u, isKeyboardUsage u = true → (usageInt u ∈ r.pressed ↔ usageInt u ∈ r'.pressed)
  modifiers : r.args.mods.toUInt8 = r'.args.mods.toUInt8

/-- The state is that of the record with the highest sequence number. -/
def NewestWins (ps : List Processed) (s : KeyState) : Prop :=
  ∀ newest ∈ recordsOf ps, (∀ r ∈ recordsOf ps, r.args.seq ≤ newest.args.seq) →
    Announced newest s

/-- The record processed last names the same keys and modifiers as the one with the highest
sequence number. -/
def LastIsNewest (ps : List Processed) : Prop :=
  ∀ newest ∈ recordsOf ps, (∀ r ∈ recordsOf ps, r.args.seq ≤ newest.args.seq) →
    ∀ last ∈ (recordsOf ps).getLast?, Alike last newest

/-- A state announces one record exactly if it announces one like it. -/
lemma Announced.iff_alike {r r' : Record} {s : KeyState} (h : Announced r s) :
    Announced r' s ↔ Alike r r' := by
  constructor
  · intro h'
    refine ⟨fun u hu => ?_, h.modifiers.symm.trans h'.modifiers⟩
    have hiff := (h.pressed u).symm.trans (h'.pressed u)
    rwa [and_iff_right hu, and_iff_right hu] at hiff
  · intro halike
    refine ⟨fun u => ?_, h.modifiers.trans halike.modifiers⟩
    rw [h.pressed]
    exact and_congr_right fun hu => halike.pressed u hu

section Steps

variable {args : Args} {s : KeyState}

/-- **A record that is processed** is announced, whatever came before. -/
lemma announced_step (r : Record) (now : UInt64) (ord : IterOrder UInt8) :
    Announced r (step args s (snapshotEvent r.args r.pressed now ord)) where
  pressed u := by
    rw [step_eq, effectOf_snapshot]
    exact mem_newPressed_bitmapFromPressed
  modifiers := by
    rw [modifiers_step, effectOf_snapshot]

/-- A round that releases nothing leaves it announced. -/
lemma Announced.tick {r : Record} (h : Announced r s) {now : UInt64}
    (hquiet : (handle args s (tickAt now)).emit = false) :
    Announced r (step args s (tickAt now)) := by
  rcases quiet_of_not_emit hquiet with ⟨hpressed, hmods⟩
  refine ⟨fun u => ?_, ?_⟩
  · rw [hpressed]
    exact h.pressed u
  · rw [hmods]
    exact h.modifiers

/-- **Run lemma.** The record processed last is announced, or the one from before the run
if there is none. -/
lemma announced_foldl {ps : List Processed} (hquiet : Quiet args s ps) {o : Option Record}
    (h : ∀ r ∈ o, Announced r s) :
    ∀ r ∈ (recordsOf ps).getLast?.or o, Announced r (processAll args s ps) := by
  induction ps generalizing s o with
  | nil => exact h
  | cons p ps ih =>
    rcases hquiet with ⟨hp, hps⟩
    cases p with
    | record r now ord =>
      have ih' := ih hps (o := some r) fun r' hr' => by
        rw [← Option.some.inj hr']
        exact announced_step r now ord
      intro r' hr'
      apply ih' r'
      have hcons : recordsOf (.record r now ord :: ps) = r :: recordsOf ps := rfl
      rw [hcons, List.getLast?_cons] at hr'
      cases hlast : (recordsOf ps).getLast? with
      | none =>
        rw [hlast] at hr'
        exact hr'
      | some last =>
        rw [hlast] at hr'
        exact hr'
    | tick now =>
      exact ih hps fun r hr => (h r hr).tick hp

end Steps

/-- **The record processed last wins.** The state after all records is that of the record
with the highest sequence number iff the record processed last says the same as that one. -/
theorem newestWins_iff {args : Args} {s : KeyState} {ps : List Processed}
    (hquiet : Quiet args s ps) :
    (∀ last ∈ (recordsOf ps).getLast?, Announced last (processAll args s ps))
      ∧ (NewestWins ps (processAll args s ps) ↔ LastIsNewest ps) := by
  have hlast : ∀ last ∈ (recordsOf ps).getLast?, Announced last (processAll args s ps) := by
    have h := announced_foldl hquiet (o := none) fun r hr => by cases hr
    rwa [Option.or_none] at h
  refine ⟨hlast, ?_⟩
  constructor
  · intro h newest hmem hmax last hl
    exact (hlast last hl).iff_alike.mp (h newest hmem hmax)
  · intro h newest hmem hmax
    have hne : recordsOf ps ≠ [] := List.ne_nil_of_mem hmem
    have hl := List.getLast?_eq_some_getLast hne
    exact (hlast _ hl).iff_alike.mpr (h newest hmem hmax _ hl)

/-! ## Two snapshots -/

/-- The first snapshot: nothing is pressed. -/
def firstRecord : Record where
  args := {}
  pressed := ∅

/-- The second snapshot: `a` is pressed. -/
def secondRecord : Record where
  args := { seq := 1 }
  pressed := UnorderedSet.insert (IterOrder.front ℤ) 4 ∅

/-- The two in the order of their numbers, with a round of the watchdog between them. -/
def bothInOrder : List Processed :=
  [.record firstRecord 1 (IterOrder.front UInt8), .tick 2,
    .record secondRecord 3 (IterOrder.front UInt8)]

/-- The first snapshot arrives late. -/
def bothReordered : List Processed :=
  [.record secondRecord 1 (IterOrder.front UInt8),
    .record firstRecord 2 (IterOrder.front UInt8)]

/-- In order, the second snapshot wins. -/
theorem newestWins_iff_bothInOrder : NewestWins bothInOrder (processAll {} {} bothInOrder) := by
  have hquiet : Quiet {} {} bothInOrder := ⟨trivial, by decide, trivial, trivial⟩
  apply (newestWins_iff hquiet).2.mpr
  intro newest hmem hmax last hlast
  have hsecond : secondRecord.args.seq ≤ newest.args.seq := hmax _ (.tail _ (.head _))
  obtain rfl : secondRecord = last := Option.some.inj hlast
  rcases List.mem_pair.mp hmem with rfl | rfl
  · exact absurd hsecond (by decide)
  · exact ⟨fun _ _ => Iff.rfl, rfl⟩

/-- Late, the first one does, though its number is lower. -/
theorem not_newestWins_bothReordered :
    firstRecord.args.seq < secondRecord.args.seq ∧ Quiet {} {} bothReordered
      ∧ ¬NewestWins bothReordered (processAll {} {} bothReordered) := by
  refine ⟨by decide, ⟨trivial, trivial, trivial⟩, fun h => ?_⟩
  have hmax : ∀ r ∈ recordsOf bothReordered, r.args.seq ≤ secondRecord.args.seq := by
    intro r hr
    rcases List.mem_pair.mp hr with rfl | rfl <;> decide
  have hfirst : Announced firstRecord (processAll {} {} bothReordered) := announced_step _ _ _
  have halike := hfirst.iff_alike.mp (h secondRecord (.head _) hmax)
  have hmem : usageInt 4 ∈ secondRecord.pressed := UnorderedSet.mem_insert.mpr (.inl rfl)
  exact UnorderedSet.not_mem_empty _ ((halike.pressed 4 rfl).mpr hmem)

end QuicKeys.Client
