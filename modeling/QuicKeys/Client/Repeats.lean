import Mathlib.Data.List.FinRange
import Mathlib.Data.List.Sort
import QuicKeys.Client.Decoding

/-!
# Repeated keystrokes

The client sends every edge as one datagram and takes snapshots in between; the network
loses edges and delivers the two channels in any relative order. The daemon does not look
at the sequence numbers and timestamps that would put the messages back in order. So an
older snapshot that is processed behind a newer edge can press a key once more than the
client did. What the messages that concern one key cannot do, as long as they are
processed in the order in which they were sent up to the last snapshot that contains the
key, is repeat that key.
-/

namespace QuicKeys.Client

open Daemon Runs

/-! ## What the client sends -/

/-- What the client does: an edge with its timestamp, or a snapshot. -/
inductive Item
  | edge (e : KeyEdge) (t : UInt64)
  | snapshot (a : SnapshotArgs)

/-- The client's pressed set after an item. -/
def afterItem (pressed : UnorderedSet ℤ) : Item → UnorderedSet ℤ
  | .edge e _ => pressedAfter pressed e
  | .snapshot _ => pressed

/-- The client's pressed set at item `i`. -/
def setAt (pressed : UnorderedSet ℤ) (h : List Item) (i : ℕ) : UnorderedSet ℤ :=
  (h.take i).foldl afterItem pressed

/-- The message of an item. -/
def message (pressed : UnorderedSet ℤ) : Item → Message
  | .edge e t => .datagram (buildEdgeMsg (edgeCmd e.down) e.key.name t.toNat)
  | .snapshot a => .snapshot (buildSnapshot a (bitmapFromPressed pressed))

/-- A down event of `u`. -/
def isDown (u : UInt8) : Item → Bool
  | .edge e _ => e.down && e.key.usage == u
  | .snapshot _ => false

/-- The number of down events of `u` in a history. -/
def downs (h : List Item) (u : UInt8) : ℕ := h.countP (isDown u)

/-! ## What the network delivers -/

/-- What the daemon processes: message `i` of the history, or a round of the monitor
thread. -/
inductive Arrival (h : List Item)
  | message (i : Fin h.length) (now : UInt64) (ord : IterOrder UInt8)
  | tick (now : UInt64)

/-- The event of an arrival. -/
def Arrival.event {h : List Item} : Arrival h → Event
  | .message i now ord => { msg := Client.message (setAt ∅ h i) h[i], now, ord }
  | .tick now => tickAt now

/-- Edges are within the deadline, and the watchdog releases nothing. -/
def Timely {h : List Item} (args : Args) (s : KeyState) : Arrival h → Prop
  | .message i now _ =>
    match h[i] with
    | .edge _ t => WithinDeadline args now t
    | .snapshot _ => True
  | .tick now => (handle args s (tickAt now)).emit = false

/-- The messages in the order of their processing. -/
def delivered {h : List Item} (as : List (Arrival h)) : List (Fin h.length) :=
  as.filterMap fun
    | .message i _ _ => some i
    | .tick _ => none

def Item.isSnapshot : Item → Bool
  | .edge .. => false
  | .snapshot _ => true

/-- A delivery: each message at most once, snapshots in order, edges in time. -/
structure Delivered {h : List Item} (args : Args) (as : List (Arrival h)) : Prop where
  once : (delivered as).Nodup
  snapshots : ((delivered as).filter fun i => h[i].isSnapshot).Pairwise (· < ·)
  timely : Along (fun s a => Daemon.step args s a.event) (Timely args) {} as

/-! ## What the messages say about one key -/

/-- What the message of an item says about `u`, if it concerns `u`. -/
def tells (pressed : UnorderedSet ℤ) (u : UInt8) : Item → Option Bool
  | .edge e _ => if e.key.usage = u then some e.down else none
  | .snapshot _ => some (decide (usageInt u ∈ pressed))

/-- Message `i` about `u`. -/
def tellsAt (pressed : UnorderedSet ℤ) (h : List Item) (u : UInt8) (i : Fin h.length) :
    Option Bool := tells (setAt pressed h i) u h[i]

/-- The messages that concern `u`, in the order of their processing. -/
def about {h : List Item} (as : List (Arrival h)) (u : UInt8) : List (Fin h.length) :=
  (delivered as).filter fun i => (tellsAt ∅ h u i).isSome

/-- Message `i` is a snapshot that contains `u`. -/
def Contains (h : List Item) (u : UInt8) (i : Fin h.length) : Prop :=
  h[i].isSnapshot ∧ tellsAt ∅ h u i = some true

/-- Up to some point, the messages that concern `u` are processed in the order in which they
were sent. Behind it come, in any order, messages that were sent later, and none of them is
a snapshot that contains `u`. -/
def InOrder {h : List Item} (as : List (Arrival h)) (u : UInt8) : Prop :=
  ∃ pre post, about as u = pre ++ post ∧ pre.Pairwise (· < ·) ∧
    (∀ i ∈ pre, ∀ j ∈ post, i < j) ∧ ∀ j ∈ post, ¬Contains h u j

lemma keysOnly_setAt {pressed : UnorderedSet ℤ} (hp : KeysOnly pressed) (h : List Item)
    (i : ℕ) : KeysOnly (setAt pressed h i) := by
  refine foldl_invariant (I := KeysOnly) (fun p item hs => ?_) hp _
  cases item with
  | edge e t => exact keysOnly_pressedAfter hs e
  | snapshot a => exact hs

lemma keysOnly_empty : KeysOnly ∅ := fun z hz => absurd hz (UnorderedSet.not_mem_empty z)

section Arrivals

variable {args : Args} {h : List Item} {s : KeyState}

/-- **A message in time** writes to the register of `u` what it says about `u`. -/
lemma writeOf_message {i : Fin h.length} {now : UInt64} {ord : IterOrder UInt8}
    (htime : Timely args s (.message i now ord)) (u : UInt8) :
    writeOf args s (Arrival.message i now ord).event u = tellsAt ∅ h u i := by
  have hkeys := keysOnly_setAt keysOnly_empty h i
  change match h[i] with
    | .edge _ t => WithinDeadline args now t
    | .snapshot _ => True at htime
  show (effectOf args { msg := message (setAt ∅ h i) h[i], now, ord }).write args _ s u
    = tells (setAt ∅ h i) u h[i]
  generalize setAt ∅ h i = pressed at hkeys ⊢
  cases hitem : h[i] with
  | edge e t =>
    rw [hitem] at htime
    have heff := effectOf_edge e.key ord htime e.down
    rw [edgeEvent] at heff
    simp only [message, heff, Effect.write, tells, eq_comm]
  | snapshot a =>
    have heff := effectOf_snapshot args a pressed now ord
    rw [snapshotEvent] at heff
    simp only [message, heff, Effect.write, tells, mem_newPressed_bitmapFromPressed]
    congr 2
    rw [eq_iff_iff, and_iff_right_iff_imp]
    intro hu
    rcases hkeys _ hu with ⟨k, hk⟩
    rw [usageInt_inj.mp hk]
    exact isKeyboardUsage_usage k

/-- A round that releases nothing writes nothing. -/
lemma writeOf_tick {now : UInt64} (hquiet : (handle args s (tickAt now)).emit = false)
    (u : UInt8) : writeOf args s (tickAt now) u = none := by
  have hnone : ¬(effectOf args (tickAt now)).Emits args (tickAt now) s := by
    rw [← handle_emit, hquiet]
    exact Bool.false_ne_true
  refine if_neg fun hu => hnone ?_
  exact ⟨u, hu.1, hu.2⟩

/-- **Run lemma.** The register of `u` is written what the delivered messages say. -/
lemma written_eq {as : List (Arrival h)}
    (htimely : Along (fun s a => Daemon.step args s a.event) (Timely args) s as) (u : UInt8) :
    Registers.written (writes args s (as.map Arrival.event)) u
      = (delivered as).filterMap (tellsAt ∅ h u) := by
  induction as generalizing s with
  | nil => rfl
  | cons a as ih =>
    rcases htimely with ⟨ha, has⟩
    have ih' := ih has
    cases a with
    | message i now ord =>
      have hw := writeOf_message ha u
      show Registers.written (writeOf args s (Arrival.message i now ord).event :: _) u
        = (i :: delivered as).filterMap (tellsAt ∅ h u)
      cases htells : tellsAt ∅ h u i with
      | none =>
        rw [Registers.written_cons_none (hw.trans htells), List.filterMap_cons_none htells, ← ih']
      | some b =>
        rw [Registers.written_cons_some (hw.trans htells), List.filterMap_cons_some htells, ← ih']
    | tick now =>
      show Registers.written (writeOf args s (tickAt now) :: _) u
        = (delivered as).filterMap (tellsAt ∅ h u)
      rw [Registers.written_cons_none (writeOf_tick ha u), ← ih']

/-- Messages about other keys say nothing. -/
lemma filterMap_about (as : List (Arrival h)) (u : UInt8) :
    (about as u).filterMap (tellsAt ∅ h u) = (delivered as).filterMap (tellsAt ∅ h u) := by
  rw [about, List.filterMap_filter]
  refine List.filterMap_congr fun i _ => ?_
  cases tellsAt ∅ h u i <;> rfl

end Arrivals

/-! ## What the client says about one key -/

/-- Everything the client says about `u`, from the pressed set `pressed` on. -/
def allTold (u : UInt8) : UnorderedSet ℤ → List Item → List Bool
  | _, [] => []
  | pressed, item :: h => (tells pressed u item).toList ++ allTold u (afterItem pressed item) h

lemma filterMap_take_finRange_tellsAt (u : UInt8) (pressed : UnorderedSet ℤ) (h : List Item)
    (n : ℕ) :
    ((List.finRange h.length).take n).filterMap (tellsAt pressed h u)
      = allTold u pressed (h.take n) := by
  induction h generalizing pressed n with
  | nil => cases n <;> rfl
  | cons item h ih =>
    cases n with
    | zero => rfl
    | succ n =>
      have hsucc : tellsAt pressed (item :: h) u ∘ Fin.succ
          = tellsAt (afterItem pressed item) h u := rfl
      have hzero : tellsAt pressed (item :: h) u 0 = tells pressed u item := rfl
      show ((List.finRange (h.length + 1)).take (n + 1)).filterMap _ = _
      rw [List.finRange_succ, List.take_succ_cons, List.take_succ_cons, allTold, ← ih, ← hsucc,
        ← List.filterMap_map, List.map_take]
      cases htells : tells pressed u item with
      | none => rw [List.filterMap_cons_none (hzero.trans htells)]; rfl
      | some b => rw [List.filterMap_cons_some (hzero.trans htells)]; rfl

lemma mem_take_finRange {m n : ℕ} {i : Fin m} : i ∈ (List.finRange m).take n ↔ i.val < n := by
  rw [List.mem_take_iff_idxOf_lt (List.mem_finRange i), List.idxOf_finRange]

lemma mem_drop_finRange {m n : ℕ} {i : Fin m} (h : n ≤ i.val) :
    i ∈ (List.finRange m).drop n := by
  have hmem : i ∈ (List.finRange m).take n ++ (List.finRange m).drop n := by
    rw [List.take_append_drop]
    exact List.mem_finRange i
  refine (List.mem_append.mp hmem).resolve_left fun htake => ?_
  exact absurd (mem_take_finRange.mp htake) (Nat.not_lt.mpr h)

/-- In order, what the first `n` messages say is a part of all that the client said. -/
lemma sublist_allTold {h : List Item} {u : UInt8} {n : ℕ} {pre : List (Fin h.length)}
    (horder : pre.Pairwise (· < ·)) (hlt : ∀ i ∈ pre, i.val < n) :
    (pre.filterMap (tellsAt ∅ h u)).Sublist (allTold u ∅ (h.take n)) := by
  rw [← filterMap_take_finRange_tellsAt]
  refine List.Sublist.filterMap _ ?_
  refine List.sublist_of_subperm_of_pairwise (r := (· < ·)) ?_ horder
    ((List.pairwise_lt_finRange _).sublist (List.take_sublist _ _))
  exact List.subperm_of_subset (horder.imp Fin.ne_of_lt) fun i hi =>
    mem_take_finRange.mpr (hlt i hi)

/-- Without a snapshot that contains `u`, only down events say that `u` is pressed, so the
messages from number `n` on say it at most once for each of them. -/
lemma count_tellsAt_le {h : List Item} {u : UInt8} {n : ℕ} {post : List (Fin h.length)}
    (honce : post.Nodup) (hle : ∀ i ∈ post, n ≤ i.val) (hnone : ∀ i ∈ post, ¬Contains h u i) :
    (post.filterMap (tellsAt ∅ h u)).count true ≤ downs (h.drop n) u := by
  have hdown : ∀ i ∈ post, tellsAt ∅ h u i == some true → isDown u h[i] := by
    intro i hi htells
    have hsnap := hnone i hi
    rw [beq_iff_eq] at htells
    rw [Contains, and_iff_left htells] at hsnap
    revert htells hsnap
    rw [tellsAt]
    cases h[i] with
    | edge e t => simp +contextual [tells, isDown]
    | snapshot a => simp [Item.isSnapshot]
  have hdrop : h.drop n = ((List.finRange h.length).drop n).map (h[·]) := by
    rw [List.map_drop]
    exact congrArg (List.drop n) (List.map_getElem_finRange h).symm
  calc (post.filterMap (tellsAt ∅ h u)).count true
      = post.countP (tellsAt ∅ h u · == some true) := List.count_filterMap
    _ ≤ post.countP (isDown u h[·]) := List.countP_mono_left hdown
    _ ≤ ((List.finRange h.length).drop n).countP (isDown u h[·]) :=
        (List.subperm_of_subset honce fun i hi => mem_drop_finRange (hle i hi)).countP_le _
    _ = downs (h.drop n) u := by rw [downs, hdrop, List.countP_map]; rfl

/-- **Snapshots repeat what the edges said**, so the client says "down" anew at most once for
each down event. -/
lemma rises_allTold_le (u : UInt8) (pressed : UnorderedSet ℤ) (h : List Item) :
    Registers.rises (decide (usageInt u ∈ pressed)) (allTold u pressed h) ≤ downs h u := by
  induction h generalizing pressed with
  | nil => exact Nat.le_refl 0
  | cons item h ih =>
    have ih' := ih (afterItem pressed item)
    rw [allTold, downs, List.countP_cons, ← downs]
    cases item with
    | snapshot a =>
      -- the snapshot repeats the value the register has
      rw [tells, Option.toList_some, List.singleton_append, Registers.rises_self_cons]
      exact ih'
    | edge e t =>
      have hmem : decide (usageInt u ∈ afterItem pressed (.edge e t))
          = if e.key.usage = u then e.down else decide (usageInt u ∈ pressed) := by
        by_cases hu : e.key.usage = u <;>
          simp [afterItem, mem_pressedAfter, usageInt_inj, hu, Ne.symm]
      rw [hmem] at ih'
      by_cases hu : e.key.usage = u
      · rw [if_pos hu] at ih'
        rw [tells, if_pos hu, Option.toList_some, List.singleton_append, Registers.rises_cons]
        refine (Nat.add_le_add_left ih' _).trans ?_
        rw [Nat.add_comm]
        refine Nat.add_le_add_left ?_ _
        cases hd : e.down <;> cases decide (usageInt u ∈ pressed) <;> simp [isDown, hd, hu]
      · rw [if_neg hu] at ih'
        rw [tells, if_neg hu, Option.toList_none, List.nil_append]
        exact ih'.trans (Nat.le_add_right _ _)

/-! ## Runs -/

/-- A number that separates the two parts of the delivery. -/
lemma exists_cut {m : ℕ} {pre post : List (Fin m)} (horder : pre.Pairwise (· < ·))
    (hlt : ∀ i ∈ pre, ∀ j ∈ post, i < j) :
    ∃ n, (∀ i ∈ pre, i.val < n) ∧ ∀ j ∈ post, n ≤ j.val := by
  rcases List.eq_nil_or_concat pre with rfl | ⟨init, last, rfl⟩
  · exact ⟨0, fun i hi => absurd hi List.not_mem_nil, fun j _ => Nat.zero_le _⟩
  · rw [List.concat_eq_append] at horder hlt
    refine ⟨last + 1, fun i hi => ?_, fun j hj => ?_⟩
    · rw [List.concat_eq_append, List.mem_append, List.mem_singleton] at hi
      rcases hi with hi | rfl
      · have := (List.pairwise_append.mp horder).2.2 i hi last (List.mem_singleton_self _)
        exact Nat.lt_succ_of_lt this
      · exact Nat.lt_succ_self _
    · exact hlt last (List.mem_append_right _ (List.mem_singleton_self _)) j hj

/-- **No key is repeated by its own messages in order**: if the messages that concern `u`
are processed in the order in which the client sent them, at least up to the last snapshot
that contains `u`, then whatever is lost and however the other edges are reordered, `u`
appears at most as often as the client pressed it. -/
theorem appearances_le_downs {args : Args} {h : List Item} {as : List (Arrival h)} {u : UInt8}
    (hdelivered : Delivered args as) (horder : InOrder as u) :
    appearances args u {} (as.map Arrival.event) ≤ downs h u := by
  rcases horder with ⟨pre, post, habout, hpre, hlt, hnone⟩
  rcases exists_cut hpre hlt with ⟨n, hpren, hpostn⟩
  have honce : post.Nodup := by
    have hnodup : (about as u).Nodup := hdelivered.once.filter _
    rw [habout] at hnodup
    exact (List.nodup_append.mp hnodup).2.1
  have hin := Registers.rises_le_of_sublist (sublist_allTold (u := u) hpre hpren) false
  have hfirst := rises_allTold_le u ∅ (h.take n)
  have hrest := count_tellsAt_le honce hpostn hnone
  rw [appearances_eq, written_eq hdelivered.timely, ← filterMap_about, habout,
    List.filterMap_append]
  calc Registers.rises false (pre.filterMap (tellsAt ∅ h u) ++ post.filterMap (tellsAt ∅ h u))
      ≤ Registers.rises false (pre.filterMap (tellsAt ∅ h u))
          + (post.filterMap (tellsAt ∅ h u)).count true := Registers.rises_append_le _ _ _
    _ ≤ downs (h.take n) u + downs (h.drop n) u := Nat.add_le_add (hin.trans hfirst) hrest
    _ = downs h u := by rw [downs, downs, ← List.countP_append, List.take_append_drop, downs]

/-! ## One press of a key -/

/-- `ENTER` is pressed, a snapshot is taken, the key is released. -/
def pressEnter : List Item :=
  [.edge ⟨true, .enter, IterOrder.front ℤ⟩ 1, .snapshot {},
    .edge ⟨false, .enter, IterOrder.front ℤ⟩ 1]

/-- Message `i` of the three is processed. -/
def arrivalEnter (i : Fin 3) (now : UInt64) : Arrival pressEnter :=
  .message i now (IterOrder.front UInt8)

/-- The three messages in order, behind a round of the monitor thread. -/
def inOrder : List (Arrival pressEnter) :=
  [.tick 1, arrivalEnter 0 2, arrivalEnter 1 3, arrivalEnter 2 4]

/-- The snapshot is processed behind the release. -/
def lateSnapshot : List (Arrival pressEnter) :=
  [arrivalEnter 0 2, arrivalEnter 2 3, arrivalEnter 1 4]

lemma delivered_inOrder : Delivered {} inOrder where
  once := by decide
  snapshots := by decide
  timely := by
    refine ⟨?_, ?_, trivial, ?_, trivial⟩
    · show (handle _ _ _).emit = false
      decide
    · show WithinDeadline _ _ _
      decide +kernel
    · show WithinDeadline _ _ _
      decide +kernel

/-- In order, `ENTER` appears no more often than it was pressed. -/
theorem appearances_le_downs_inOrder :
    appearances {} 0x28 {} (inOrder.map Arrival.event) ≤ downs pressEnter 0x28 :=
  appearances_le_downs delivered_inOrder
    ⟨(about inOrder 0x28).take 2, (about inOrder 0x28).drop 2, by decide, by decide, by decide,
      by unfold Contains; decide⟩

/-- The late snapshot presses `ENTER` a second time. -/
theorem not_appearances_le_downs_lateSnapshot :
    Delivered {} lateSnapshot
      ∧ ¬appearances {} 0x28 {} (lateSnapshot.map Arrival.event) ≤ downs pressEnter 0x28 := by
  have htimely : Along (fun s a => Daemon.step {} s a.event) (Timely {}) {} lateSnapshot := by
    refine ⟨?_, ?_, trivial, trivial⟩
    · show WithinDeadline _ _ _
      decide +kernel
    · show WithinDeadline _ _ _
      decide +kernel
  refine ⟨⟨by decide, by decide, htimely⟩, ?_⟩
  rw [appearances_eq, written_eq htimely]
  decide

end QuicKeys.Client
