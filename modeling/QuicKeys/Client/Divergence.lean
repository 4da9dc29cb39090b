import Mathlib.Data.FinEnum
import QuicKeys.Client.Healing

/-!
# How far the two sides drift apart

Between two snapshots that arrive, edges are lost or come too late, and the watchdog
releases keys that the client still holds. Each of these can put the daemon in the wrong
about its own keys only, so the number of keys the two sides disagree about is bounded by
what happened since the last snapshot that arrived.
-/

namespace QuicKeys.Client

open Daemon Runs

/-! ## Losses -/

/-- What becomes of a step of the client: the daemon processes it at once, or never hears of
it. -/
inductive Sending
  | arrives (d : Delivery)
  | lost (d : Delivery)

/-- The client makes its step in any case. -/
def sendStep (args : Args) (j : Joint) : Sending → Joint
  | .arrives d => jointStep args j d
  | .lost d => { jointStep args j d with daemon := j.daemon }

/-- Both sides at first. -/
def Joint.initial : Joint := { client := ∅, daemon := {}, mods := 0 }

/-- The usages about which the two sides disagree. -/
def wrong (j : Joint) : Finset UInt8 :=
  Finset.univ.filter fun u => ¬(u ∈ j.daemon.pressed ↔ usageInt u ∈ j.client)

/-- The usages a step can put the daemon in the wrong about: those of an edge that is lost or
past the deadline, and those the watchdog releases. -/
def harmed (args : Args) (j : Joint) : Sending → Finset UInt8
  | .arrives (.edge e t now _) => if WithinDeadline args now t then ∅ else {e.key.usage}
  | .arrives (.tick now) =>
    (j.daemon.pressed.toList.filter fun u => expired args now (j.daemon.keymeta u)).toFinset
  | .lost (.edge e ..) => {e.key.usage}
  | _ => ∅

lemma mem_wrong {j : Joint} {u : UInt8} :
    u ∈ wrong j ↔ ¬(u ∈ j.daemon.pressed ↔ usageInt u ∈ j.client) := by
  rw [wrong, Finset.mem_filter, and_iff_right (Finset.mem_univ u)]

/-! ## One step -/

section Steps

variable {args : Args} {j : Joint}

/-- The client's set stays one of keys. -/
lemma keysOnly_sendStep (h : KeysOnly j.client) (x : Sending) :
    KeysOnly (sendStep args j x).client := by
  have hjoint (d : Delivery) : KeysOnly (jointStep args j d).client := by
    cases d with
    | edge e t now ord => exact keysOnly_pressedAfter h e
    | marker k t now ord => rwa [client_marker]
    | snapshot a now ord => exact h
    | tick now => exact h
  cases x with
  | arrives d => exact hjoint d
  | lost d => exact hjoint d

lemma usageInt_mem_pressedAfter {e : KeyEdge} {pressed : UnorderedSet ℤ} {u : UInt8} :
    usageInt u ∈ pressedAfter pressed e
      ↔ if u = e.key.usage then e.down = true else usageInt u ∈ pressed := by
  simp only [mem_pressedAfter, usageInt_inj]

/-- An edge that the daemon does not take can turn its own key wrong. -/
lemma mem_wrong_of_missed {e : KeyEdge} {j' : Joint} (hclient : j'.client = pressedAfter j.client e)
    (hdaemon : j'.daemon.pressed = j.daemon.pressed) {u : UInt8} (hu : u ∈ wrong j') :
    u = e.key.usage ∨ u ∈ wrong j := by
  rw [mem_wrong, hclient, hdaemon, usageInt_mem_pressedAfter] at hu
  by_cases hkey : u = e.key.usage
  · exact Or.inl hkey
  · rw [if_neg hkey] at hu
    exact Or.inr (mem_wrong.mpr hu)

/-- A snapshot that arrives puts everything right. -/
lemma wrong_snapshot (h : KeysOnly j.client) (a : SnapshotArgs) (now : UInt64)
    (ord : IterOrder UInt8) : wrong (sendStep args j (.arrives (.snapshot a now ord))) = ∅ := by
  refine Finset.eq_empty_of_forall_notMem fun u hu => ?_
  rw [sendStep, mem_wrong] at hu
  exact hu (mem_pressed_snapshot h a now ord u)

/-- **Step lemma.** Only the keys that a step harms can turn wrong. -/
lemma mem_wrong_sendStep (h : KeysOnly j.client) {x : Sending} {u : UInt8}
    (hu : u ∈ wrong (sendStep args j x)) : u ∈ harmed args j x ∨ u ∈ wrong j := by
  cases x with
  | arrives d =>
    cases d with
    | edge e t now ord =>
      rw [harmed]
      by_cases htime : WithinDeadline args now t
      · -- both sides do the same to the key
        have hdaemon : u ∈ (jointStep args j (.edge e t now ord)).daemon.pressed
            ↔ if u = e.key.usage then e.down = true else u ∈ j.daemon.pressed := by
          show u ∈ (Daemon.step args j.daemon _).pressed ↔ _
          rw [step_eq, effectOf_edge _ _ htime]
          exact mem_applyEdge_pressed _ _ _ _ _ _
        have hclient : usageInt u ∈ (jointStep args j (.edge e t now ord)).client
            ↔ if u = e.key.usage then e.down = true else usageInt u ∈ j.client :=
          usageInt_mem_pressedAfter
        rw [sendStep, mem_wrong, hdaemon, hclient] at hu
        by_cases hkey : u = e.key.usage
        · exact absurd (by simp [hkey]) hu
        · rw [if_neg hkey, if_neg hkey] at hu
          exact Or.inr (mem_wrong.mpr hu)
      · rw [if_neg htime, Finset.mem_singleton]
        refine mem_wrong_of_missed rfl ?_ hu
        show (Daemon.step args j.daemon _).pressed = _
        have heff : effectOf args (edgeEvent (edgeCmd e.down) e.key t now ord) = .none := by
          unfold effectOf edgeEvent
          dsimp only
          rw [udpVerdict_edge_of_not _ htime]
        rw [step_eq, heff]
        rfl
    | marker k t now ord =>
      rw [sendStep, mem_wrong, client_marker, (daemon_marker k t now ord).1] at hu
      exact Or.inr (mem_wrong.mpr hu)
    | snapshot a now ord =>
      rw [wrong_snapshot h] at hu
      exact absurd hu (Finset.notMem_empty u)
    | tick now =>
      rw [sendStep, mem_wrong] at hu
      have hmem : u ∈ (jointStep args j (.tick now)).daemon.pressed
          ↔ u ∈ j.daemon.pressed ∧ expired args now (j.daemon.keymeta u) = false :=
        mem_pressed_of_tick rfl
      rw [hmem] at hu
      -- what the round releases is harmed, and what it keeps is as wrong as it was
      by_cases hreleased : u ∈ j.daemon.pressed ∧ expired args now (j.daemon.keymeta u) = true
      · refine Or.inl (List.mem_toFinset.mpr (List.mem_filter.mpr ?_))
        exact ⟨UnorderedSet.mem_toList.mpr hreleased.1, hreleased.2⟩
      · refine Or.inr (mem_wrong.mpr fun hright => hu ?_)
        rw [and_iff_left_of_imp]
        · exact hright
        · intro hp
          rw [Bool.eq_false_iff]
          exact fun hexp => hreleased ⟨hp, hexp⟩
  | lost d =>
    cases d with
    | edge e t now ord =>
      rw [harmed, Finset.mem_singleton]
      refine mem_wrong_of_missed ?_ ?_ hu
      · rfl
      · rfl
    | marker k t now ord =>
      rw [sendStep, mem_wrong, client_marker] at hu
      exact Or.inr (mem_wrong.mpr hu)
    | snapshot a now ord => exact Or.inr hu
    | tick now => exact Or.inr hu

/-- **Step lemma**, counted. -/
lemma card_wrong_sendStep (h : KeysOnly j.client) (x : Sending) :
    (wrong (sendStep args j x)).card ≤ (harmed args j x).card + (wrong j).card := by
  refine (Finset.card_le_card fun u hu => ?_).trans (Finset.card_union_le _ _)
  exact Finset.mem_union.mpr (mem_wrong_sendStep h hu)

end Steps

/-! ## Runs -/

/-- The two sides after a snapshot arrived, on top of any run. -/
def resynced (args : Args) (past : List Sending) (a : SnapshotArgs) (now : UInt64)
    (ord : IterOrder UInt8) : Joint :=
  sendStep args (past.foldl (sendStep args) .initial) (.arrives (.snapshot a now ord))

/-- **Divergence is bounded by the losses**: behind a snapshot that arrived, the two sides
disagree about no more keys than were lost, late or released by the watchdog since, and about
none that was not; each has been wrong ever since. -/
theorem wrong_le_harmed (args : Args) (past : List Sending) (a : SnapshotArgs) (now : UInt64)
    (ord : IterOrder UInt8) (xs : List Sending) :
    let j := resynced args past a now ord
    (wrong (xs.foldl (sendStep args) j)).card
        ≤ total (sendStep args) (fun i x => (harmed args i x).card) j xs
      ∧ ∀ u ∈ wrong (xs.foldl (sendStep args) j), ∃ pre x post, xs = pre ++ x :: post
        ∧ u ∈ harmed args (pre.foldl (sendStep args) j) x
        ∧ Throughout (sendStep args) (fun i => u ∈ wrong i)
          ((pre ++ [x]).foldl (sendStep args) j) post := by
  intro j
  have hinit : KeysOnly Joint.initial.client := fun z hz => absurd hz (UnorderedSet.not_mem_empty z)
  have hkeep (ys : List Sending) (i : Joint) (hi : KeysOnly i.client) :
      KeysOnly (ys.foldl (sendStep args) i).client :=
    foldl_invariant (I := fun i : Joint => KeysOnly i.client)
      (fun _ x hi => keysOnly_sendStep hi x) hi ys
  have hpast : KeysOnly (past.foldl (sendStep args) .initial).client := hkeep past _ hinit
  have hj : KeysOnly j.client := keysOnly_sendStep hpast _
  have hzero : wrong j = ∅ := wrong_snapshot hpast a now ord
  constructor
  · have hle := le_total_add (I := fun i : Joint => KeysOnly i.client)
      (f := fun i x => (harmed args i x).card) (φ := fun i => (wrong i).card)
      (fun _ x hi => keysOnly_sendStep hi x) (fun _ x hi => card_wrong_sendStep hi x) hj xs
    rwa [hzero, Finset.card_empty, Nat.add_zero] at hle
  · intro u hu
    have hnot : u ∉ wrong j := by
      rw [hzero]
      exact Finset.notMem_empty u
    rcases exists_entry (P := fun i => u ∈ wrong i) hnot hu with ⟨pre, x, post, heq, hpre, hpost⟩
    refine ⟨pre, x, post, heq, ?_, by rwa [List.foldl_append]⟩
    exact (mem_wrong_sendStep (hkeep pre j hj) (hpost [] List.nil_prefix)).resolve_right hpre

end QuicKeys.Client
