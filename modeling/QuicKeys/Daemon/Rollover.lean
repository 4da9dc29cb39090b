import QuicKeys.Daemon.Handlers

/-!
# More than six keys

A report has six slots, and the handlers fill them with the first six pressed keys in the
iteration order of the set. As long as keys only leave the set, the others move up. A key
that enters a set of six or more can push another one out of the report, which then looks
released to the guest; so can a snapshot, which builds the set anew.
-/

namespace QuicKeys.Daemon

/-! ## The property -/

/-- After the handlers of `es`, the handler of `e` releases no key in its report that stays
pressed. -/
def KeepsHeldKeys (args : Args) (es : List Event) (e : Event) : Prop :=
  ∀ prev ∈ (reports args {} es).getLast?, ∀ rep ∈ emitted args (run args es) e,
    ∀ u ∈ prev.slots, u ∈ (run args es).pressed → u ∈ (step args (run args es) e).pressed →
      u ∈ rep.slots

/-- A snapshot that parses. -/
def IsSnapshot (args : Args) (e : Event) : Prop :=
  ∃ mods keys, effectOf args e = .snapshot mods keys

/-- A report has room for all keys that are pressed afterwards, or the handler only takes
keys out of the set. -/
def FitsOrOnlyReleases (args : Args) (s : KeyState) (e : Event) : Prop :=
  (step args s e).pressed.toList.length ≤ 6
    ∨ ¬IsSnapshot args e ∧ ∀ u ∈ (step args s e).pressed, u ∈ s.pressed

/-! ## Handlers that only release -/

/-- **A handler that only releases keys** keeps the order of those that stay. -/
lemma pressed_sublist_of_onlyReleases {args : Args} {s : KeyState} {e : Event}
    (hsnap : ¬IsSnapshot args e) (hsub : ∀ u ∈ (step args s e).pressed, u ∈ s.pressed) :
    (step args s e).pressed.toList.Sublist s.pressed.toList := by
  rw [step_eq] at hsub ⊢
  cases heff : effectOf args e with
  | none => exact List.Sublist.refl _
  | mark usage tNs => exact List.Sublist.refl _
  | edge mods down usage =>
    rw [heff] at hsub
    cases down with
    | false => exact List.erase_sublist
    | true =>
      -- the key of a down edge ends up in the set, so it was there before
      have hmem : usage ∈ s.pressed :=
        hsub usage ((mem_applyEdge_pressed _ _ _ _ _ _).mpr (by simp))
      show (s.pressed.insert e.ord usage).toList.Sublist s.pressed.toList
      rw [UnorderedSet.insert_of_mem hmem]
  | snapshot mods keys => exact absurd ⟨mods, keys, heff⟩ hsnap
  | scan => exact foldl_visit_pressed_sublist _

/-- **No held key is released in a report** by a handler after which all pressed keys fit
into the report, or which presses no new key and is no snapshot. -/
theorem keepsHeldKeys_of_fitsOrOnlyReleases {args : Args} {es : List Event} {e : Event}
    (h : FitsOrOnlyReleases args (run args es) e) : KeepsHeldKeys args es e := by
  intro prev hprev rep hrep u hu _ hafter
  have hprev' : prev = reportOf (run args es) := eq_reportOf_of_mem_getLast? args {} es prev hprev
  have hrep' : rep = reportOf (step args (run args es) e) := by
    rw [emitted] at hrep
    split at hrep
    · exact (Option.some.inj hrep).symm
    · cases hrep
  rw [hprev'] at hu
  rw [hrep']
  by_cases hlen : (step args (run args es) e).pressed.toList.length ≤ 6
  · exact mem_slots_reportOf_of_length_le hlen hafter
  · rcases h.resolve_left hlen with ⟨hsnap, hsub⟩
    have hsublist := pressed_sublist_of_onlyReleases hsnap hsub
    have hlong : 6 < (run args es).pressed.toList.length :=
      Nat.lt_of_lt_of_le (Nat.lt_of_not_le hlen) hsublist.length_le
    apply mem_slots_reportOf_of_mem_take
    exact UnorderedSet.mem_take_of_sublist hsublist (run args es).pressed.nodup
      (mem_take_of_mem_slots hlong hu) hafter

/-! ## Seven keys and one more -/

/-- A snapshot with the usages 5 to 11 pressed. -/
def snapshotSeven : Event where
  msg := .snapshot (List.replicate 20 0 ++ [0xE0, 0x0F] ++ List.replicate 30 0)
  now := 1
  ord := IterOrder.front UInt8

/-- With eight keys pressed, the release of one keeps the others in the report. -/
theorem keepsHeldKeys_of_fitsOrOnlyReleases_release :
    KeepsHeldKeys {} [snapshotSeven, edgeA true 0 2] (edgeA false 0 3) := by
  let s := run {} [snapshotSeven, edgeA true 0 2]
  have hall : (step {} s (edgeA false 0 3)).pressed.toList.all
      (fun u => decide (u ∈ s.pressed)) = true := by
    decide
  refine keepsHeldKeys_of_fitsOrOnlyReleases (Or.inr ⟨fun hsnap => ?_, fun u hu => ?_⟩)
  · rcases hsnap with ⟨mods, keys, heff⟩
    cases heff
  · exact of_decide_eq_true (List.all_eq_true.mp hall u hu)

/-- Another key pushes a held one out of the report. -/
theorem not_keepsHeldKeys_press :
    (∀ u ∈ (run {} [snapshotSeven]).pressed, u ≠ 0)
      ∧ ¬KeepsHeldKeys {} [snapshotSeven] (edgeA true 0 2) := by
  have hall : (run {} [snapshotSeven]).pressed.toList.all (fun u => u != 0) = true := by decide
  refine ⟨fun u hu => bne_iff_ne.mp (List.all_eq_true.mp hall u hu), fun h => ?_⟩
  have hmem := h _ rfl _ rfl 6 (by decide) (by decide) (by decide)
  revert hmem
  decide

end QuicKeys.Daemon
