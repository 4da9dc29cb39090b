import QuicKeys.Daemon.State

/-!
# The monitor thread

One round of `watchdog_thr`: under `state_mu`, every pressed key is visited once, logged
as stuck if no edge was seen for it within `stuck_ms`, and released if its last snapshot is
older than `watchdog_ms`. `now_ns` was read before the lock was taken.
-/

namespace QuicKeys.Daemon

/-- The condition of the `[stuck]` line. -/
def stuckDue (args : Args) (now : UInt64) (km : KeyMeta) : Bool :=
  0 < args.stuckMs && km.lastEdgeNs != 0 && !km.stuckReported
    && msToNs args.stuckMs < now - km.lastEdgeNs

/-- The condition of the release. -/
def expired (args : Args) (now : UInt64) (km : KeyMeta) : Bool :=
  0 < args.watchdogMs && km.lastSnapshotNs != 0
    && msToNs args.watchdogMs < now - km.lastSnapshotNs

/-- The `[stuck]` check of the loop body. -/
def checkStuck (args : Args) (now : UInt64) (o : Outcome) (u : UInt8) : Outcome :=
  if stuckDue args now (o.state.keymeta u) then
    { o with
      state := o.state.modifyMeta u fun km => { km with stuckReported := true }
      log := o.log ++ [.stuck u (nsToMs (now - (o.state.keymeta u).lastEdgeNs))] }
  else o

/-- The watchdog check of the loop body; `emit` is `changed`. -/
def checkWatchdog (args : Args) (now : UInt64) (o : Outcome) (u : UInt8) : Outcome :=
  if expired args now (o.state.keymeta u) then
    -- the stamp of the last snapshot stays
    let s := o.state.modifyMeta u fun km => { km with pressed := false, upMarkerNs := none }
    { state := { s with pressed := s.pressed.erase u }
      log := o.log ++ [.watchdog u (nsToMs (now - (o.state.keymeta u).lastSnapshotNs))]
      emit := true }
  else o

/-- The body of the loop over `pressed`. -/
def visit (args : Args) (now : UInt64) (o : Outcome) (u : UInt8) : Outcome :=
  checkWatchdog args now (checkStuck args now o u) u

/-- One round of the thread, which sends a report if it released something. The loop
`for (auto it = pressed.begin(); it != pressed.end(); )` visits the keys that were pressed
when it started: `erase(it)` hands back the successor of `it` and keeps the order. -/
def watchdogTick (args : Args) (now : UInt64) (s : KeyState) : Outcome :=
  s.pressed.toList.foldl (visit args now) { state := s }

/-! ## What one visit does -/

/-- The entry of a key after it was visited. -/
def visitMeta (args : Args) (now : UInt64) (km : KeyMeta) : KeyMeta :=
  if expired args now km then
    { km with stuckReported := km.stuckReported || stuckDue args now km
              pressed := false, upMarkerNs := none }
  else { km with stuckReported := km.stuckReported || stuckDue args now km }

section Visit

variable {args : Args} {now : UInt64} (o : Outcome) (u v : UInt8)

lemma checkStuck_keymeta :
    (checkStuck args now o u).state.keymeta v
      = if v = u then
          { o.state.keymeta v with
            stuckReported := (o.state.keymeta v).stuckReported
              || stuckDue args now (o.state.keymeta v) }
        else o.state.keymeta v := by
  unfold checkStuck
  by_cases hv : v = u
  · subst hv
    by_cases hs : stuckDue args now (o.state.keymeta v) = true
    · rw [if_pos hs, keymeta_modifyMeta_self, if_pos rfl, hs, Bool.or_true]
    · rw [if_neg hs, if_pos rfl, Bool.eq_false_iff.mpr hs, Bool.or_false]
  · rw [if_neg hv]
    split
    · rw [keymeta_modifyMeta, if_neg hv]
    · rfl

@[simp] lemma checkStuck_pressed :
    (checkStuck args now o u).state.pressed = o.state.pressed := by
  unfold checkStuck
  split <;> rfl

@[simp] lemma checkStuck_modifiers :
    (checkStuck args now o u).state.modifiers = o.state.modifiers := by
  unfold checkStuck
  split <;> rfl

@[simp] lemma checkStuck_emit : (checkStuck args now o u).emit = o.emit := by
  unfold checkStuck
  split <;> rfl

/-- The stuck check does not touch what the watchdog check reads. -/
lemma expired_checkStuck :
    expired args now ((checkStuck args now o u).state.keymeta v)
      = expired args now (o.state.keymeta v) := by
  rw [checkStuck_keymeta]
  split <;> rfl

lemma visit_pressed :
    (visit args now o u).state.pressed
      = if expired args now (o.state.keymeta u) then o.state.pressed.erase u
        else o.state.pressed := by
  rw [visit, checkWatchdog, expired_checkStuck]
  split <;> simp

@[simp] lemma visit_modifiers :
    (visit args now o u).state.modifiers = o.state.modifiers := by
  rw [visit, checkWatchdog]
  split <;> simp

lemma visit_emit :
    (visit args now o u).emit = (o.emit || expired args now (o.state.keymeta u)) := by
  rw [visit, checkWatchdog, expired_checkStuck]
  split <;> simp_all

/-- A visit writes a `[stuck]` line for the key if one is due, and for no other key. -/
lemma stuck_mem_log_visit :
    (∃ age, .stuck v age ∈ (visit args now o u).log)
      ↔ (∃ age, .stuck v age ∈ o.log) ∨ v = u ∧ stuckDue args now (o.state.keymeta v) = true := by
  have hcheck : (∃ age, .stuck v age ∈ (checkStuck args now o u).log)
      ↔ (∃ age, .stuck v age ∈ o.log) ∨ v = u ∧ stuckDue args now (o.state.keymeta v) = true := by
    unfold checkStuck
    by_cases hs : stuckDue args now (o.state.keymeta u) = true
    · rw [if_pos hs]
      constructor
      · intro h
        rcases h with ⟨age, h⟩
        rcases List.mem_append.mp h with h | h
        · exact Or.inl ⟨age, h⟩
        · rcases LogLine.stuck.inj (List.mem_singleton.mp h) with ⟨rfl, -⟩
          exact Or.inr ⟨rfl, hs⟩
      · intro h
        rcases h with ⟨age, h⟩ | ⟨rfl, -⟩
        · exact ⟨age, List.mem_append_left _ h⟩
        · exact ⟨_, List.mem_append_right _ (List.mem_singleton_self _)⟩
    · rw [if_neg hs, or_iff_left]
      intro h
      rcases h with ⟨rfl, h⟩
      exact hs h
  rw [← hcheck, visit, checkWatchdog]
  split
  -- the line of the release is another one
  · simp
  · rfl

lemma visit_keymeta :
    (visit args now o u).state.keymeta v
      = if v = u then visitMeta args now (o.state.keymeta v) else o.state.keymeta v := by
  rw [visit, checkWatchdog, expired_checkStuck]
  by_cases hv : v = u
  · subst hv
    rw [if_pos rfl, visitMeta]
    split
    · dsimp only
      rw [keymeta_modifyMeta_self, checkStuck_keymeta, if_pos rfl]
    · rw [checkStuck_keymeta, if_pos rfl]
  · rw [if_neg hv]
    split
    · dsimp only
      rw [keymeta_modifyMeta, if_neg hv, checkStuck_keymeta, if_neg hv]
    · rw [checkStuck_keymeta, if_neg hv]

end Visit

/-! ## What a round does -/

section Scan

variable {args : Args} {now : UInt64} {it : List UInt8}

/-- **Loop invariant of the scan**, entry by entry: over distinct keys every entry is
visited with the value it had before the loop. -/
lemma foldl_visit_keymeta (hnd : it.Nodup) (o : Outcome) (u : UInt8) :
    (it.foldl (visit args now) o).state.keymeta u
      = if u ∈ it then visitMeta args now (o.state.keymeta u) else o.state.keymeta u := by
  induction it generalizing o with
  | nil => simp
  | cons v it ih =>
    rcases List.nodup_cons.mp hnd with ⟨hv, hnd'⟩
    -- the head is not met again, so the rest of the loop leaves its entry alone
    rw [List.foldl_cons, ih hnd', visit_keymeta]
    by_cases huv : u = v
    · subst huv
      simp [hv]
    · simp [huv]

/-- **Loop invariant of the scan**, for the set: the visited keys that are expired have
left it. -/
lemma mem_foldl_visit_pressed (hnd : it.Nodup) (o : Outcome) (u : UInt8) :
    u ∈ (it.foldl (visit args now) o).state.pressed
      ↔ u ∈ o.state.pressed ∧ ¬(u ∈ it ∧ expired args now (o.state.keymeta u) = true) := by
  induction it generalizing o with
  | nil => simp
  | cons v it ih =>
    rcases List.nodup_cons.mp hnd with ⟨hv, hnd'⟩
    -- the rest of the loop tests entries the head has not touched
    rw [List.foldl_cons, ih hnd', visit_keymeta, visit_pressed]
    by_cases huv : u = v
    · subst huv
      by_cases he : expired args now (o.state.keymeta u) = true <;> simp [he, hv]
    · by_cases he : expired args now (o.state.keymeta v) = true <;> simp [he, huv]

/-- The keys that stay keep their order. -/
lemma foldl_visit_pressed_sublist (o : Outcome) :
    (it.foldl (visit args now) o).state.pressed.toList.Sublist o.state.pressed.toList := by
  induction it generalizing o with
  | nil => exact List.Sublist.refl _
  | cons v it ih =>
    rw [List.foldl_cons]
    refine (ih _).trans ?_
    rw [visit_pressed]
    split
    · exact List.erase_sublist
    · exact List.Sublist.refl _

/-- `changed` is raised by the expired keys. -/
lemma foldl_visit_emit (hnd : it.Nodup) (o : Outcome) :
    (it.foldl (visit args now) o).emit = true
      ↔ o.emit = true ∨ ∃ u ∈ it, expired args now (o.state.keymeta u) = true := by
  induction it generalizing o with
  | nil => simp
  | cons v it ih =>
    rcases List.nodup_cons.mp hnd with ⟨hv, hnd'⟩
    have hsame : (∃ u ∈ it, expired args now ((visit args now o v).state.keymeta u) = true)
        ↔ ∃ u ∈ it, expired args now (o.state.keymeta u) = true := by
      refine exists_congr fun u => and_congr_right fun hu => ?_
      rw [visit_keymeta, if_neg (ne_of_mem_of_not_mem hu hv)]
    rw [List.foldl_cons, ih hnd', hsame, visit_emit, Bool.or_eq_true, or_assoc]
    simp only [List.mem_cons, exists_eq_or_imp]

/-- The `[stuck]` lines of a scan are those that were due before it. -/
lemma stuck_mem_log_foldl_visit (hnd : it.Nodup) (o : Outcome) (u : UInt8) :
    (∃ age, .stuck u age ∈ (it.foldl (visit args now) o).log)
      ↔ (∃ age, .stuck u age ∈ o.log)
        ∨ u ∈ it ∧ stuckDue args now (o.state.keymeta u) = true := by
  induction it generalizing o with
  | nil => simp
  | cons v it ih =>
    rcases List.nodup_cons.mp hnd with ⟨hv, hnd'⟩
    rw [List.foldl_cons, ih hnd', stuck_mem_log_visit, visit_keymeta, or_assoc, List.mem_cons]
    by_cases huv : u = v
    · subst huv
      simp [hv]
    · simp [huv]

@[simp] lemma foldl_visit_modifiers (o : Outcome) :
    (it.foldl (visit args now) o).state.modifiers = o.state.modifiers := by
  induction it generalizing o with
  | nil => rfl
  | cons v it ih => rw [List.foldl_cons, ih, visit_modifiers]

/-- A scan that meets no expired key leaves the set itself alone. -/
lemma foldl_visit_pressed_of_forall {o : Outcome} (hnd : it.Nodup)
    (h : ∀ u ∈ it, expired args now (o.state.keymeta u) = false) :
    (it.foldl (visit args now) o).state.pressed = o.state.pressed := by
  induction it generalizing o with
  | nil => rfl
  | cons v it ih =>
    rcases List.nodup_cons.mp hnd with ⟨hv, hnd'⟩
    have hpressed : (visit args now o v).state.pressed = o.state.pressed := by
      rw [visit_pressed, h v List.mem_cons_self, if_neg Bool.false_ne_true]
    rw [List.foldl_cons, ih hnd', hpressed]
    intro u hu
    rw [visit_keymeta, if_neg (ne_of_mem_of_not_mem hu hv)]
    exact h u (List.mem_cons_of_mem _ hu)

end Scan

section Tick

variable (args : Args) (now : UInt64) (s : KeyState)

/-- **A round releases exactly the expired keys.** -/
theorem mem_watchdogTick_pressed (u : UInt8) :
    u ∈ (watchdogTick args now s).state.pressed
      ↔ u ∈ s.pressed ∧ expired args now (s.keymeta u) = false := by
  rw [watchdogTick, mem_foldl_visit_pressed s.pressed.nodup]
  simp only [UnorderedSet.mem_toList, not_and, Bool.not_eq_true]
  exact ⟨fun h => ⟨h.1, h.2 h.1⟩, fun h => ⟨h.1, fun _ => h.2⟩⟩

theorem watchdogTick_keymeta (u : UInt8) :
    (watchdogTick args now s).state.keymeta u
      = if u ∈ s.pressed then visitMeta args now (s.keymeta u) else s.keymeta u :=
  foldl_visit_keymeta s.pressed.nodup _ u

@[simp] lemma watchdogTick_modifiers :
    (watchdogTick args now s).state.modifiers = s.modifiers := foldl_visit_modifiers _

/-- A round sends a report iff it released something. -/
theorem watchdogTick_emit :
    (watchdogTick args now s).emit = true
      ↔ ∃ u ∈ s.pressed, expired args now (s.keymeta u) = true := by
  rw [watchdogTick, foldl_visit_emit s.pressed.nodup]
  simp

/-- **A round logs exactly the keys that are due** as stuck, also those it releases. -/
theorem stuck_mem_log_watchdogTick (u : UInt8) :
    (∃ age, .stuck u age ∈ (watchdogTick args now s).log)
      ↔ u ∈ s.pressed ∧ stuckDue args now (s.keymeta u) = true := by
  rw [watchdogTick, stuck_mem_log_foldl_visit s.pressed.nodup, UnorderedSet.mem_toList]
  exact or_iff_right fun h => List.not_mem_nil h.choose_spec

/-- A round that releases nothing leaves the set as it is, iteration order included. -/
theorem watchdogTick_pressed_of_not_emit (h : (watchdogTick args now s).emit = false) :
    (watchdogTick args now s).state.pressed = s.pressed := by
  have hnone : ¬∃ u ∈ s.pressed, expired args now (s.keymeta u) = true := by
    rw [← watchdogTick_emit, h]
    exact Bool.false_ne_true
  refine foldl_visit_pressed_of_forall s.pressed.nodup fun u hu => ?_
  exact Bool.eq_false_iff.mpr fun he => hnone ⟨u, hu, he⟩

end Tick

/-- What "older than `watchdog_ms`" means when the clock has not run backwards. -/
lemma expired_iff_of_le {args : Args} {now : UInt64} {km : KeyMeta}
    (h : km.lastSnapshotNs.toNat ≤ now.toNat) :
    expired args now km = true
      ↔ 0 < args.watchdogMs ∧ km.lastSnapshotNs ≠ 0
        ∧ args.watchdogMs.toInt.toNat * 10 ^ 6 < now.toNat - km.lastSnapshotNs.toNat := by
  simp only [expired, Bool.and_eq_true, decide_eq_true_eq, bne_iff_ne, and_assoc]
  refine and_congr_right fun hms => and_congr_right fun _ => ?_
  rw [UInt64.lt_iff_toNat_lt, MachineInt.toNat_sub_of_le h, toNat_msToNs hms]

/-- `stuck_ms` in nanoseconds. -/
def stuckNs (args : Args) : ℕ := args.stuckMs.toInt.toNat * 10 ^ 6

/-- What "no edge within `stuck_ms`" means when the clock has not run backwards. -/
lemma stuckDue_iff_of_le {args : Args} {now : UInt64} {km : KeyMeta}
    (h : km.lastEdgeNs.toNat ≤ now.toNat) :
    stuckDue args now km = true
      ↔ 0 < args.stuckMs ∧ km.lastEdgeNs ≠ 0 ∧ km.stuckReported = false
        ∧ stuckNs args < now.toNat - km.lastEdgeNs.toNat := by
  simp only [stuckDue, Bool.and_eq_true, decide_eq_true_eq, bne_iff_ne, Bool.not_eq_true',
    and_assoc]
  refine and_congr_right fun hms => and_congr_right fun _ => and_congr_right fun _ => ?_
  rw [UInt64.lt_iff_toNat_lt, MachineInt.toNat_sub_of_le h, toNat_msToNs hms, stuckNs]

end QuicKeys.Daemon
