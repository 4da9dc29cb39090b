import QuicKeys.Daemon.LastReport
import QuicKeys.Daemon.WatchdogRace

/-!
# The key state as a function of the history

The daemon updates `pressed`, `modifiers` and `keymeta` in place. Seen from outside, every
key is a register that holds what was written last: edges write their key, snapshots write
every key, and a round of the monitor thread writes the keys whose last snapshot is too
old. Whether a round does so can be read off the history alone, and so can the state after
every interleaving of the handlers, in the order of their critical sections.
-/

namespace QuicKeys.Daemon

open Registers Runs

/-! ## What an event writes -/

/-- The last snapshot of the history that contains `u` is older than `watchdog_ms` for a
round that read `now`. The subtraction is the one of the code, which may wrap; a snapshot at
clock reading 0 is taken for none. -/
def TooOld (args : Args) (es : List Event) (now : UInt64) (u : UInt8) : Prop :=
  0 < args.watchdogMs
    ∧ ∃ r, LastReaffirmed args es r u ∧ r.now ≠ 0 ∧ msToNs args.watchdogMs < now - r.now

open Classical in
/-- What an event says about key `u`, given the events before it. -/
noncomputable def keyWrite (args : Args) (u : UInt8) : HistoryWrite Event Bool := fun es e =>
  match effectOf args e with
  | .edge _ down usage => if u = usage then some down else none
  | .snapshot _ keys => some (decide (u ∈ keys))
  | .scan => if TooOld args es e.now u then some false else none
  | _ => none

/-- What an event says about the modifiers. -/
def modsWrite (args : Args) : HistoryWrite Event UInt8 := fun _ e =>
  match effectOf args e with
  | .edge mods _ _ => mods
  | .snapshot mods _ => some mods
  | _ => none

/-! ## The state of a run -/

section Run

variable {args : Args} {es : List Event} {e : Event} {u : UInt8}

/-- **The watchdog reads the history**: its condition is about the last snapshot of the key. -/
lemma expired_run_iff (now : UInt64) :
    expired args now ((run args es).keymeta u) = true ↔ TooOld args es now u := by
  rw [expired, Bool.and_eq_true, Bool.and_eq_true, decide_eq_true_eq, decide_eq_true_eq,
    bne_iff_ne, and_assoc]
  refine and_congr_right fun _ => ?_
  constructor
  · intro h
    rcases h with ⟨h0, hold⟩
    rcases (exists_lastReaffirmed args es u).resolve_left h0 with ⟨r, hr⟩
    rw [hr.stamp] at h0 hold
    exact ⟨r, hr, h0, hold⟩
  · intro h
    rcases h with ⟨r, hr, h0, hold⟩
    rw [hr.stamp]
    exact ⟨h0, hold⟩

/-- **Step lemma.** A key is what the event says about it, or what it was. -/
lemma held_run_concat :
    held (run args (es ++ [e])) u = (keyWrite args u es e).getD (held (run args es) u) := by
  rw [run_concat, held_step, Write.apply, writeOf, keyWrite]
  cases effectOf args e with
  | none => rfl
  | mark usage tNs => rfl
  | edge mods down usage => rfl
  | snapshot mods keys => rfl
  | scan =>
    have hexp : expired args e.now ((run args es).keymeta u) = true ↔ TooOld args es e.now u :=
      expired_run_iff e.now
    by_cases hold : TooOld args es e.now u
    · -- a key that is not pressed is not released, and stays what it is
      by_cases hu : u ∈ (run args es).pressed <;> simp [Effect.write, hexp, hold, hu, held]
    · simp [Effect.write, hexp, hold]

/-- **Step lemma** for the modifiers. -/
lemma modifiers_run_concat :
    (run args (es ++ [e])).modifiers = (modsWrite args es e).getD (run args es).modifiers := by
  rw [run_concat, modifiers_step, modsWrite]
  cases effectOf args e with
  | none => rfl
  | mark usage tNs => rfl
  | edge mods down usage => cases mods <;> rfl
  | snapshot mods keys => rfl
  | scan => rfl

/-- **Run lemma.** A key is pressed iff the last event that says something about it says so. -/
lemma mem_pressed_run_iff :
    u ∈ (run args es).pressed ↔ LastWrite (keyWrite args u) es true := by
  have h := eq_iff_lastWrite (f := fun es => held (run args es) u)
    (fun es e => held_run_concat) es true
  rw [← decide_eq_true_iff (p := u ∈ (run args es).pressed)]
  exact h.trans (or_iff_left fun h0 => Bool.false_ne_true h0.1)

/-- **Run lemma** for the modifiers. -/
lemma modifiers_run_iff (mods : UInt8) :
    (run args es).modifiers = mods
      ↔ LastWrite (modsWrite args) es mods ∨ mods = 0 ∧ Unwritten (modsWrite args) es := by
  rw [eq_iff_lastWrite (f := fun es => (run args es).modifiers)
    (fun es e => modifiers_run_concat) es mods]
  exact or_congr_right (and_congr_left' eq_comm)

end Run

/-! ## Interleaved handlers -/

section Interleaved

variable {args : Args} {as : List Action} {s : Sys}

/-- **Last writer wins, register by register**: in every interleaving of the handlers, a key
is pressed iff the last critical section that says something about it says so, the
modifiers are those of the last one that carries any, and the stamp of a key is the clock
reading of the last snapshot that contained it. -/
theorem keys_of_history (hrun : Trace (sysStep args) {} as s) :
    (∀ u, u ∈ s.keys.pressed ↔ LastWrite (keyWrite args u) s.history true)
      ∧ (∀ mods, s.keys.modifiers = mods
        ↔ LastWrite (modsWrite args) s.history mods
          ∨ mods = 0 ∧ Unwritten (modsWrite args) s.history)
      ∧ ∀ u r, LastReaffirmed args s.history r u →
        (s.keys.keymeta u).lastSnapshotNs = r.now := by
  have hkeys : s.keys = run args s.history := linearized_of_trace hrun
  rw [hkeys]
  exact ⟨fun u => mem_pressed_run_iff, modifiers_run_iff, fun u r hr => hr.stamp⟩

/-- The press of `a` is overwritten by the empty snapshot, although it is sent later. -/
theorem keys_of_history_sentLate :
    ∃ s, Trace (sysStep {}) {} sentLate s ∧ ¬LastWrite (keyWrite {} 0x04) s.history true := by
  have hfinal : ∃ s, Trace (sysStep {}) {} sentLate s ∧ 0x04 ∉ s.keys.pressed :=
    ⟨_, trace_of_foldlM rfl, by decide⟩
  rcases hfinal with ⟨s, hrun, hnot⟩
  exact ⟨s, hrun, mt ((keys_of_history hrun).1 0x04).mpr hnot⟩

end Interleaved

end QuicKeys.Daemon
