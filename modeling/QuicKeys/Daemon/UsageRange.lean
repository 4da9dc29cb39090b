import QuicKeys.Daemon.Handlers

/-!
# Which usages get into the reports

Snapshots filter the usages they decode (`isKeyboardUsage`), and datagrams can only name
letters and `ENTER`. Binary edge records carry a usage of their own, which is checked
against 256 but not against the keyboard range. So every reachable state and every report
stays within the keyboard usages exactly as long as no accepted binary record presses a
usage outside of them.
-/

namespace QuicKeys.Daemon

/-- A report a keyboard can produce: valid usages, none of them twice. -/
structure ReportValid (r : HidReport8) : Prop where
  usage : ∀ x ∈ r.slots, x = 0 ∨ isKeyboardUsage x = true
  distinct : (r.slots.filter (· ≠ 0)).Nodup

/-- All pressed usages are keyboard usages. -/
def PressedValid (s : KeyState) : Prop := ∀ u ∈ s.pressed, isKeyboardUsage u = true

/-- Only keyboard usages are pressed after a run, or were reported during it. -/
structure KeyboardOnly (args : Args) (es : List Event) : Prop where
  pressed : PressedValid (run args es)
  reports : ∀ pre e post r, es = pre ++ e :: post → emitted args (run args pre) e = some r →
    ReportValid r

/-- A binary edge record that is within the deadline and presses a usage below 256 that is
not a keyboard usage. -/
def PressesForeign (args : Args) (e : Event) : Prop :=
  ∃ data mods usage dtMs seq, e.msg = .quicEdge data
    ∧ quicVerdict args e.now data = .edge mods true usage dtMs seq
    ∧ isKeyboardUsage usage.toUInt8 = false

/-! ## The usages datagrams can name -/

lemma isKeyboardUsage_mapChar {c : UInt8} (h : mapChar c ≠ 0) :
    isKeyboardUsage (mapChar c) = true := by
  unfold mapChar at h ⊢
  split
  · rename_i hc
    rw [Bool.and_eq_true, decide_eq_true_eq, decide_eq_true_eq, UInt8.le_iff_toNat_le,
      UInt8.le_iff_toNat_le] at hc
    obtain ⟨h1, h2⟩ : 97 ≤ c.toNat ∧ c.toNat ≤ 122 := hc
    have hsub : (c - 0x61).toNat = c.toNat - 97 :=
      UInt8.toNat_sub_of_le _ _ (UInt8.le_iff_toNat_le.mpr h1)
    rw [isKeyboardUsage_iff, UInt8.toNat_add, hsub]
    show 4 ≤ (4 + (c.toNat - 97)) % 2 ^ 8 ∧ (4 + (c.toNat - 97)) % 2 ^ 8 ≤ 165
    omega
  · split
    · decide
    · rename_i h1 h2
      simp [h1, h2] at h

/-- A key name that has a usage has a keyboard usage. -/
lemma isKeyboardUsage_usageOfKey {key : List UInt8} (h : usageOfKey key ≠ 0) :
    isKeyboardUsage (usageOfKey key) = true := by
  unfold usageOfKey at h ⊢
  split
  · decide
  · rename_i hne
    rw [if_neg hne] at h
    cases key with
    | nil => exact absurd rfl h
    | cons c key => exact isKeyboardUsage_mapChar h

/-- A datagram edge is an edge of a keyboard usage. -/
lemma isKeyboardUsage_of_udpVerdict {args : Args} {now : UInt64} {s : List UInt8} {down : Bool}
    {usage : UInt8} {dtMs : ℚ} {cmd key : List UInt8}
    (h : udpVerdict args now s = .edge down usage dtMs cmd key) :
    isKeyboardUsage usage = true := by
  unfold udpVerdict at h
  split at h
  · cases h
  · rename_i tNs cmd' key' _
    unfold udpCommand at h
    generalize (if tNs = 0 then now else tNs) = t at h
    dsimp only at h
    split at h
    · cases h
    · split at h
      · cases h
      · rename_i hne
        split at h
        · cases h
        · split at h
          · cases h
            exact isKeyboardUsage_usageOfKey hne
          · split at h
            · cases h
              exact isKeyboardUsage_usageOfKey hne
            · cases h

/-! ## One step -/

/-- What an event can add to the pressed set: nothing but keyboard usages, unless it is a
binary record that presses a foreign one. -/
lemma isKeyboardUsage_of_write {args : Args} {s : KeyState} {e : Event}
    (he : ¬PressesForeign args e) {u : UInt8} (h : writeOf args s e u = some true) :
    isKeyboardUsage u = true := by
  unfold writeOf effectOf at h
  cases hm : e.msg with
  | datagram data =>
    simp only [hm] at h
    cases hv : udpVerdict args e.now (data.take bufSize) with
    | edge down usage dtMs cmd key =>
      simp only [hv, Effect.write] at h
      split at h
      · rename_i hu
        rw [hu]
        exact isKeyboardUsage_of_udpVerdict hv
      · cases h
    | _ => simp [hv, Effect.write] at h
  | snapshot data =>
    simp only [hm] at h
    unfold decodeSnapshot at h
    by_cases hlen : data.length < 52
    · simp [hlen, Effect.write] at h
    · simp only [hlen, if_false, Effect.write, Option.some.injEq, decide_eq_true_eq] at h
      exact (mem_newPressed.mp h).1
  | quicEdge data =>
    simp only [hm] at h
    cases hv : quicVerdict args e.now data with
    | edge mods down usage dtMs seq =>
      simp only [hv, Effect.write] at h
      split at h
      · rename_i hu
        obtain rfl : down = true := Option.some.inj h
        rw [hu]
        by_contra hne
        exact he ⟨data, mods, usage, dtMs, seq, hm, hv, Bool.eq_false_iff.mpr hne⟩
      · cases h
    | _ => simp [hv, Effect.write] at h
  | tick =>
    simp only [hm, Effect.write] at h
    split at h <;> cases h

/-- **Step lemma.** Without a foreign press the pressed set stays within the keyboard. -/
lemma pressedValid_step {args : Args} {s : KeyState} {e : Event} (hs : PressedValid s)
    (he : ¬PressesForeign args e) : PressedValid (step args s e) := by
  intro u hu
  rw [mem_pressed_step] at hu
  cases hw : writeOf args s e u with
  | none =>
    rw [hw, Option.getD_none, held, decide_eq_true_eq] at hu
    exact hs u hu
  | some b =>
    rw [hw, Option.getD_some] at hu
    rw [hu] at hw
    exact isKeyboardUsage_of_write he hw

/-- A foreign press puts its usage into the pressed set. -/
lemma not_pressedValid_step {args : Args} {e : Event} (he : PressesForeign args e)
    (s : KeyState) : ¬PressedValid (step args s e) := by
  rcases he with ⟨data, mods, usage, dtMs, seq, hm, hv, hu⟩
  intro hvalid
  have hmem : usage.toUInt8 ∉ (step args s e).pressed := fun h => by
    rw [hvalid _ h] at hu
    cases hu
  apply hmem
  have heff : effectOf args e = .edge (some mods) true usage.toUInt8 := by
    simp only [effectOf, hm, hv]
  rw [step_eq, heff]
  simp [Effect.apply, mem_applyEdge_pressed]

/-- **Run lemma.** -/
lemma pressedValid_run {args : Args} {es : List Event}
    (hes : ∀ e ∈ es, ¬PressesForeign args e) : PressedValid (run args es) :=
  Runs.Along.invariant (I := PressedValid) (fun _ _ hs he => pressedValid_step hs he)
    (fun u hu => absurd hu (UnorderedSet.not_mem_empty u)) (Runs.along_iff_forall_mem.mpr hes)

/-- A state within the keyboard gives a valid report. -/
lemma reportValid_of_pressedValid {s : KeyState} (hs : PressedValid s) :
    ReportValid (reportOf s) where
  usage x hx := (mem_slots_reportOf hx).imp_right (hs x)
  distinct := nodup_slots_reportOf s

lemma emitted_eq_some {args : Args} {s : KeyState} {e : Event} {r : HidReport8}
    (h : emitted args s e = some r) :
    (handle args s e).emit = true ∧ r = reportOf (step args s e) := by
  unfold emitted at h
  split at h
  · rename_i hemit
    exact ⟨hemit, (Option.some.inj h).symm⟩
  · cases h

/-! ## Runs -/

/-- **Exactly the foreign presses of binary edge records break the usage range**: at every
point of a run the pressed set and the reports so far consist of keyboard usages iff no
event of the run is such a press. -/
theorem keyboardOnly_iff (args : Args) (es : List Event) :
    (∀ pre, pre <+: es → KeyboardOnly args pre) ↔ ∀ e ∈ es, ¬PressesForeign args e := by
  constructor
  · intro h e he hforeign
    rcases List.append_of_mem he with ⟨pre, post, rfl⟩
    have hpre : pre ++ [e] <+: pre ++ e :: post := ⟨post, by simp⟩
    have hvalid := (h _ hpre).pressed
    rw [run_concat] at hvalid
    exact not_pressedValid_step hforeign _ hvalid
  · intro h pre hpre
    have hmem : ∀ e ∈ pre, ¬PressesForeign args e := fun e he => h e (hpre.subset he)
    refine ⟨pressedValid_run hmem, fun pre' e post r hsplit hr => ?_⟩
    have hpre' : pre' ++ [e] <+: pre := ⟨post, by rw [hsplit]; simp⟩
    have hvalid := pressedValid_run fun e' he' => hmem e' (hpre'.subset he')
    rw [run_concat] at hvalid
    rw [(emitted_eq_some hr).2]
    exact reportValid_of_pressedValid hvalid

/-- The binary edge record "press usage 0", received at clock value 1. -/
def pressUsageZero : Event where
  msg := .quicEdge [0, 0, 0, 0, 0, 0, 0, 0, 0, 0, 0, 0, 0, 0, 1, 0]
  now := 1
  ord := IterOrder.front UInt8

/-- Usage 0, which means "no key", can get into the pressed set. -/
theorem not_keyboardOnly_pressUsageZero : ¬KeyboardOnly {} [pressUsageZero] := by
  intro h
  have hmem : (0 : UInt8) ∈ (run {} [pressUsageZero]).pressed := by decide
  have := h.pressed 0 hmem
  revert this
  decide

end QuicKeys.Daemon
