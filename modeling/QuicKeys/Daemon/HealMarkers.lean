import QuicKeys.Daemon.Handlers

/-!
# What a `[heal]` line measures

A `mup` datagram marks the time at which a key went up, and the snapshot that releases the
key logs the time since. A release by an edge, by a snapshot or by the watchdog clears the
marker; but a marker is also set for a key that is not pressed, and a later press leaves it
alone. Then the snapshot that releases that press measures from before it.
-/

namespace QuicKeys.Daemon

open Ascii Runs

/-- The events before `m` and behind it, and `m` is the last marker for `u`, with value `t`. -/
structure LastMark (args : Args) (pre a : List Event) (m : Event) (b : List Event) (u : UInt8)
    (t : UInt64) : Prop where
  split : pre = a ++ m :: b
  marks : effectOf args m = .mark u t
  last : ∀ d ∈ b, ∀ t', effectOf args d ≠ .mark u t'

/-- `P` holds of every snapshot of the run, given the events before it and its keys. -/
def AtSnapshots (args : Args) (P : List Event → Event → UnorderedSet UInt8 → Prop)
    (es : List Event) : Prop :=
  ∀ pre e post mods keys, es = pre ++ e :: post → effectOf args e = .snapshot mods keys →
    P pre e keys

/-- What a `[heal]` line subtracts was set by a marker since when the key has not left the
pressed set: one that was processed after the key entered it last. -/
def HealsThisPress (args : Args) (pre : List Event) (e : Event) (_ : UnorderedSet UInt8) : Prop :=
  ∀ u healMs, .heal u healMs ∈ (handle args (run args pre) e).log →
    ∃ a m b t, LastMark args pre a m b u t ∧ healMs = nsToMs (e.now - t)
      ∧ u ∈ (run args a).pressed
      ∧ Throughout (step args) (fun s => u ∈ s.pressed) (step args (run args a) m) b

/-- The event clears the marker of `u`: it is an up edge, or it takes `u` out of the set. -/
def Clears (args : Args) (s : KeyState) (d : Event) (u : UInt8) : Prop :=
  (∃ mods, effectOf args d = .edge mods false u)
    ∨ u ∈ s.pressed ∧ u ∉ (step args s d).pressed

/-- Nothing has cleared the marker of `u` since `m`. -/
def Survives (args : Args) (a : List Event) (m : Event) (b : List Event) (u : UInt8) : Prop :=
  Along (step args) (fun s d => ¬Clears args s d u) (step args (run args a) m) b

/-- The snapshot releases no key whose last marker was set while the key was not pressed,
and is still there. -/
def NoStrayMarker (args : Args) (pre : List Event) (_ : Event) (keys : UnorderedSet UInt8) :
    Prop :=
  ∀ u ∈ (run args pre).pressed, u ∉ keys → ∀ a m b t, LastMark args pre a m b u t →
    u ∉ (run args a).pressed → ¬Survives args a m b u

/-! ## The marker of a key -/

section Steps

variable {args : Args} {s : KeyState} {e : Event} {u : UInt8}

lemma upMarkerNs_of_mark {t : UInt64} (h : effectOf args e = .mark u t) :
    ((step args s e).keymeta u).upMarkerNs = some t := by
  rw [keymeta_step, h, Effect.entry, if_pos rfl]

/-- **Step lemma.** Every way out of the pressed set clears the marker, and so does an up edge
for a key that is not pressed; nothing else but a marker touches it. -/
lemma upMarkerNs_step (h : ∀ t, effectOf args e ≠ .mark u t) :
    (Clears args s e u → ((step args s e).keymeta u).upMarkerNs = none)
      ∧ (¬Clears args s e u →
        ((step args s e).keymeta u).upMarkerNs = (s.keymeta u).upMarkerNs) := by
  have hpressed := mem_pressed_step args s e u
  rw [writeOf] at hpressed
  rw [keymeta_step, Clears, hpressed]
  cases heff : effectOf args e with
  | none => simp [Effect.entry, Effect.write, held]
  | mark usage tNs =>
    have hu : u ≠ usage := by
      rintro rfl
      exact h tNs heff
    simp [Effect.entry, Effect.write, held, hu]
  | edge mods down usage =>
    by_cases hu : u = usage
    · subst hu
      cases down <;> simp [Effect.entry, Effect.write, edgeMeta]
    · simp [Effect.entry, Effect.write, held, hu, Ne.symm hu]
  | snapshot mods keys =>
    by_cases hk : u ∈ keys <;> by_cases hp : u ∈ s.pressed <;>
      simp [Effect.entry, Effect.write, hk, hp]
  | scan =>
    by_cases hp : u ∈ s.pressed <;> by_cases he : expired args e.now (s.keymeta u) = true <;>
      simp [Effect.entry, Effect.write, held, visitMeta, hp, he]

/-- A marker leaves the pressed set alone. -/
lemma mem_pressed_of_mark {t : UInt64} (h : effectOf args e = .mark u t) (v : UInt8) :
    v ∈ (step args s e).pressed ↔ v ∈ s.pressed := by
  rw [mem_pressed_step, writeOf, h, held, Effect.write, Option.getD_none, decide_eq_true_eq]

/-- **The lines of a snapshot**, as the handler logs them. -/
lemma heal_mem_iff {mods : UInt8} {keys : UnorderedSet UInt8}
    (h : effectOf args e = .snapshot mods keys) {healMs : ℚ} :
    .heal u healMs ∈ (handle args s e).log
      ↔ u ∈ s.pressed ∧ u ∉ keys
        ∧ ∃ t, (s.keymeta u).upMarkerNs = some t ∧ healMs = nsToMs (e.now - t) := by
  rw [log_of_snapshot h, heal_mem_reconcile]

end Steps

/-! ## Runs -/

section Runs

variable {args : Args} {pre a b a' b' : List Event} {m m' : Event} {u : UInt8} {t t' : UInt64}

/-- There is only one last marker. -/
lemma LastMark.unique (h : LastMark args pre a m b u t) (h' : LastMark args pre a' m' b' u t') :
    a = a' ∧ m = m' ∧ b = b' := by
  rcases List.append_eq_append_iff.mp (h.split.symm.trans h'.split) with
    ⟨c, ha', hm⟩ | ⟨c, ha, hm'⟩
  · cases c with
    | nil =>
      exact ⟨(ha'.trans (List.append_nil _)).symm, (List.cons.inj hm).1, (List.cons.inj hm).2⟩
    | cons x c =>
      have hmem : m' ∈ b := by
        rw [(List.cons.inj hm).2]
        simp
      exact absurd h'.marks (h.last m' hmem t')
  · cases c with
    | nil =>
      exact ⟨ha.trans (List.append_nil _), (List.cons.inj hm').1.symm, (List.cons.inj hm').2.symm⟩
    | cons x c =>
      have hmem : m ∈ b' := by
        rw [(List.cons.inj hm').2]
        simp
      exact absurd h.marks (h'.last m hmem t)

/-- Without a marker, what is set stays until something clears it, and then nothing is. -/
lemma upMarkerNs_foldl {es : List Event} (hes : ∀ d ∈ es, ∀ t, effectOf args d ≠ .mark u t)
    (s : KeyState) :
    (Along (step args) (fun s d => ¬Clears args s d u) s es →
        ((es.foldl (step args) s).keymeta u).upMarkerNs = (s.keymeta u).upMarkerNs)
      ∧ (¬Along (step args) (fun s d => ¬Clears args s d u) s es →
        ((es.foldl (step args) s).keymeta u).upMarkerNs = none) := by
  induction es generalizing s with
  | nil => exact ⟨fun _ => rfl, fun h => absurd trivial h⟩
  | cons d es ih =>
    rcases List.forall_mem_cons.mp hes with ⟨hd, hes'⟩
    rcases ih hes' (step args s d) with ⟨hsame, hnone⟩
    rcases upMarkerNs_step (s := s) hd with ⟨hclears, hkeeps⟩
    rw [List.foldl_cons, Along]
    constructor
    · rintro ⟨hc, hrest⟩
      rw [hsame hrest, hkeeps hc]
    · intro hnot
      by_cases hrest : Along (step args) (fun s d => ¬Clears args s d u) (step args s d) es
      · have hc : Clears args s d u := by
          by_contra hc
          exact hnot ⟨hc, hrest⟩
        rw [hsame hrest, hclears hc]
      · exact hnone hrest

lemma LastMark.run_eq (h : LastMark args pre a m b u t) :
    run args pre = b.foldl (step args) (step args (run args a) m) := by
  rw [h.split, run, List.foldl_append]
  rfl

/-- **Run lemma.** What is set for a key is the value of its last marker, if that survives. -/
lemma LastMark.upMarkerNs_eq_some_iff (h : LastMark args pre a m b u t) {t₀ : UInt64} :
    ((run args pre).keymeta u).upMarkerNs = some t₀ ↔ t = t₀ ∧ Survives args a m b u := by
  rcases upMarkerNs_foldl h.last (step args (run args a) m) with ⟨hsame, hnone⟩
  rw [upMarkerNs_of_mark h.marks] at hsame
  rw [h.run_eq]
  by_cases hs : Survives args a m b u
  · rw [hsame hs, Option.some.injEq, and_iff_left hs]
  · rw [hnone hs]
    constructor
    · intro hx
      cases hx
    · exact fun hx => absurd hx.2 hs

/-- What is set for a key was set by a marker. -/
lemma exists_lastMark (h : ((run args pre).keymeta u).upMarkerNs ≠ none) :
    ∃ a m b t, LastMark args pre a m b u t := by
  induction pre using List.reverseRecOn with
  | nil => exact absurd rfl h
  | append_singleton pre d ih =>
    by_cases hd : ∃ t, effectOf args d = .mark u t
    · rcases hd with ⟨t, ht⟩
      exact ⟨pre, d, [], t, rfl, ht, fun _ hx => absurd hx List.not_mem_nil⟩
    · rw [not_exists] at hd
      rcases upMarkerNs_step (s := run args pre) hd with ⟨hclears, hkeeps⟩
      rw [run_concat] at h
      have hc : ¬Clears args (run args pre) d u := fun hc => h (hclears hc)
      rw [hkeeps hc] at h
      rcases ih h with ⟨a, m, b, t, hmark⟩
      refine ⟨a, m, b ++ [d], t, by rw [hmark.split]; simp, hmark.marks, fun d' hd' => ?_⟩
      rcases List.mem_append.mp hd' with hd' | hd'
      · exact hmark.last d' hd'
      · rw [List.mem_singleton.mp hd']
        exact hd

/-- While its marker survives, a pressed key stays pressed. -/
lemma throughout_of_survives (hu : u ∈ (step args (run args a) m).pressed)
    (h : Survives args a m b u) :
    Throughout (step args) (fun s => u ∈ s.pressed) (step args (run args a) m) b := by
  rintro c ⟨d, rfl⟩
  refine Along.invariant (I := fun s : KeyState => u ∈ s.pressed) (fun s e hs hc => ?_) hu
    (along_append.mp h).1
  by_contra hout
  exact hc (Or.inr ⟨hs, hout⟩)

end Runs

/-- **Exactly the stray markers are healed from.** In a run every `[heal]` line measures from
a marker of the press it ends iff no snapshot releases a key whose marker was set while the
key was not pressed, and is still there. -/
theorem healsThisPress_iff (args : Args) (es : List Event) :
    AtSnapshots args (HealsThisPress args) es ↔ AtSnapshots args (NoStrayMarker args) es := by
  refine forall_congr' fun pre => forall_congr' fun e => forall_congr' fun post =>
    forall_congr' fun mods => forall_congr' fun keys => imp_congr_right fun _ =>
    imp_congr_right fun heff => ?_
  constructor
  · intro h u hu hkeys a m b t hmark hout hsurvives
    have hset : ((run args pre).keymeta u).upMarkerNs = some t :=
      hmark.upMarkerNs_eq_some_iff.mpr ⟨rfl, hsurvives⟩
    rcases h u _ ((heal_mem_iff heff).mpr ⟨hu, hkeys, t, hset, rfl⟩) with
      ⟨a', m', b', t', hmark', -, hin, -⟩
    rw [(hmark.unique hmark').1] at hout
    exact hout hin
  · intro h u healMs hlog
    rcases (heal_mem_iff heff).mp hlog with ⟨hu, hkeys, t₀, hset, hms⟩
    have hne : ((run args pre).keymeta u).upMarkerNs ≠ none := by
      rw [hset]
      exact Option.some_ne_none _
    rcases exists_lastMark hne with ⟨a, m, b, t, hmark⟩
    rcases hmark.upMarkerNs_eq_some_iff.mp hset with ⟨rfl, hsurvives⟩
    have hin : u ∈ (run args a).pressed := by
      by_contra hout
      exact h u hu hkeys a m b t hmark hout hsurvives
    refine ⟨a, m, b, t, hmark, hms, hin, throughout_of_survives ?_ hsurvives⟩
    rwa [mem_pressed_of_mark hmark.marks]

/-! ## A marker that arrives early -/

/-- The datagram `down a`. -/
def pressA (now : UInt64) : Event where
  msg := .datagram (ascii ['d', 'o', 'w', 'n', ' ', 'a'])
  now
  ord := IterOrder.front UInt8

lemma effectOf_pressA (now : UInt64) :
    effectOf { deadlineMs := 0 } (pressA now) = .edge none true 4 := by
  unfold effectOf pressA
  dsimp only
  rw [udpVerdict, udpFields, tokenize_eq_words]
  rfl

/-- The datagram `mup a`. -/
def markA (now : UInt64) : Event where
  msg := .datagram (ascii ['m', 'u', 'p', ' ', 'a'])
  now
  ord := IterOrder.front UInt8

lemma effectOf_markA (now : UInt64) : effectOf { deadlineMs := 0 } (markA now) = .mark 4 now := by
  unfold effectOf markA
  dsimp only
  rw [udpVerdict, udpFields, tokenize_eq_words]
  rfl

/-- The marker of `a` overtakes the press. -/
def earlyMarker : List Event := [markA 1, pressA 2]

/-- The snapshot that releases the key measures from before the press. -/
theorem not_healsThisPress_earlyMarker :
    ¬AtSnapshots { deadlineMs := 0 } (HealsThisPress { deadlineMs := 0 })
      (earlyMarker ++ [snapshotNone 3]) := by
  intro h
  have hedge : effectOf { deadlineMs := 0 } (pressA 2) = .edge none true 4 := effectOf_pressA 2
  have hsnap : effectOf { deadlineMs := 0 } (snapshotNone 3)
      = .snapshot 0 (newPressed (IterOrder.front UInt8) (List.replicate 32 0)) := rfl
  have hpressed : 4 ∈ (run { deadlineMs := 0 } earlyMarker).pressed := by
    show 4 ∈ (step _ (run _ [markA 1]) (pressA 2)).pressed
    rw [mem_pressed_step, writeOf, hedge]
    rfl
  have hset : ((run { deadlineMs := 0 } earlyMarker).keymeta 4).upMarkerNs = some 1 := by
    show ((step _ (step _ {} (markA 1)) (pressA 2)).keymeta 4).upMarkerNs = _
    rw [keymeta_step, hedge]
    exact upMarkerNs_of_mark (effectOf_markA 1)
  have hlog := (heal_mem_iff hsnap).mpr ⟨hpressed, by decide, 1, hset, rfl⟩
  rcases h earlyMarker (snapshotNone 3) [] _ _ rfl hsnap 4 _ hlog with
    ⟨a, m, b, t, hmark, -, hin, -⟩
  cases a with
  | nil => exact absurd hin (UnorderedSet.not_mem_empty 4)
  | cons x a =>
    cases a with
    -- the press is no marker
    | nil =>
      have hm : pressA 2 = m := (List.cons.inj (List.cons.inj hmark.split).2).1
      have hmarks := hmark.marks
      rw [← hm, hedge] at hmarks
      cases hmarks
    | cons y a =>
      have hlen := congrArg List.length hmark.split
      simp [earlyMarker] at hlen

end QuicKeys.Daemon
