import QuicKeys.Client.QuicOnly
import QuicKeys.Client.Workload
import QuicKeys.Daemon.LogCounts
import QuicKeys.Quic.Records

/-!
# The client without UDP, to the log of the daemon

`main` of `baselines_quic_only.py`: one loop that stamps, delays and writes a record for each
event, and counts the events that it skips. Wherever the stream is cut, the daemon stands where
the loop stood after some of its turns, and the numbers in its log are the turns.
-/

namespace QuicKeys.Client.QuicOnly

open Daemon Registers Runs

/-! ## The loop of the client -/

/-- `script_from_text`: the commands and the keys. -/
def scriptFromText (txt : List Char) (repeats : ℕ) : List (Cmd × List Char) :=
  (List.range repeats).flatMap fun _ => txt.flatMap fun ch =>
    [(.down, keyOfChar ch), (.up, keyOfChar ch)]

/-- One turn of the loop: its event, `now_ms()`, and what `random.random()` returns. -/
structure Turn where
  cmd : Cmd
  key : List Char
  tMs : UInt64
  lossDraw : ℚ

/-- `args.loss and random.random() < (args.loss / 100.0)` -/
def Turn.lost (loss : ℚ) (t : Turn) : Prop := loss ≠ 0 ∧ t.lossDraw < loss / 100

instance (loss : ℚ) (t : Turn) : Decidable (t.lost loss) := inferInstanceAs (Decidable (_ ∧ _))

/-- The exceptions that end the loop. -/
inductive Raised
  | typeError
  | structError

/-- The loop, from `seq` on: what is written to the stream, and the exception, if any. -/
def sendEdges (loss : ℚ) : ℕ → List Turn → List (List UInt8) × Option Raised
  | _, [] => ([], none)
  | seq, t :: ts =>
    if t.lost loss then sendEdges loss (seq + 1) ts
    else
      match usageForKey t.key with
      -- `ord` of two characters
      | none => ([], some .typeError)
      | some usage =>
        if usage = 0 then sendEdges loss (seq + 1) ts
        else if seq < 2 ^ 32 then
          let rec' := packEdge (UInt32.ofNat seq) t.tMs (UInt16.ofNat usage.toNat) t.cmd
          let (recs, raised) := sendEdges loss (seq + 1) ts
          (rec' :: recs, raised)
        -- `seq` does not fit into `I`
        else ([], some .structError)

/-! ## The edges that are kept -/

/-- The usage that a turn writes to the stream, if it writes any. -/
def Turn.usage (loss : ℚ) (t : Turn) : Option UInt8 :=
  if t.lost loss then none
  else (usageForKey t.key).bind fun z => if z = 0 then none else some (UInt8.ofNat z.toNat)

/-- An edge on the stream. -/
structure KeptEdge where
  seq : ℕ
  tMs : UInt64
  usage : UInt8
  cmd : Cmd

/-- The bytes of an edge. -/
def KeptEdge.record (k : KeptEdge) : List UInt8 :=
  packEdge (UInt32.ofNat k.seq) k.tMs k.usage.toUInt16 k.cmd

/-- The edge of a turn; its number counts all turns. -/
def kept (loss : ℚ) (p : Turn × ℕ) : Option KeptEdge :=
  (p.1.usage loss).map fun u => ⟨p.2, p.1.tMs, u, p.1.cmd⟩

/-- An edge that the daemon takes for one on a key, with its number. -/
def KeptEdge.Sound (k : KeptEdge) : Prop := k.seq < 2 ^ 32 ∧ ∃ key : Key, k.usage = key.usage

/-- The keys of this client are those of the workloads. -/
lemma exists_key_of_usageForKey {key : List Char} {z : ℤ} (h : usageForKey key = some z)
    (hz : z ≠ 0) : ∃ k : Key, z = usageInt k.usage := by
  unfold usageForKey at h
  split_ifs at h with henter
  · exact ⟨.enter, (Option.some.inj h).symm⟩
  split at h
  next ch =>
    dsimp only at h
    split_ifs at h with hletter
    · split at h
      next x hx =>
        rw [hx] at hletter
        have hlow : 'a' ≤ x := not_lt.mp fun hlt => not_le.mpr (List.Lex.rel hlt) hletter.1
        have hhigh : x ≤ 'z' := not_lt.mp fun hlt => not_le.mpr (List.Lex.rel hlt) hletter.2
        have hlow' : 97 ≤ x.toNat := hlow
        have hhigh' : x.toNat ≤ 122 := hhigh
        refine ⟨.letter ⟨x.toNat - 97, by omega⟩, ?_⟩
        rw [← Option.some.inj h, usageInt, Key.usage, UInt8.toNat_ofNat']
        have ha : ('a').toNat = 97 := rfl
        rw [ha, Nat.mod_eq_of_lt (by omega)]
        push_cast
        omega
      next => cases h
    · exact absurd (Option.some.inj h).symm hz
  next => exact absurd (Option.some.inj h).symm hz

lemma ofNat_usageInt (u : UInt8) : UInt16.ofNat (usageInt u).toNat = u.toUInt16 := by
  rw [usageInt, Int.toNat_natCast, ← UInt16.toNat_inj, UInt16.toNat_ofNat', UInt8.toNat_toUInt16]
  exact Nat.mod_eq_of_lt (Nat.lt_trans u.toNat_lt (by decide))

/-- **What the loop writes** are the edges of some of its first turns, of all of them when no
exception ends it. -/
lemma sendEdges_spec (loss : ℚ) (seq : ℕ) (ts : List Turn) :
    ∃ done rest, ts = done ++ rest
      ∧ (sendEdges loss seq ts).1
        = ((done.zipIdx seq).filterMap (kept loss)).map KeptEdge.record
      ∧ (∀ k ∈ (done.zipIdx seq).filterMap (kept loss), k.Sound)
      ∧ ((sendEdges loss seq ts).2 = none → rest = []) := by
  induction ts generalizing seq with
  | nil => exact ⟨[], [], rfl, rfl, fun k hk => absurd hk List.not_mem_nil, fun _ => rfl⟩
  | cons t ts ih =>
    rcases ih (seq + 1) with ⟨done, rest, hts, hrecs, hsound, hrest⟩
    -- a turn that writes nothing
    have hskip : t.usage loss = none →
        ((t :: done).zipIdx seq).filterMap (kept loss)
          = (done.zipIdx (seq + 1)).filterMap (kept loss) := by
      intro hnone
      rw [List.zipIdx_cons, List.filterMap_cons_none (by rw [kept, hnone]; rfl)]
    -- a turn that raises an exception
    have hstop : ∀ raised : Raised, sendEdges loss seq (t :: ts) = ([], some raised) →
        ∃ done rest, t :: ts = done ++ rest
          ∧ (sendEdges loss seq (t :: ts)).1
            = ((done.zipIdx seq).filterMap (kept loss)).map KeptEdge.record
          ∧ (∀ k ∈ (done.zipIdx seq).filterMap (kept loss), k.Sound)
          ∧ ((sendEdges loss seq (t :: ts)).2 = none → rest = []) := by
      intro raised h
      rw [h]
      refine ⟨[], t :: ts, rfl, rfl, fun k hk => absurd hk List.not_mem_nil, fun h => ?_⟩
      cases h
    by_cases hlost : t.lost loss
    · have hnone : t.usage loss = none := if_pos hlost
      refine ⟨t :: done, rest, by rw [hts, List.cons_append], ?_⟩
      rw [hskip hnone, sendEdges, if_pos hlost]
      exact ⟨hrecs, hsound, hrest⟩
    cases hkey : usageForKey t.key with
    | none => exact hstop .typeError (by rw [sendEdges, if_neg hlost, hkey])
    | some z =>
      by_cases h0 : z = 0
      · have hnone : t.usage loss = none := by
          rw [Turn.usage, if_neg hlost, hkey, Option.bind_some, if_pos h0]
        refine ⟨t :: done, rest, by rw [hts, List.cons_append], ?_⟩
        rw [hskip hnone, sendEdges, if_neg hlost, hkey]
        dsimp only
        rw [if_pos h0]
        exact ⟨hrecs, hsound, hrest⟩
      by_cases hseq : seq < 2 ^ 32
      · rcases exists_key_of_usageForKey hkey h0 with ⟨key, rfl⟩
        have husage : t.usage loss = some key.usage := by
          rw [Turn.usage, if_neg hlost, hkey, Option.bind_some, if_neg h0, usageInt,
            Int.toNat_natCast, UInt8.ofNat_toNat]
        have hcons : ((t :: done).zipIdx seq).filterMap (kept loss)
            = ⟨seq, t.tMs, key.usage, t.cmd⟩ :: (done.zipIdx (seq + 1)).filterMap (kept loss) := by
          rw [List.zipIdx_cons, List.filterMap_cons_some (by rw [kept, husage]; rfl)]
        refine ⟨t :: done, rest, by rw [hts, List.cons_append], ?_⟩
        rw [hcons, sendEdges, if_neg hlost, hkey]
        dsimp only
        rw [if_neg h0, if_pos hseq]
        refine ⟨?_, List.forall_mem_cons.mpr ⟨⟨hseq, key, rfl⟩, hsound⟩, hrest⟩
        rw [List.map_cons, ← hrecs, KeptEdge.record, ofNat_usageInt]
      · refine hstop .structError ?_
        rw [sendEdges, if_neg hlost, hkey]
        dsimp only
        rw [if_neg h0, if_neg hseq]

/-! ## What the daemon makes of them -/

/-- The number and the usage on the line of an accepted record. -/
def latEdge : LogLine → Option (ℕ × ℕ)
  | .latQuicEdge _ seq usage => some (seq.toNat, usage.toNat)
  | _ => none

/-- Key `u` after an edge. -/
def KeptEdge.leaves (u : UInt8) (was : Bool) (k : KeptEdge) : Bool :=
  if k.usage = u then k.cmd = .down else was

section Daemon

variable {args : Args} {k : KeptEdge}

lemma beU32_packEdge (seq : UInt32) (tMs : UInt64) (usage : UInt16) (cmd : Cmd) :
    beU32 (packEdge seq tMs usage cmd) = seq :=
  beU32_packU32 seq _

/-- The server for edges hands on records, and the monitor thread goes its rounds. -/
def OnlyRecords (es : List Event) : Prop :=
  ∀ e ∈ es, e.msg = .tick ∨ ∃ data, e.msg = .quicEdge data

/-- The record of an event. -/
def recordOf (e : Event) : Option (List UInt8) :=
  match e.msg with
  | .quicEdge data => some data
  | _ => none

/-- **Step lemma**, for a record. -/
lemma record_step (hdl : args.deadlineMs ≤ 0) (hk : k.Sound) {e : Event}
    (hmsg : e.msg = .quicEdge k.record) (s : KeyState) :
    (∀ u, held (step args s e) u = k.leaves u (held s u))
      ∧ (∀ u, ((step args s e).keymeta u).lastSnapshotNs = (s.keymeta u).lastSnapshotNs)
      ∧ (handle args s e).log.filterMap latEdge = [(k.seq, k.usage.toNat)] := by
  rcases hk with ⟨hseq, key, hkey⟩
  have hrecord : k.record
      = packEdge (UInt32.ofNat k.seq) k.tMs key.usage.toUInt16 (edgeCmd (k.cmd = .down)) := by
    rw [KeptEdge.record, hkey]
    cases k.cmd <;> rfl
  have heff : effectOf args e = .edge (some 0) (k.cmd = .down) k.usage := by
    have h := @effectOf_record args e.now k.tMs (UInt32.ofNat k.seq) key e.ord
      (k.cmd = .down) (withinDeadline_of_le hdl)
    rwa [← hrecord, ← hkey, recordEvent, ← hmsg] at h
  refine ⟨fun u => ?_, fun u => ?_, ?_⟩
  · rw [held_step, Write.apply, writeOf, heff, Effect.write, KeptEdge.leaves]
    dsimp only
    by_cases hu : u = k.usage
    · rw [if_pos hu, if_pos hu.symm, Option.getD_some]
    · rw [if_neg hu, if_neg (Ne.symm hu), Option.getD_none]
  · rw [lastSnapshotNs_step, heff]
  · rw [handle, hmsg]
    dsimp only
    rw [quicEdgeCallback, hrecord,
      quicVerdict_packEdge _ key _ (withinDeadline_of_le hdl), beU32_packEdge, ← hkey]
    show [((UInt32.ofNat k.seq).toNat, k.usage.toUInt16.toNat)] = _
    rw [UInt32.toNat_ofNat_of_lt' hseq, UInt8.toNat_toUInt16]

/-- **Step lemma**, for a round. -/
lemma tick_step {e : Event} (hmsg : e.msg = .tick) {s : KeyState}
    (hstamp : ∀ u, (s.keymeta u).lastSnapshotNs = 0) :
    (∀ u, held (step args s e) u = held s u)
      ∧ (∀ u, ((step args s e).keymeta u).lastSnapshotNs = 0)
      ∧ (handle args s e).log.filterMap latEdge = [] := by
  have heff : effectOf args e = .scan := by rw [effectOf, hmsg]
  refine ⟨fun u => ?_, fun u => ?_, ?_⟩
  · have hexpired : expired args e.now (s.keymeta u) = false := by simp [expired, hstamp u]
    rw [held, held]
    exact decide_eq_decide.mpr ((mem_pressed_of_tick hmsg).trans (and_iff_left hexpired))
  · rw [lastSnapshotNs_step, heff]
    exact hstamp u
  · rw [handle_of_tick hmsg, List.filterMap_eq_nil_iff]
    intro line hline
    rcases exists_of_mem_log_watchdogTick hline with ⟨u, -, ageMs, -, rfl | ⟨-, rfl⟩⟩
    · rfl
    · rfl

/-- **Run lemma.** The records are the edges, and nothing else changes a key. -/
lemma daemon_spec (hdl : args.deadlineMs ≤ 0) {es : List Event} (honly : OnlyRecords es)
    {ks : List KeptEdge} (hes : es.filterMap recordOf = ks.map KeptEdge.record)
    (hsound : ∀ k ∈ ks, k.Sound) {s : KeyState}
    (hstamp : ∀ u, (s.keymeta u).lastSnapshotNs = 0) :
    (∀ u, held (es.foldl (step args) s) u = ks.foldl (KeptEdge.leaves u) (held s u))
      ∧ (logOf args s es).filterMap latEdge = ks.map fun k => (k.seq, k.usage.toNat) := by
  induction es generalizing ks s with
  | nil =>
    obtain rfl : ks = [] := List.map_eq_nil_iff.mp hes.symm
    exact ⟨fun u => rfl, rfl⟩
  | cons e es ih =>
    rcases List.forall_mem_cons.mp honly with ⟨htick | ⟨data, hdata⟩, honly⟩
    · rw [List.filterMap_cons_none (by rw [recordOf, htick])] at hes
      rcases @tick_step args e htick s hstamp with ⟨hheld, hstamp', hlog⟩
      rcases ih honly hes hsound hstamp' with ⟨hrun, hlogs⟩
      refine ⟨fun u => ?_, ?_⟩
      · rw [List.foldl_cons, hrun u, hheld u]
      · rw [logOf, List.filterMap_append, hlog, hlogs, List.nil_append]
    · rw [List.filterMap_cons_some (b := data) (by rw [recordOf, hdata])] at hes
      rcases List.map_eq_cons_iff.mp hes.symm with ⟨k, ks, rfl, rfl, hrest⟩
      rcases List.forall_mem_cons.mp hsound with ⟨hk, hsound⟩
      rcases record_step hdl hk hdata s with ⟨hheld, hstamp', hlog⟩
      rcases ih honly hrest.symm hsound (fun u => (hstamp' u).trans (hstamp u)) with ⟨hrun, hlogs⟩
      refine ⟨fun u => ?_, ?_⟩
      · rw [List.foldl_cons, List.foldl_cons, hrun u, hheld u]
      · rw [logOf, List.filterMap_append, hlog, hlogs, List.map_cons, List.singleton_append]

end Daemon

/-! ## From the client to the log -/

/-- What a turn says about key `u`. -/
def turnWrite (loss : ℚ) (u : UInt8) : HistoryWrite Turn Bool := fun _ t =>
  if t.usage loss = some u then some (t.cmd = .down) else none

section Turns

variable {loss : ℚ} {u : UInt8}

/-- **Last writer wins**, among the turns. -/
lemma foldl_leaves_iff (ts : List Turn) :
    (ts.zipIdx.filterMap (kept loss)).foldl (KeptEdge.leaves u) false = true
      ↔ LastWrite (turnWrite loss u) ts true := by
  have h := eq_iff_lastWrite (w := turnWrite loss u)
    (f := fun ts => (ts.zipIdx.filterMap (kept loss)).foldl (KeptEdge.leaves u) false)
    (fun ts t => by
      rw [List.zipIdx_append, List.filterMap_append, List.foldl_append, turnWrite]
      cases husage : t.usage loss with
      | none =>
        rw [List.zipIdx_singleton, List.filterMap_cons_none (by rw [kept, husage]; rfl)]
        rfl
      | some v =>
        rw [List.zipIdx_singleton, List.filterMap_cons_some (by rw [kept, husage]; rfl)]
        show KeptEdge.leaves u _ _ = _
        rw [KeptEdge.leaves]
        by_cases hv : v = u <;> simp [hv])
    ts true
  exact h.trans (or_iff_left fun h0 => Bool.false_ne_true h0.1)

/-- A script without losses releases every key that it presses. -/
lemma foldl_leaves_script {chs : List Char} {ts : List Turn}
    (hts : ts.map (fun t => (t.cmd, t.key))
      = chs.flatMap fun ch => [(.down, keyOfChar ch), (.up, keyOfChar ch)]) (seq : ℕ) :
    ((ts.zipIdx seq).filterMap (kept 0)).foldl (KeptEdge.leaves u) false = false := by
  induction chs generalizing ts seq with
  | nil =>
    obtain rfl : ts = [] := List.map_eq_nil_iff.mp hts
    rfl
  | cons ch chs ih =>
    rw [List.flatMap_cons, List.cons_append, List.cons_append, List.nil_append] at hts
    rcases List.map_eq_cons_iff.mp hts with ⟨x, ts, rfl, hx, hts⟩
    rcases List.map_eq_cons_iff.mp hts with ⟨y, ts, rfl, hy, hts⟩
    rcases Prod.mk.inj hx with ⟨-, hxkey⟩
    rcases Prod.mk.inj hy with ⟨hycmd, hykey⟩
    have husage : y.usage 0 = x.usage 0 := by
      rw [Turn.usage, Turn.usage, if_neg fun h => h.1 rfl, if_neg fun h => h.1 rfl, hxkey, hykey]
    rw [List.zipIdx_cons, List.zipIdx_cons]
    cases hu : x.usage 0 with
    | none =>
      rw [List.filterMap_cons_none (by rw [kept, hu]; rfl),
        List.filterMap_cons_none (by rw [kept, husage, hu]; rfl)]
      exact ih hts _
    | some v =>
      rw [List.filterMap_cons_some (by rw [kept, hu]; rfl),
        List.filterMap_cons_some (by rw [kept, husage, hu]; rfl), List.foldl_cons, List.foldl_cons]
      refine (congrArg (List.foldl _ · _) ?_).trans (ih hts _)
      simp only [KeptEdge.leaves, hycmd]
      by_cases hv : v = u <;> simp [hv]

end Turns

/-- The daemon after the edges of some turns. -/
lemma daemon_of_turns {args : Args} (hdl : args.deadlineMs ≤ 0) {loss : ℚ} {done : List Turn}
    {es : List Event} (honly : OnlyRecords es)
    (hes : es.filterMap recordOf
      = (done.zipIdx.filterMap (kept loss)).map KeptEdge.record)
    (hsound : ∀ k ∈ done.zipIdx.filterMap (kept loss), k.Sound) :
    (logOf args {} es).filterMap latEdge
        = done.zipIdx.filterMap (fun p => (p.1.usage loss).map fun u => (p.2, u.toNat))
      ∧ ∀ u, u ∈ (run args es).pressed ↔ LastWrite (turnWrite loss u) done true := by
  rcases daemon_spec hdl honly hes hsound (s := {}) (fun _ => rfl) with ⟨hheld, hlog⟩
  refine ⟨?_, fun u => ?_⟩
  · rw [hlog, List.map_filterMap]
    refine List.filterMap_congr fun p _ => ?_
    rw [kept, Option.map_map]
    rfl
  · rw [← foldl_leaves_iff]
    have h := hheld u
    rw [show held {} u = false from rfl] at h
    rw [← h, held, decide_eq_true_eq]
    rfl

/-- **The daemon is where the loop was.** At every moment of a run of the server that has got a
beginning of what the loop writes, the numbers in the log of the daemon are those of the edges
that some first turns of the loop kept, and a key is pressed iff the last of these turns that
kept an edge of it kept a press. When everything has arrived, these are all turns; and without
losses, a script leaves no key pressed. -/
theorem edgesArrive {args : Args} (hdl : args.deadlineMs ≤ 0) {loss : ℚ} {turns : List Turn}
    {ins : List Quic.Input} {srv : Quic.Server} {stream : ℕ} {es : List Event}
    (hrun : Trace (Quic.step (Quic.start 16)) {} ins srv)
    (hbytes : Quic.bytesOf stream ins <+: (sendEdges loss 0 turns).1.flatten)
    (hes : es.filterMap recordOf = Quic.callsOf stream srv.log) (honly : OnlyRecords es) :
    ∃ done, done <+: turns
      ∧ (logOf args {} es).filterMap latEdge
        = done.zipIdx.filterMap (fun p => (p.1.usage loss).map fun u => (p.2, u.toNat))
      ∧ (∀ u, u ∈ (run args es).pressed ↔ LastWrite (turnWrite loss u) done true)
      ∧ ((sendEdges loss 0 turns).2 = none →
        Quic.bytesOf stream ins = (sendEdges loss 0 turns).1.flatten →
        done = turns ∧ ∀ txt repeats, loss = 0 →
          turns.map (fun t => (t.cmd, t.key)) = scriptFromText txt repeats →
          ∀ u, u ∉ (run args es).pressed) := by
  rcases sendEdges_spec loss 0 turns with ⟨done, rest, hturns, hrecs, hsound, hrest⟩
  have hlen : ∀ b ∈ (done.zipIdx.filterMap (kept loss)).map KeptEdge.record, b.length = 16 := by
    intro b hb
    rcases List.mem_map.mp hb with ⟨k, -, rfl⟩
    rfl
  -- the calls are the records of the bytes that are there
  rcases (Quic.reassembles_run rfl hrun stream).framed with ⟨pending, hframed⟩
  have hcalls : Quic.callsOf stream srv.log = Blocks.blocks 16 (Quic.bytesOf stream ins) :=
    (hframed.records (by decide)).1
  by_cases hall : Quic.bytesOf stream ins = (sendEdges loss 0 turns).1.flatten
  · rw [hcalls, hall, hrecs, ← List.append_nil (List.flatten _),
      (Blocks.blocks_flatten_append (by decide) hlen (by decide)).1] at hes
    rcases daemon_of_turns hdl honly hes hsound with ⟨hlog, hpressed⟩
    refine ⟨done, ⟨rest, hturns.symm⟩, hlog, hpressed, fun hnone _ => ?_⟩
    have hdone : done = turns := by rw [hturns, hrest hnone, List.append_nil]
    refine ⟨hdone, fun txt repeats hloss hscript u => ?_⟩
    rw [hpressed, ← foldl_leaves_iff, hdone]
    subst hloss
    rw [scriptFromText, ← List.flatMap_assoc] at hscript
    exact ne_true_of_eq_false (foldl_leaves_script hscript 0)
  · rw [hcalls, List.prefix_iff_eq_take.mp hbytes, hrecs,
      Blocks.blocks_take_flatten (by decide) hlen, ← List.map_take] at hes
    -- the first records are those of the first turns
    have hprefix := List.take_prefix ((Quic.bytesOf stream ins).length / 16)
      (done.zipIdx.filterMap (kept loss))
    rcases List.prefix_filterMap_iff.mp hprefix with ⟨l, ⟨l', hl⟩, htake⟩
    rcases List.zipIdx_eq_append_iff.mp hl.symm with ⟨first, last, rfl, rfl, -⟩
    rw [htake] at hes
    have hsound' : ∀ k ∈ first.zipIdx.filterMap (kept loss), k.Sound := by
      intro k hk
      refine hsound k ?_
      rw [← htake] at hk
      exact List.mem_of_mem_take hk
    rcases daemon_of_turns hdl honly hes hsound' with ⟨hlog, hpressed⟩
    refine ⟨first, ⟨last ++ rest, ?_⟩, hlog, hpressed, fun _ h => absurd h hall⟩
    rw [hturns, List.append_assoc]

/-- `a` is typed, and its release is lost. -/
def lostRelease : List Turn :=
  [⟨.down, ['a'], 5, 1⟩, ⟨.up, ['a'], 15, 1 / 10⟩]

/-- What arrives. -/
def oneRecord : List Quic.Input :=
  [.conn 0 (.peerStreamStarted 1), .stream 1 (.receive (sendEdges 50 0 lostRelease).1)]

/-- The record, and a round of the monitor. -/
def recordAndRound : List Event :=
  (sendEdges 50 0 lostRelease).1.map (recordEvent · 7000000 (IterOrder.front UInt8))
    ++ [tickAt 500000000]

/-- The daemon is left with the key pressed. -/
theorem edgesArrive_lostRelease :
    ∃ srv, Trace (Quic.step (Quic.start 16)) {} oneRecord srv
      ∧ 4 ∈ (run { deadlineMs := 0 } recordAndRound).pressed := by
  have hrun : ∃ srv, Trace (Quic.step (Quic.start 16)) {} oneRecord srv
      ∧ Quic.callsOf 1 srv.log = (sendEdges 50 0 lostRelease).1 :=
    ⟨_, trace_of_foldlM rfl, by decide +kernel⟩
  rcases hrun with ⟨srv, hrun, hcalls⟩
  have hbytes : Quic.bytesOf 1 oneRecord = (sendEdges 50 0 lostRelease).1.flatten := by
    decide +kernel
  have honly : OnlyRecords recordAndRound := by
    intro e he
    rcases List.mem_append.mp he with he | he
    · rcases List.mem_map.mp he with ⟨data, -, rfl⟩
      exact Or.inr ⟨data, rfl⟩
    · rw [List.mem_singleton.mp he]
      exact Or.inl rfl
  have hes : recordAndRound.filterMap recordOf = Quic.callsOf 1 srv.log := by
    rw [hcalls]
    decide +kernel
  rcases @edgesArrive { deadlineMs := 0 } (by decide) 50 lostRelease _ _ _ _
    hrun (hbytes ▸ List.prefix_refl _) hes honly with ⟨done, -, -, hpressed, hall⟩
  obtain rfl : done = lostRelease := (hall (by decide +kernel) hbytes).1
  refine ⟨srv, hrun, (hpressed 4).mpr ⟨[], _, _, rfl, ?_, fun a d b h => ?_⟩⟩
  · decide +kernel
  · rcases List.append_eq_singleton_iff.mp h.symm with ⟨rfl, hd⟩ | ⟨-, hd⟩
    · obtain ⟨rfl, -⟩ := List.cons.inj hd
      decide +kernel
    · cases hd

end QuicKeys.Client.QuicOnly
