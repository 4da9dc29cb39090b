import Mathlib.Data.List.Infix
import Mathlib.Logic.Function.Basic
import QuicKeys.Lib.Brackets
import QuicKeys.Lib.Runs

/-!
# Starting and stopping the server

`MsQuicServer::start` opens the API table and three handles, one on top of the other, and
returns as soon as a call fails; `stop`, which the destructor calls, closes what is there,
the other way round. A failed `start` leaves what it has opened to the next `stop`, and a
second `start` overwrites the handles of the first.

A call of msquic that fails leaves the variable it was to set alone. Handles are numbered in
the order in which they are opened.
-/

namespace QuicKeys.Quic

open Brackets Runs

/-! ## The class -/

/-- `Api`, `Registration`, `Configuration` and `Listener`. -/
inductive HandleKind
  | api
  | registration
  | configuration
  | listener
deriving DecidableEq

/-- The members of the class, the number of the next handle, and the calls that opened and
closed one. -/
structure MsQuicServer where
  member : HandleKind → Option ℕ := fun _ => none
  onMessage : Bool := false
  recordSize : ℕ := 0
  next : ℕ := 0
  log : List (Bracket (HandleKind × ℕ)) := []

/-- Which of the calls of `start` succeed. -/
structure Statuses where
  msQuicOpen2 : Bool := true
  registrationOpen : Bool := true
  configurationOpen : Bool := true
  configurationLoadCredential : Bool := true
  listenerOpen : Bool := true
  listenerStart : Bool := true

/-- A call that opens a handle succeeds. -/
def MsQuicServer.opened (k : HandleKind) (s : MsQuicServer) : MsQuicServer :=
  { s with
    member := Function.update s.member k (some s.next)
    next := s.next + 1
    log := s.log ++ [.opened (k, s.next)] }

/-- `start`, with a callback, and its result. -/
def MsQuicServer.start (status : Statuses) (recordSize : ℕ) (s : MsQuicServer) :
    MsQuicServer × Bool :=
  let s := { s with onMessage := true, recordSize }
  if !status.msQuicOpen2 then (s, false)
  else
    let s := s.opened .api
    if !status.registrationOpen then (s, false)
    else
      let s := s.opened .registration
      if !status.configurationOpen then (s, false)
      else
        let s := s.opened .configuration
        if !status.configurationLoadCredential then (s, false)
        else if !status.listenerOpen then (s, false)
        else
          let s := s.opened .listener
          if !status.listenerStart then (s, false) else (s, true)

/-- `if (Listener) { Api->ListenerClose(Listener); Listener=nullptr; }`, and so on; `none` when
the table is gone. -/
def MsQuicServer.closed (k : HandleKind) (s : MsQuicServer) : Option MsQuicServer :=
  match s.member k with
  | none => some s
  | some h =>
    if s.member .api = none then none  -- `Api->` has no table to go to
    else some { s with
      member := Function.update s.member k none
      log := s.log ++ [.closed (k, h)] }

/-- `stop`. -/
def MsQuicServer.stop (s : MsQuicServer) : Option MsQuicServer := do
  let s ← s.closed .listener
  let s ← s.closed .configuration
  let s ← s.closed .registration
  let s ← s.closed .api
  return { s with onMessage := false, recordSize := 0 }

/-! ## Runs -/

/-- What is called on a server. -/
inductive ServerCall
  | start (status : Statuses) (recordSize : ℕ)
  | stop

/-- One call; the result of `start` changes nothing in the server. -/
def serverCall (s : MsQuicServer) : ServerCall → Option MsQuicServer
  | .start status recordSize => some (s.start status recordSize).1
  | .stop => s.stop

/-- The calls on a server, up to the one of its destructor. -/
def lifetime (calls : List ServerCall) : Option MsQuicServer :=
  (calls ++ [ServerCall.stop]).foldlM serverCall {}

/-- Whether `MsQuicOpen2` has succeeded since the last `stop`. -/
def openAfter (was : Bool) : ServerCall → Bool
  | .start status _ => was || status.msQuicOpen2
  | .stop => false

/-- No `start` gets hold of the API while it is open. -/
def StopsBetween (calls : List ServerCall) : Prop :=
  Along openAfter (fun was c => ∀ status recordSize, c = .start status recordSize →
    status.msQuicOpen2 = true → was = false) false calls

/-! ## One call -/

/-- What is opened before a handle, and closed after it. -/
def HandleKind.below : HandleKind → Option HandleKind
  | .api => none
  | .registration => some .api
  | .configuration => some .registration
  | .listener => some .configuration

/-- No handle is without those below it. -/
def Ladder (s : MsQuicServer) : Prop :=
  ∀ k k', k.below = some k' → s.member k ≠ none → s.member k' ≠ none

/-- The handles of the members, the latest first. -/
def MsQuicServer.handles (s : MsQuicServer) : List (HandleKind × ℕ) :=
  [.listener, .configuration, .registration, .api].flatMap fun k =>
    ((s.member k).map (k, ·)).toList

/-- The handles of the members are open, and msquic hands out others. -/
structure Live (s : MsQuicServer) : Prop where
  opened : ∀ k i, s.member k = some i → .opened (k, i) ∈ s.log
  unclosed : ∀ k i, s.member k = some i → .closed (k, i) ∉ s.log
  lt_next : ∀ b ∈ s.log, ∀ k i, b = .opened (k, i) ∨ b = .closed (k, i) → i < s.next

/-- Some handle is open, and no member has it any more. -/
def Leaks (s : MsQuicServer) : Prop :=
  ∃ k i, .opened (k, i) ∈ s.log ∧ .closed (k, i) ∉ s.log ∧ s.member k ≠ some i

section Calls

variable {s s' : MsQuicServer} {status : Statuses} {recordSize : ℕ} {k : HandleKind}

@[simp] lemma opened_member (k k' : HandleKind) :
    (s.opened k).member k' = if k' = k then some s.next else s.member k' :=
  Function.update_apply _ _ _ _

lemma mem_handles {i : ℕ} : (k, i) ∈ s.handles ↔ s.member k = some i := by
  cases k <;> simp [MsQuicServer.handles]

/-- Without the API there is nothing. -/
lemma Ladder.member_eq_none (h : Ladder s) (hapi : s.member .api = none) (k : HandleKind) :
    s.member k = none := by
  have hreg : s.member .registration = none := by_contra fun hne => h _ _ rfl hne hapi
  have hconf : s.member .configuration = none := by_contra fun hne => h _ _ rfl hne hreg
  have hlis : s.member .listener = none := by_contra fun hne => h _ _ rfl hne hconf
  cases k <;> assumption

/-- **Stopping** closes what is there, the latest first, and nothing is left. -/
lemma stop_spec (h : Ladder s) :
    ∃ s', s.stop = some s' ∧ s'.log = s.log ++ s.handles.map .closed ∧ s'.next = s.next
      ∧ (∀ k, s'.member k = none) ∧ s'.onMessage = false ∧ s'.recordSize = 0 := by
  simp only [MsQuicServer.stop, MsQuicServer.closed, MsQuicServer.handles]
  cases hapi : s.member .api with
  | none =>
    have hnone := h.member_eq_none hapi
    refine ⟨{ s with onMessage := false, recordSize := 0 }, ?_, ?_, rfl, hnone, rfl, rfl⟩
    · simp [hnone]
    · simp [hnone]
  | some i =>
    cases hreg : s.member .registration <;> cases hconf : s.member .configuration <;>
      cases hlis : s.member .listener <;>
      simp [hapi, hreg, hconf, hlis, Function.update_apply]
    all_goals
      intro k
      cases k <;> simp [hreg, hconf, hlis]

/-- **Starting** goes up the ladder, until a call fails. -/
lemma start_spec (status : Statuses) (recordSize : ℕ) (s : MsQuicServer) :
    ∃ ks, ks <+: [.api, .registration, .configuration, .listener]
      ∧ (status.msQuicOpen2 = true ↔ ks ≠ [])
      ∧ (s.start status recordSize).1
        = ks.foldl (fun s k => s.opened k) { s with onMessage := true, recordSize } := by
  unfold MsQuicServer.start
  dsimp only
  split_ifs with h₁ h₂ h₃ h₄ h₅ h₆
  · exact ⟨[], by decide, by simpa using h₁, rfl⟩
  · exact ⟨[.api], by decide, by simpa using h₁, rfl⟩
  · exact ⟨[.api, .registration], by decide, by simpa using h₁, rfl⟩
  · exact ⟨[.api, .registration, .configuration], by decide, by simpa using h₁, rfl⟩
  · exact ⟨[.api, .registration, .configuration], by decide, by simpa using h₁, rfl⟩
  · exact ⟨_, List.prefix_rfl, by simpa using h₁, rfl⟩
  · exact ⟨_, List.prefix_rfl, by simpa using h₁, rfl⟩

lemma ladder_opened (h : Ladder s) (hk : ∀ k', k.below = some k' → s.member k' ≠ none) :
    Ladder (s.opened k) := by
  intro j j' hj hne
  rw [opened_member] at hne ⊢
  split
  · exact Option.some_ne_none _
  · by_cases hjk : j = k
    · subst hjk
      exact hk j' hj
    · rw [if_neg hjk] at hne
      exact h j j' hj hne

lemma live_opened (h : Live s) : Live (s.opened k) where
  opened j i hj := by
    rw [opened_member] at hj
    split at hj
    · rename_i hjk
      rw [hjk, ← Option.some.inj hj]
      exact List.mem_append_right _ (List.mem_singleton_self _)
    · exact List.mem_append_left _ (h.opened j i hj)
  unclosed j i hj hmem := by
    rcases List.mem_append.mp hmem with hmem | hmem
    · rw [opened_member] at hj
      split at hj
      · -- the number of a new handle is not one of the log
        rw [← Option.some.inj hj] at hmem
        exact absurd (h.lt_next _ hmem _ _ (Or.inr rfl)) (Nat.lt_irrefl _)
      · exact h.unclosed j i hj hmem
    · cases List.mem_singleton.mp hmem
  lt_next b hb j i hji := by
    rcases List.mem_append.mp hb with hb | hb
    · exact Nat.lt_succ_of_lt (h.lt_next b hb j i hji)
    · rw [List.mem_singleton.mp hb] at hji
      rcases hji with hji | hji
      · cases hji
        exact Nat.lt_succ_self _
      · cases hji

lemma leaks_opened (hlive : Live s) (h : Leaks s) : Leaks (s.opened k) := by
  rcases h with ⟨j, i, hopened, hclosed, hnot⟩
  refine ⟨j, i, List.mem_append_left _ hopened, fun hmem => ?_, fun hj => ?_⟩
  · rcases List.mem_append.mp hmem with hmem | hmem
    · exact hclosed hmem
    · cases List.mem_singleton.mp hmem
  · rw [opened_member] at hj
    split at hj
    · have hlt := hlive.lt_next _ hopened _ _ (Or.inl rfl)
      rw [Option.some.inj hj] at hlt
      exact Nat.lt_irrefl _ hlt
    · exact hnot hj

/-- Opening a handle the class already has one for leaves that one open for good. -/
lemma leaks_of_opened (h : Live s) {i : ℕ} (hk : s.member k = some i) : Leaks (s.opened k) := by
  refine ⟨k, i, List.mem_append_left _ (h.opened k i hk), fun hmem => ?_, fun hi => ?_⟩
  · rcases List.mem_append.mp hmem with hmem | hmem
    · exact h.unclosed k i hk hmem
    · cases List.mem_singleton.mp hmem
  · rw [opened_member, if_pos rfl] at hi
    have hlt := h.lt_next _ (h.opened k i hk) _ _ (Or.inl rfl)
    rw [Option.some.inj hi] at hlt
    exact Nat.lt_irrefl _ hlt

/-- After `stop`, what was not the member's is as open as before. -/
lemma mem_log_stop (hlog : s'.log = s.log ++ s.handles.map .closed) (k : HandleKind) (i : ℕ) :
    (.opened (k, i) ∈ s'.log ↔ .opened (k, i) ∈ s.log)
      ∧ (.closed (k, i) ∈ s'.log ↔ .closed (k, i) ∈ s.log ∨ s.member k = some i) := by
  rw [hlog]
  simp [mem_handles]

/-- What a number of handles opened on top of each other keeps. -/
lemma foldl_opened (ks : List HandleKind) (hlive : Live s) :
    Live (ks.foldl (fun s k => s.opened k) s)
      ∧ (Leaks s → Leaks (ks.foldl (fun s k => s.opened k) s)) := by
  induction ks generalizing s with
  | nil => exact ⟨hlive, id⟩
  | cons k ks ih =>
    rcases ih (live_opened (k := k) hlive) with ⟨hlive', hleaks⟩
    exact ⟨hlive', fun h => hleaks (leaks_opened hlive h)⟩

/-- **Step lemma.** -/
lemma live_start (h : Live s) :
    Live (s.start status recordSize).1 ∧ (Leaks s → Leaks (s.start status recordSize).1) := by
  rcases start_spec status recordSize s with ⟨ks, -, -, hstart⟩
  rw [hstart]
  exact foldl_opened ks ⟨h.opened, h.unclosed, h.lt_next⟩

/-- A started server has the API, unless the first call failed. -/
lemma member_api_start :
    (s.start status recordSize).1.member .api ≠ none
      ↔ s.member .api ≠ none ∨ status.msQuicOpen2 = true := by
  unfold MsQuicServer.start
  dsimp only
  split_ifs with h₁ <;> simp_all

/-- **Step lemma.** -/
lemma ladder_start (h : Ladder s) : Ladder (s.start status recordSize).1 := by
  rcases start_spec status recordSize s with ⟨ks, hks, -, hstart⟩
  rw [hstart]
  have h₀ : Ladder { s with onMessage := true, recordSize } := h
  have h₁ := ladder_opened (k := .api) h₀ (by rintro _ ⟨⟩)
  have h₂ := ladder_opened (k := .registration) h₁ (by rintro _ ⟨⟩; simp)
  have h₃ := ladder_opened (k := .configuration) h₂ (by rintro _ ⟨⟩; simp)
  have h₄ := ladder_opened (k := .listener) h₃ (by rintro _ ⟨⟩; simp)
  have hmem := (List.mem_inits _ _).mpr hks
  simp only [List.inits, List.map_cons, List.map_nil, List.mem_cons, List.not_mem_nil,
    or_false] at hmem
  rcases hmem with rfl | rfl | rfl | rfl | rfl
  · exact h₀
  · exact h₁
  · exact h₂
  · exact h₃
  · exact h₄

/-- **Step lemma.** On a server without handles, those that are opened are the members'. -/
lemma nested_start (hnone : ∀ k, s.member k = none) (h : Nested s.log []) :
    Nested (s.start status recordSize).1.log (s.start status recordSize).1.handles := by
  rcases start_spec status recordSize s with ⟨ks, hks, -, hstart⟩
  rw [hstart]
  have h₁ := h.opened (.api, s.next)
  have h₂ := h₁.opened (.registration, s.next + 1)
  have h₃ := h₂.opened (.configuration, s.next + 2)
  have h₄ := h₃.opened (.listener, s.next + 3)
  have hmem := (List.mem_inits _ _).mpr hks
  simp only [List.inits, List.map_cons, List.map_nil, List.mem_cons, List.not_mem_nil,
    or_false] at hmem
  rcases hmem with rfl | rfl | rfl | rfl | rfl
  · simpa [MsQuicServer.handles, hnone] using h
  · simpa [MsQuicServer.handles, MsQuicServer.opened, hnone] using h₁
  · simpa [MsQuicServer.handles, MsQuicServer.opened, hnone, Function.update_apply] using h₂
  · simpa [MsQuicServer.handles, MsQuicServer.opened, hnone, Function.update_apply] using h₃
  · simpa [MsQuicServer.handles, MsQuicServer.opened, hnone, Function.update_apply] using h₄

/-- **Step lemma.** The first call of a second `start` overwrites the API. -/
lemma leaks_start (hlive : Live s) (hopen : status.msQuicOpen2 = true)
    (hapi : s.member .api ≠ none) : Leaks (s.start status recordSize).1 := by
  rcases start_spec status recordSize s with ⟨ks, hks, hne, hstart⟩
  rw [hstart]
  cases ks with
  | nil => exact absurd rfl (hne.mp hopen)
  | cons k ks =>
    obtain rfl : k = .api := (List.cons_prefix_cons.mp hks).1
    rcases Option.ne_none_iff_exists'.mp hapi with ⟨i, hi⟩
    have hlive₀ : Live { s with onMessage := true, recordSize } :=
      ⟨hlive.opened, hlive.unclosed, hlive.lt_next⟩
    exact (foldl_opened ks (live_opened hlive₀)).2 (leaks_of_opened hlive₀ hi)

lemma handles_eq_nil (h : ∀ k, s.member k = none) : s.handles = [] := by
  simp [MsQuicServer.handles, h]

end Calls

/-! ## Runs -/

/-- What holds after any calls. -/
structure RunInv (calls : List ServerCall) (s : MsQuicServer) : Prop where
  ladder : Ladder s
  live : Live s
  api : s.member .api ≠ none ↔ calls.foldl openAfter false = true
  nested : StopsBetween calls → Nested s.log s.handles
  leaks : ¬StopsBetween calls → Leaks s

lemma stopsBetween_concat {calls : List ServerCall} {c : ServerCall} :
    StopsBetween (calls ++ [c]) ↔ StopsBetween calls
      ∧ ∀ status recordSize, c = .start status recordSize → status.msQuicOpen2 = true →
        calls.foldl openAfter false = false := by
  rw [StopsBetween, along_append, Along, Along, and_true]
  rfl

section Run

variable {calls : List ServerCall} {s : MsQuicServer}

lemma RunInv.start (h : RunInv calls s) (status : Statuses) (recordSize : ℕ) :
    RunInv (calls ++ [.start status recordSize]) (s.start status recordSize).1 where
  ladder := ladder_start h.ladder
  live := (live_start h.live).1
  api := by
    rw [member_api_start, h.api, List.foldl_append]
    exact (Bool.or_eq_true _ _).symm.to_iff
  nested hbetween := by
    rcases stopsBetween_concat.mp hbetween with ⟨hcalls, hlast⟩
    by_cases hopen : status.msQuicOpen2 = true
    · have hapi : s.member .api = none := by
        by_contra hne
        exact Bool.false_ne_true ((hlast _ _ rfl hopen).symm.trans (h.api.mp hne))
      have hnone := h.ladder.member_eq_none hapi
      have hnested := h.nested hcalls
      rw [handles_eq_nil hnone] at hnested
      exact nested_start hnone hnested
    · rcases start_spec status recordSize s with ⟨ks, -, hne, hstart⟩
      obtain rfl : ks = [] := not_not.mp (mt hne.mpr hopen)
      rw [hstart]
      exact h.nested hcalls
  leaks hnot := by
    by_cases hcalls : StopsBetween calls
    · -- the API was open, and this call got hold of it
      by_contra hno
      refine hnot (stopsBetween_concat.mpr ⟨hcalls, fun _ _ hc hopen => ?_⟩)
      cases hc
      rw [Bool.eq_false_iff, Ne, ← h.api]
      exact fun hapi => hno (leaks_start h.live hopen hapi)
    · exact (live_start h.live).2 (h.leaks hcalls)

lemma RunInv.stop (h : RunInv calls s) :
    ∃ s', s.stop = some s' ∧ RunInv (calls ++ [.stop]) s' ∧ (∀ k, s'.member k = none)
      ∧ s'.onMessage = false ∧ s'.recordSize = 0 := by
  rcases stop_spec h.ladder with ⟨s', hstop, hlog, hnext, hnone, hquiet⟩
  refine ⟨s', hstop, ⟨fun k k' _ hk => absurd (hnone k) hk, ?_, ?_, ?_, ?_⟩, hnone, hquiet⟩
  · refine ⟨fun k i hk => ?_, fun k i hk => ?_, fun b hb k i hki => ?_⟩
    · rw [hnone] at hk
      cases hk
    · rw [hnone] at hk
      cases hk
    · rw [hnext]
      rcases hki with rfl | rfl
      · exact h.live.lt_next _ ((mem_log_stop hlog k i).1.mp hb) k i (Or.inl rfl)
      · rcases (mem_log_stop hlog k i).2.mp hb with hold | hk
        · exact h.live.lt_next _ hold k i (Or.inr rfl)
        · exact h.live.lt_next _ (h.live.opened k i hk) k i (Or.inl rfl)
  · rw [List.foldl_append]
    simp [hnone, openAfter]
  · intro hbetween
    rw [handles_eq_nil hnone, hlog]
    refine Nested.closed ?_
    rw [List.append_nil]
    exact h.nested (stopsBetween_concat.mp hbetween).1
  · intro hnot
    have hcalls : ¬StopsBetween calls := fun hcalls =>
      hnot (stopsBetween_concat.mpr ⟨hcalls, fun _ _ hc => by cases hc⟩)
    rcases h.leaks hcalls with ⟨k, i, hopened, hclosed, hmember⟩
    refine ⟨k, i, (mem_log_stop hlog k i).1.mpr hopened, fun hmem => ?_, ?_⟩
    · exact ((mem_log_stop hlog k i).2.mp hmem).elim hclosed hmember
    · rw [hnone]
      exact (Option.some_ne_none i).symm

/-- **Run lemma.** -/
lemma exists_runInv (calls : List ServerCall) :
    ∃ s, calls.foldlM serverCall {} = some s ∧ RunInv calls s := by
  induction calls using List.reverseRecOn with
  | nil =>
    refine ⟨{}, rfl, fun _ _ _ hk => absurd rfl hk, ?_, by simp, fun _ => nested_nil, ?_⟩
    · exact ⟨fun _ _ hk => absurd hk (by simp), fun _ _ hk => absurd hk (by simp),
        fun _ hb => absurd hb List.not_mem_nil⟩
    · exact fun hnot => absurd trivial hnot
  | append_singleton calls c ih =>
    rcases ih with ⟨s, hrun, hinv⟩
    rw [List.foldlM_append, hrun]
    cases c with
    | start status recordSize => exact ⟨_, rfl, hinv.start status recordSize⟩
    | stop =>
      rcases hinv.stop with ⟨s', hstop, hinv', -⟩
      exact ⟨s', by simpa [serverCall] using hstop, hinv'⟩

end Run

/-- **The life of the handles.** Whatever was called and whichever calls of msquic failed, the
destructor finds the table it needs and leaves nothing. If every `start` that got hold of the
API found it closed, every handle was closed before those below it; and that is exactly when
every handle was closed as often as it was opened. -/
theorem closed_iff_stopsBetween (calls : List ServerCall) :
    ∃ s, lifetime calls = some s ∧ (∀ k, s.member k = none) ∧ s.onMessage = false
      ∧ (StopsBetween calls → Nested s.log [])
      ∧ (StopsBetween calls
        ↔ ∀ h, s.log.count (.opened h) = s.log.count (.closed h)) := by
  rcases exists_runInv calls with ⟨s, hrun, hinv⟩
  rcases hinv.stop with ⟨s', hstop, hinv', hnone, hquiet, -⟩
  have hnested : StopsBetween calls → Nested s'.log [] := by
    intro hcalls
    have hafter := hinv'.nested (stopsBetween_concat.mpr ⟨hcalls, fun _ _ hc => by cases hc⟩)
    rwa [handles_eq_nil hnone] at hafter
  refine ⟨s', ?_, hnone, hquiet, hnested, fun hcalls h => ?_, fun hcount => ?_⟩
  · rw [lifetime, List.foldlM_append, hrun]
    simpa [serverCall] using hstop
  · exact (hnested hcalls).count_eq h
  · by_contra hcalls
    have hnot : ¬StopsBetween (calls ++ [.stop]) := fun h => hcalls (stopsBetween_concat.mp h).1
    rcases hinv'.leaks hnot with ⟨k, i, hopened, hclosed, -⟩
    have hpos : 0 < s'.log.count (.opened (k, i)) := List.count_pos_iff.mpr hopened
    rw [hcount, List.count_eq_zero.mpr hclosed] at hpos
    exact Nat.lt_irrefl _ hpos

end QuicKeys.Quic
