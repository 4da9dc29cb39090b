import QuicKeys.Daemon.Handlers
import QuicKeys.Lib.Keyed

/-!
# Reordered and duplicated edges

Datagrams overtake each other and arrive twice. An edge acts on the entry of its own key
only, and twice in a row it does what it does once, so as long as the edges of each key keep
their order, the daemon ends up holding the same keys. (The time stamps are those of the
actual arrivals.)
-/

namespace QuicKeys.Daemon

open Ascii

/-! ## The part of the key state that edges determine -/

/-- What is kept for one usage, without the time stamps. -/
structure KeyView where
  held : Bool
  pressed : Bool
  upMarkerNs : Option UInt64
  stuckReported : Bool

/-- The view of each usage. -/
def view (s : KeyState) (u : UInt8) : KeyView where
  held := held s u
  pressed := (s.keymeta u).pressed
  upMarkerNs := (s.keymeta u).upMarkerNs
  stuckReported := (s.keymeta u).stuckReported

/-- An edge: its command and its key. -/
structure Edge where
  down : Bool
  usage : UInt8
deriving DecidableEq

/-- What an edge does to the view of its key. -/
def Edge.act (l : Edge) (v : KeyView) : KeyView where
  held := l.down
  pressed := l.down
  upMarkerNs := if l.down then v.upMarkerNs else none
  stuckReported := false

/-- The events are accepted edges by datagram, with these commands and keys. -/
def AcceptsEdges (args : Args) (es : List Event) (ls : List Edge) : Prop :=
  List.Forall₂ (fun e l => effectOf args e = .edge none l.down l.usage) es ls

/-- The two states hold the same keys and agree about them, time stamps apart. -/
structure SameButStamps (s t : KeyState) : Prop where
  pressed : ∀ u, u ∈ s.pressed ↔ u ∈ t.pressed
  flags : ∀ u, (s.keymeta u).pressed = (t.keymeta u).pressed
  markers : ∀ u, (s.keymeta u).upMarkerNs = (t.keymeta u).upMarkerNs
  stuck : ∀ u, (s.keymeta u).stuckReported = (t.keymeta u).stuckReported
  modifiers : s.modifiers = t.modifiers

lemma Edge.act_act (l : Edge) (v : KeyView) : l.act (l.act v) = l.act v := by
  unfold Edge.act
  cases l.down <;> rfl

lemma sameButStamps_of_view {s t : KeyState} (hview : view s = view t)
    (hmods : s.modifiers = t.modifiers) : SameButStamps s t where
  pressed u := by
    have h : held s u = held t u := congrArg KeyView.held (congrFun hview u)
    rwa [held, held, decide_eq_decide] at h
  flags u := congrArg KeyView.pressed (congrFun hview u)
  markers u := congrArg KeyView.upMarkerNs (congrFun hview u)
  stuck u := congrArg KeyView.stuckReported (congrFun hview u)
  modifiers := hmods

/-! ## Runs of edges -/

section Edges

variable {args : Args} {s : KeyState}

/-- **Step lemma.** An edge is an action on the view of its key. -/
lemma view_step {e : Event} {l : Edge} (h : effectOf args e = .edge none l.down l.usage) :
    view (step args s e) = Keyed.step Edge.usage Edge.act (view s) l := by
  funext u
  rw [Keyed.step_apply, view, keymeta_step, held_step, Registers.Write.apply, writeOf, h]
  simp only [Effect.entry, Effect.write]
  by_cases hu : u = l.usage
  · rw [if_pos hu, if_pos hu, if_pos hu.symm]
    rfl
  · rw [if_neg hu, if_neg hu, if_neg (Ne.symm hu)]
    rfl

/-- **Run lemma.** -/
lemma view_foldl {es : List Event} {ls : List Edge} (h : AcceptsEdges args es ls) :
    view (es.foldl (step args) s) = ls.foldl (Keyed.step Edge.usage Edge.act) (view s)
      ∧ (es.foldl (step args) s).modifiers = s.modifiers := by
  induction h generalizing s with
  | nil => exact ⟨rfl, rfl⟩
  | @cons e l es ls hhead _ ih =>
    rcases ih (s := step args s e) with ⟨hview, hmods⟩
    rw [List.foldl_cons, List.foldl_cons, hview, view_step hhead]
    refine ⟨rfl, hmods.trans ?_⟩
    rw [modifiers_step, hhead]

/-- Every accepted edge sends a report. -/
lemma isSome_getLast?_reports {es : List Event} {ls : List Edge} (h : AcceptsEdges args es ls)
    (hne : ls ≠ []) : (reports args s es).getLast?.isSome = true := by
  cases h with
  | nil => exact absurd rfl hne
  | @cons e l es ls hhead _ =>
    rw [reports, emitted_of_edge hhead, Option.toList_some, List.singleton_append,
      List.getLast?_cons]
    rfl

/-- With at most six keys pressed, the last report shows exactly these. -/
lemma keys_of_mem_getLast? {es : List Event} {s : KeyState} {r : HidReport8}
    (hr : r ∈ (reports args s es).getLast?)
    (hsix : (es.foldl (step args) s).pressed.toList.length ≤ 6) (u : UInt8) :
    u ∈ r.keys ↔ u ≠ 0 ∧ u ∈ (es.foldl (step args) s).pressed := by
  rw [eq_reportOf_of_mem_getLast? args s es r hr, mem_keys_reportOf hsix]

end Edges

lemma SameButStamps.length_eq {s t : KeyState} (h : SameButStamps s t) :
    s.pressed.toList.length = t.pressed.toList.length :=
  ((List.perm_ext_iff_of_nodup s.pressed.nodup t.pressed.nodup).mpr h.pressed).length_eq

/-- **Edges on different keys commute, and duplicates are harmless.** From any state,
accepted edges and a rearrangement of them that keeps the order within each key leave the
same keys, and their last reports show the same ones if these are at most six. -/
theorem sameButStamps_of_rearranged {args : Args} {es es' : List Event} {ls ls' : List Edge}
    (h : AcceptsEdges args es ls) (h' : AcceptsEdges args es' ls')
    (hre : Keyed.Rearranged Edge.usage ls ls') (s : KeyState) :
    SameButStamps (es.foldl (step args) s) (es'.foldl (step args) s)
      ∧ ((es.foldl (step args) s).pressed.toList.length ≤ 6 →
        (reports args s es).getLast?.map HidReport8.keys
          = (reports args s es').getLast?.map HidReport8.keys) := by
  rcases view_foldl (s := s) h with ⟨hview, hmods⟩
  rcases view_foldl (s := s) h' with ⟨hview', hmods'⟩
  have hsame : SameButStamps (es.foldl (step args) s) (es'.foldl (step args) s) := by
    refine sameButStamps_of_view ?_ (hmods.trans hmods'.symm)
    rw [hview, hview']
    exact Keyed.foldl_step_of_rearranged Edge.act_act hre _
  refine ⟨hsame, fun hsix => ?_⟩
  have hsix' := hsix
  rw [hsame.length_eq] at hsix'
  by_cases hne : ls = []
  -- two empty lists send nothing
  · have hne' : ls' = [] := hre.eq_nil_iff.mp hne
    subst hne hne'
    cases h
    cases h'
    rfl
  · have hne' : ls' ≠ [] := fun hnil => hne (hre.eq_nil_iff.mpr hnil)
    rcases Option.isSome_iff_exists.mp (isSome_getLast?_reports (s := s) h hne) with ⟨r, hr⟩
    rcases Option.isSome_iff_exists.mp (isSome_getLast?_reports (s := s) h' hne') with ⟨r', hr'⟩
    rw [hr, hr', Option.map_some, Option.map_some, Option.some.injEq]
    ext u
    rw [keys_of_mem_getLast? hr hsix, keys_of_mem_getLast? hr' hsix', hsame.pressed]

/-! ## Two keys -/

/-- The datagram `down a` or `up a`, for the key `c`. -/
def keyDatagram (down : Bool) (c : Char) : Event where
  msg := .datagram (ascii ((if down then ['d', 'o', 'w', 'n'] else ['u', 'p']) ++ [' ', c]))
  now := 5
  ord := IterOrder.front UInt8

lemma effectOf_keyDatagram (down : Bool) {c : Char} (hc : c = 'a' ∨ c = 'b') :
    effectOf { deadlineMs := 0 } (keyDatagram down c)
      = .edge none down (mapChar (UInt8.ofNat c.toNat)) := by
  unfold effectOf keyDatagram
  dsimp only
  rw [udpVerdict, udpFields, tokenize_eq_words]
  rcases hc with rfl | rfl <;> cases down <;> rfl

/-- `a` is pressed and released around the press of `b`. -/
def pressBoth : List Event := [keyDatagram true 'a', keyDatagram true 'b', keyDatagram false 'a']

/-- The press of `b` overtakes that of `a`, which arrives twice. -/
def pressBothReordered : List Event :=
  [keyDatagram true 'b', keyDatagram true 'a', keyDatagram true 'a', keyDatagram false 'a']

/-- Both orders leave `b` pressed. -/
theorem sameButStamps_of_rearranged_pressBoth :
    SameButStamps (pressBoth.foldl (step { deadlineMs := 0 }) {})
        (pressBothReordered.foldl (step { deadlineMs := 0 }) {})
      ∧ ((pressBoth.foldl (step { deadlineMs := 0 }) {}).pressed.toList.length ≤ 6 →
        (reports { deadlineMs := 0 } {} pressBoth).getLast?.map HidReport8.keys
          = (reports { deadlineMs := 0 } {} pressBothReordered).getLast?.map
            HidReport8.keys) := by
  have ha (down : Bool) := effectOf_keyDatagram down (c := 'a') (.inl rfl)
  have hb (down : Bool) := effectOf_keyDatagram down (c := 'b') (.inr rfl)
  have h : AcceptsEdges { deadlineMs := 0 } pressBoth [⟨true, 4⟩, ⟨true, 5⟩, ⟨false, 4⟩] :=
    .cons (ha true) (.cons (hb true) (.cons (ha false) .nil))
  have h' : AcceptsEdges { deadlineMs := 0 } pressBothReordered
      [⟨true, 5⟩, ⟨true, 4⟩, ⟨true, 4⟩, ⟨false, 4⟩] :=
    .cons (hb true) (.cons (ha true) (.cons (ha true) (.cons (ha false) .nil)))
  have horder : Keyed.SameOrder Edge.usage [⟨true, 4⟩, ⟨true, 5⟩, ⟨false, 4⟩]
      [⟨true, 5⟩, ⟨true, 4⟩, ⟨false, 4⟩] := by
    refine ⟨by decide, fun k => ?_⟩
    by_cases h4 : 4 = k
    · subst h4
      rfl
    · simp [List.filter_cons, h4]
  have hstut : Keyed.Stutters [(⟨true, 5⟩ : Edge), ⟨true, 4⟩, ⟨false, 4⟩]
      [⟨true, 5⟩, ⟨true, 4⟩, ⟨true, 4⟩, ⟨false, 4⟩] :=
    .cons _ 0 (.cons _ 1 (.cons _ 0 .nil))
  exact sameButStamps_of_rearranged h h' (.stutter (.reorder .refl horder) hstut) {}

end QuicKeys.Daemon
