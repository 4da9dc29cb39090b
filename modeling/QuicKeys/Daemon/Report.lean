import Mathlib.Data.Finset.Dedup
import Mathlib.Data.Finset.Erase
import QuicKeys.Daemon.State

/-!
# HID reports

`hid_report.h`, and the capture every handler makes before it sends: under `state_mu`, up
to six usages in the iteration order of `pressed`, and the modifiers.
-/

namespace QuicKeys.Daemon

/-- A keyboard report: `[mods][0x00][k0][k1][k2][k3][k4][k5]`. -/
structure HidReport8 where
  bytes : Vector UInt8 8
deriving DecidableEq

/-- `build_hid_report`; the loop over `i < 6 && i < size` is unrolled. -/
def buildHidReport (pressedUsages : List UInt8) (modifiers : UInt8) : HidReport8 where
  bytes := #v[modifiers, 0x00,
    pressedUsages.getD 0 0, pressedUsages.getD 1 0, pressedUsages.getD 2 0,
    pressedUsages.getD 3 0, pressedUsages.getD 4 0, pressedUsages.getD 5 0]

/-- `for (auto u : pressed) { if (v.size() < 6) v.push_back(u); }` and `mods = modifiers`. -/
def capture (s : KeyState) : List UInt8 × UInt8 :=
  (s.pressed.toList.foldl (fun v u => if v.length < 6 then v ++ [u] else v) [], s.modifiers)

/-- The report built from the current key state. -/
def reportOf (s : KeyState) : HidReport8 := buildHidReport (capture s).1 (capture s).2

/-- The report of a keyboard with nothing held, which is what the guest starts from. -/
def idleReport : HidReport8 := buildHidReport [] 0

/-- The key slots of a report. -/
def HidReport8.slots (r : HidReport8) : List UInt8 := r.bytes.toList.drop 2

/-- The keys a report shows; an empty slot is 0. -/
def HidReport8.keys (r : HidReport8) : Finset UInt8 := r.slots.toFinset.erase 0

@[simp] lemma HidReport8.length_toList (r : HidReport8) : r.bytes.toList.length = 8 := by simp

lemma reportOf_empty {s : KeyState} (hp : s.pressed = ∅) (hm : s.modifiers = 0) :
    reportOf s = idleReport := by
  rw [reportOf, capture, hp, hm]
  rfl

/-! ## The capture loop -/

lemma foldl_push_six (l v : List UInt8) (hv : v.length ≤ 6) :
    l.foldl (fun v u => if v.length < 6 then v ++ [u] else v) v = (v ++ l).take 6 := by
  induction l generalizing v with
  | nil => rw [List.foldl_nil, List.append_nil, List.take_of_length_le hv]
  | cons u l ih =>
    rw [List.foldl_cons]
    by_cases h : v.length < 6
    · rw [if_pos h, ih _ (by simp; omega), List.append_assoc, List.singleton_append]
    · have h6 : v.length = 6 := by omega
      rw [if_neg h, ih _ hv, List.take_append_of_le_length h6.ge,
        List.take_append_of_le_length h6.ge]

/-- The capture takes the first six pressed usages in iteration order. -/
lemma capture_fst (s : KeyState) : (capture s).1 = s.pressed.toList.take 6 :=
  foldl_push_six _ _ (by simp)

/-- The capture reads the pressed set and the modifiers only. -/
lemma capture_congr {s t : KeyState} (hp : s.pressed = t.pressed)
    (hm : s.modifiers = t.modifiers) : capture s = capture t := by
  rw [capture, capture, hp, hm]

lemma reportOf_congr {s t : KeyState} (hp : s.pressed = t.pressed)
    (hm : s.modifiers = t.modifiers) : reportOf s = reportOf t := by
  rw [reportOf, reportOf, capture_congr hp hm]

/-! ## The slots of a report -/

/-- Six usages fill the slots in order, and zeros pad them. -/
lemma slots_buildHidReport {l : List UInt8} (hl : l.length ≤ 6) (m : UInt8) :
    (buildHidReport l m).slots = l ++ List.replicate (6 - l.length) 0 := by
  match l, hl with
  | [], _ => rfl
  | [_], _ => rfl
  | [_, _], _ => rfl
  | [_, _, _], _ => rfl
  | [_, _, _, _], _ => rfl
  | [_, _, _, _, _], _ => rfl
  | [_, _, _, _, _, _], _ => rfl

/-- A slot of the current report is empty or holds a pressed usage. -/
lemma mem_slots_reportOf {s : KeyState} {x : UInt8} (hx : x ∈ (reportOf s).slots) :
    x = 0 ∨ x ∈ s.pressed := by
  rw [reportOf, slots_buildHidReport (by rw [capture_fst]; exact List.length_take_le _ _),
    List.mem_append, capture_fst] at hx
  rcases hx with hx | hx
  · exact Or.inr (List.mem_of_mem_take hx)
  · exact Or.inl (List.eq_of_mem_replicate hx)

/-- The slots of the current report hold the first six keys. -/
lemma mem_slots_reportOf_of_mem_take {s : KeyState} {u : UInt8}
    (h : u ∈ s.pressed.toList.take 6) : u ∈ (reportOf s).slots := by
  rw [reportOf, slots_buildHidReport (by rw [capture_fst]; exact List.length_take_le _ _),
    List.mem_append, capture_fst]
  exact Or.inl h

/-- With at most six keys, all of them are shown. -/
lemma mem_slots_reportOf_of_length_le {s : KeyState} (hs : s.pressed.toList.length ≤ 6)
    {u : UInt8} (h : u ∈ s.pressed) : u ∈ (reportOf s).slots := by
  refine mem_slots_reportOf_of_mem_take ?_
  rwa [List.take_of_length_le hs]

/-- With more than six keys, no slot is empty. -/
lemma mem_take_of_mem_slots {s : KeyState} (hs : 6 < s.pressed.toList.length) {u : UInt8}
    (h : u ∈ (reportOf s).slots) : u ∈ s.pressed.toList.take 6 := by
  have hlen : (capture s).1.length = 6 := by
    rw [capture_fst, List.length_take]
    omega
  rw [reportOf, slots_buildHidReport hlen.le, hlen, Nat.sub_self, List.replicate_zero,
    List.append_nil, capture_fst] at h
  exact h

/-- With at most six keys, the keys of the report are those of the set. -/
lemma mem_keys_reportOf {s : KeyState} (hs : s.pressed.toList.length ≤ 6) {u : UInt8} :
    u ∈ (reportOf s).keys ↔ u ≠ 0 ∧ u ∈ s.pressed := by
  rw [HidReport8.keys, Finset.mem_erase, List.mem_toFinset]
  refine and_congr_right fun hu => ⟨fun h => ?_, mem_slots_reportOf_of_length_le hs⟩
  exact (mem_slots_reportOf h).resolve_left hu

/-- No usage fills two slots. -/
lemma nodup_slots_reportOf (s : KeyState) :
    ((reportOf s).slots.filter (· ≠ 0)).Nodup := by
  rw [reportOf, slots_buildHidReport (by rw [capture_fst]; exact List.length_take_le _ _),
    List.filter_append, capture_fst]
  have hz : (List.replicate (6 - (s.pressed.toList.take 6).length) (0 : UInt8)).filter (· ≠ 0)
      = [] := by
    rw [List.filter_eq_nil_iff]
    intro a ha
    simp [List.eq_of_mem_replicate ha]
  rw [hz, List.append_nil]
  exact (s.pressed.nodup.sublist (List.take_sublist _ _)).filter _

end QuicKeys.Daemon
