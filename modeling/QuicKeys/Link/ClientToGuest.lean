import QuicKeys.Link.ClientToDevice
import QuicKeys.Link.GuestView

/-!
# From the client to the guest

The client's messages, the daemon, the link and the guest, in any order. The guest does not
disturb the others, so they do what they do without it, and the guest reads the client's keys.
-/

namespace QuicKeys.Link

open Client Daemon Qemu Runs

variable {σ : Type*}

/-! ## The four parties -/

/-- What happens to the four. -/
inductive Deed
  | act (a : Act)
  | guest (g : GuestInput)

/-- One step of the four. -/
def deedStep (core : UsbCore (ControlState σ)) (args : Args) (x : Trio (ControlState σ)) :
    Deed → Trio (ControlState σ)
  | .act a => trioStep args x a
  | .guest g => { x with whole := guestStep core args x.whole (.guest g) }

/-- Edges are in time, and the watchdog releases nothing; the guest may do what it likes. -/
def DeedInTime (args : Args) (x : Trio (ControlState σ)) : Deed → Prop
  | .act a => ActInTime args x a
  | .guest _ => True

/-- The four when the daemon processes the snapshot that the client takes after the history
`h`, on top of any run of the daemon, the device and the guest. -/
def snapshotAfter (core : UsbCore (ControlState σ)) (args : Args) (beat₀ : ℤ)
    (hid : HIDState (ControlState σ)) (ms : List Moment) (h : List KeyEdge) (a : SnapshotArgs)
    (now : UInt64) (ord : IterOrder UInt8) : Trio (ControlState σ) :=
  trioStep args
    { client := pressedSet h, mods := 0, whole := guestRun core args beat₀ hid ms }
    (.message (.snapshot a now ord) 0 false)

/-! ## Without the guest -/

/-- Everything but the device is the same. -/
structure SameHost (x y : Trio (ControlState σ)) : Prop where
  client : x.client = y.client
  mods : x.mods = y.mods
  main : x.whole.main = y.whole.main

section Steps

variable {core : UsbCore (ControlState σ)} {args : Args} {beat₀ : ℤ}
  {hid : HIDState (ControlState σ)} {x y : Trio (ControlState σ)}

lemma SameHost.joint (h : SameHost x y) : x.joint = y.joint := by
  rw [Trio.joint, Trio.joint, h.client, h.mods, h.main]

/-- The device has no say in a step of the others. -/
lemma SameHost.trioStep (h : SameHost x y) (a : Act) :
    SameHost (trioStep args x a) (trioStep args y a) := by
  cases a with
  | message d beatNow beatConnects =>
    refine ⟨?_, ?_, ?_⟩
    · exact congrArg (fun j => (jointStep args j d).client) h.joint
    · exact congrArg (fun j => (jointStep args j d).mods) h.joint
    · show turn args x.whole.main (turnOf x.client d _ _)
        = turn args y.whole.main (turnOf y.client d _ _)
      rw [h.main, h.client]
  | deliver n => exact ⟨h.client, h.mods, h.main⟩
  | event => exact ⟨h.client, h.mods, h.main⟩

/-- So the hypotheses on a run are about the others only. -/
lemma SameHost.actInTime (h : SameHost x y) {a : Act} (ha : ActInTime args x a) :
    ActInTime args y a := by
  cases a with
  | message d _ _ =>
    show InTime args y.joint d
    rw [← h.joint]
    exact ha
  | deliver _ => trivial
  | event => trivial

/-- There is a run without the guest that leaves the others as they are. -/
def Shadowed (args : Args) (beat₀ : ℤ) (hid : HIDState (ControlState σ))
    (x : Trio (ControlState σ)) : Prop :=
  ∃ y, SameHost x y ∧ TrioInv args beat₀ hid y

/-- **Step lemma.** -/
lemma shadowed_step (h : Shadowed args beat₀ hid x) {d : Deed} (htime : DeedInTime args x d) :
    Shadowed args beat₀ hid (deedStep core args x d) := by
  rcases h with ⟨y, hsame, hinv⟩
  cases d with
  | act a => exact ⟨_, hsame.trioStep a, trioInv_step hinv (hsame.actInTime htime)⟩
  | guest g => exact ⟨y, ⟨hsame.client, hsame.mods, hsame.main⟩, hinv⟩

lemma shadowed_snapshotAfter (ms : List Moment) (h : List KeyEdge) (a : SnapshotArgs)
    (now : UInt64) (ord : IterOrder UInt8) :
    Shadowed args beat₀ hid (snapshotAfter core args beat₀ hid ms h a now ord) := by
  have hsame : SameHost
      { client := pressedSet h, mods := 0, whole := guestRun core args beat₀ hid ms }
      { client := pressedSet h, mods := 0, whole := wholeRun args beat₀ hid (hostSide ms) } :=
    ⟨rfl, rfl, (guestRun_host core args beat₀ hid ms).1⟩
  exact ⟨_, hsame.trioStep _, trioInv_afterSnapshot (hostSide ms) h a now ord⟩

/-! ## Moments -/

/-- A step of the four is one moment of the other three, and a reset only if it is one. -/
lemma moment_of_deed (core : UsbCore (ControlState σ)) (args : Args)
    (x : Trio (ControlState σ)) (d : Deed) :
    ∃ m, (deedStep core args x d).whole = guestStep core args x.whole m
      ∧ (m = .guest .reset → d = .guest .reset) := by
  cases d with
  | act a =>
    cases a with
    | message d beatNow beatConnects => exact ⟨.host (.turn (turnOf x.client d _ _)), rfl, nofun⟩
    | deliver n => exact ⟨.host (.deliver n), rfl, nofun⟩
    | event => exact ⟨.host .event, rfl, nofun⟩
  | guest g => exact ⟨.guest g, rfl, fun h => congrArg Deed.guest (Moment.guest.inj h)⟩

/-- **Run lemma.** The device gets what some moments bring, among them no other reset. -/
lemma fed_deeds (args : Args) {us₀ : USBHIDState (ControlState σ)} {ins : List UsbInput}
    (h : Fed core us₀ ins x.whole) (deeds : List Deed) :
    ∃ more, Fed core us₀ (ins ++ more) (deeds.foldl (deedStep core args) x).whole
      ∧ (.guest .reset ∉ deeds → ∀ i ∈ more, i ≠ .reset) := by
  suffices hms : ∃ ms : List Moment, (deeds.foldl (deedStep core args) x).whole
      = ms.foldl (guestStep core args) x.whole ∧ (.guest .reset ∉ deeds → .guest .reset ∉ ms) by
    rcases hms with ⟨ms, hms, hreset⟩
    rcases fed_run args h ms with ⟨more, hfed, hmore⟩
    exact ⟨more, by rwa [hms], fun hdeeds => hmore (hreset hdeeds)⟩
  clear h
  induction deeds generalizing x with
  | nil => exact ⟨[], rfl, fun _ => List.not_mem_nil⟩
  | cons d deeds ih =>
    rcases moment_of_deed core args x d with ⟨m, hm, hd⟩
    rcases @ih (deedStep core args x d) with ⟨ms, hms, hreset⟩
    refine ⟨m :: ms, by rw [List.foldl_cons, List.foldl_cons, hms, hm], fun hdeeds hmem => ?_⟩
    rcases List.mem_cons.mp hmem with hmem | hmem
    · exact hdeeds (List.mem_cons.mpr (Or.inl (hd hmem.symm).symm))
    · exact hreset (fun hin => hdeeds (List.mem_cons_of_mem _ hin)) hmem

/-! ## What the guest reads -/

/-- The last report on the wire is the one of an accepted state that shows what is held. -/
lemma getLast?_blocks_wire {hs : List Happening} {s : KeyState}
    (h : UpToDate (acceptedIn args beat₀ hid hs) s) :
    ∃ rep, (Blocks.blocks 8 (wire (wholeRun args beat₀ hid hs).main.hid)).getLast? = some rep
      ∧ bootReport rep = (heldKeys s).report := by
  rcases h with ⟨s', hs', hheld⟩
  refine ⟨(reportOf s').bytes.toList, ?_, ?_⟩
  · have hblocks := blocks_wire args beat₀ hid hs
      (wire (wholeRun args beat₀ hid hs).main.hid).length
    rw [List.take_length, length_wire, Nat.mul_div_cancel_left _ (by decide), List.take_length]
      at hblocks
    rw [hblocks, List.getLast?_map, Option.mem_def.mp hs']
    rfl
  · rw [bootReport_reportOf, hheld]

/-- **The register shows the client**, once everything has arrived and a report has since a
moment after the last reset. -/
lemma shows_of_shadowed (hcore : Documented core) (hus : Realized ({ hid } : USBHIDState _))
    (hkbd : hid.kbd = {}) {x₁ : Trio (ControlState σ)} {ins more : List UsbInput}
    (h₁ : Fed core { hid } ins x₁.whole) (h : Fed core { hid } (ins ++ more) x.whole)
    (hmore : ∀ i ∈ more, i ≠ .reset) (hshadowed : Shadowed args beat₀ hid x)
    (hnew : x₁.whole.dev.applied.length < x.whole.dev.applied.length)
    (hall : AllDelivered x.whole) :
    ∃ v : View, Shows v x.whole.dev.hid
      ∧ bootReport v.report = (heldKeys x.whole.main.keys).report := by
  have hsim₁ := simulates_run hcore hus hkbd ins
  have hsim := simulates_run hcore hus hkbd (ins ++ more)
  rw [← h₁.dev] at hsim₁
  rw [← h.dev] at hsim
  refine ⟨viewAfter core (ins ++ more), hsim.shows_, ?_⟩
  rcases hshadowed with ⟨y, hsame, hinv⟩
  rcases hinv.upToDate with ⟨hs, hwhole, hup⟩
  rw [← hsame.main] at hup
  rcases getLast?_blocks_wire hup with ⟨rep, hrep, hreport⟩
  have hwire : socketBytes (ins ++ more) = wire (wholeRun args beat₀ hid hs).main.hid := by
    rw [h.bytes, hall, List.take_length, hsame.main, hwhole]
  have hlt : (Blocks.blocks 8 (socketBytes ins)).length
      < (Blocks.blocks 8 (socketBytes (ins ++ more))).length := by
    rw [← hsim₁.received.applied, ← hsim.received.applied]
    exact hnew
  rw [report_viewAfter ins hmore, List.getLast?_drop, if_neg (not_le.mpr hlt), hwire, hrep]
  exact hreport

end Steps

/-- **The guest reads the client's keys.** After a snapshot that the daemon processes and whose
report gets through, on top of anything, while edges come in order and in time, sends succeed
and the watchdog releases nothing, and whatever the guest does in between: whenever all bytes
sent so far were handed on and a report has been applied since the last reset, the device
answers the request for its report, and a poll unless with a NAK, with the report of the
client's keys (six of them, if there are more) and the modifiers of its latest snapshot. -/
theorem guestReadsClient {core : UsbCore (ControlState σ)} (hcore : Documented core) {args : Args}
    {beat₀ : ℤ} {hid : HIDState (ControlState σ)} (hus : Realized ({ hid } : USBHIDState _))
    (hkbd : hid.kbd = {}) {ms : List Moment} {h : List KeyEdge} {a : SnapshotArgs} {now : UInt64}
    {ord : IterOrder UInt8} {before after : List Deed}
    (htime : Along (deedStep core args) (DeedInTime args)
      (snapshotAfter core args beat₀ hid ms h a now ord) (before ++ after))
    (hreset : .guest .reset ∉ after) :
    let x₁ := before.foldl (deedStep core args) (snapshotAfter core args beat₀ hid ms h a now ord)
    let x := after.foldl (deedStep core args) x₁
    x₁.whole.dev.applied.length < x.whole.dev.applied.length → AllDelivered x.whole →
      ∃ (keys : List ℤ) (k : HeldKeys), keys.Perm x.client.toList
        ∧ k.usages.map usageInt = keys.take 6 ∧ k.modifiers = x.mods.toUInt8
        ∧ (∀ c, c.reads core = true → 8 ≤ c.length →
          (usbHidHandleControl core x.whole.dev c).2 = .data k.report)
        ∧ ∀ p, p.polls = true → 8 ≤ p.size →
          (usbHidHandleData core.toHidCore x.whole.dev p).2 = .nak
            ∨ (usbHidHandleData core.toHidCore x.whole.dev p).2 = .data k.report := by
  intro x₁ x hnew hall
  have hstart : Fed core { hid } [] { main := { lastBeat := beat₀ }, dev := { hid } } :=
    ⟨rfl, rfl, Nat.zero_le _⟩
  rcases fed_run args hstart ms with ⟨ins₀, hfed₀, -⟩
  have hsnap : Fed core { hid } (ins₀ ++ [])
      (snapshotAfter core args beat₀ hid ms h a now ord).whole :=
    fed_step args hfed₀ (.host (.turn _))
  rcases fed_deeds args hsnap before with ⟨more₁, hfed₁, -⟩
  rcases fed_deeds args hfed₁ after with ⟨more, hfed, hmore⟩
  have hshadowed : Shadowed args beat₀ hid x := by
    have hrun := Along.invariant (I := Shadowed args beat₀ hid)
      (fun _ _ hx hd => shadowed_step hx hd) (shadowed_snapshotAfter ms h a now ord) htime
    rwa [List.foldl_append] at hrun
  have hsimulates : Client.Simulates x.joint := by
    rcases hshadowed with ⟨y, hsame, hinv⟩
    rw [hsame.joint]
    exact hinv.simulates
  rcases shows_of_shadowed hcore hus hkbd hfed₁ hfed (hmore hreset) hshadowed hnew hall with
    ⟨v, hshows, hreport⟩
  refine ⟨_, heldKeys x.whole.main.keys, perm_client hsimulates, ?_, hsimulates.modifiers,
    fun c hreads hlen => ?_, fun p hpolls hsize => ?_⟩
  · rw [usages_heldKeys hsimulates, List.map_take]
    rfl
  · rw [(control_spec_of_reads hcore hshows hreads).2 hlen, hreport]
  · rw [(packet_spec hcore hshows p).2 hpolls hsize, hreport]
    cases v.due with
    | false => exact Or.inl rfl
    | true => exact Or.inr rfl

/-- The bytes of a snapshot of key `b` arrive, and the guest resets the bus. -/
def snapshotThenReset : List Deed := [.act (.deliver 16), .guest .reset]

/-- It asks for the report, `c` is pressed, and the bytes for that arrive. -/
def askThenPressC : List Deed :=
  [.guest (.control getReport), .act (.message (.edge downC 4 5 (IterOrder.front UInt8)) 0 false),
    .act (.deliver 8)]

/-- The guest gets `c` and `b`. -/
theorem guestReadsClient_askThenPressC :
    let start := snapshotAfter lampless {} 0
      { kind := .keyboard, rest := { protocol := 1, idle := 0, rest := () } }
      (untilReset ++ afterReset) [downB] {} 3 (IterOrder.front UInt8)
    let x := askThenPressC.foldl (deedStep lampless {})
      (snapshotThenReset.foldl (deedStep lampless {}) start)
    ∃ (keys : List ℤ) (k : HeldKeys), keys.Perm [6, 5] ∧ k.usages.map usageInt = keys.take 6
      ∧ (usbHidHandleControl lampless x.whole.dev getReport).2 = .data k.report := by
  intro start x
  have h := @guestReadsClient Unit lampless documented_lampless {} 0
    { kind := .keyboard, rest := { protocol := 1, idle := 0, rest := () } }
    ⟨rfl, rfl, rfl, rfl, rfl⟩ rfl (untilReset ++ afterReset) [downB] {} 3 (IterOrder.front UInt8)
    snapshotThenReset askThenPressC ⟨trivial, trivial, trivial, ?_, trivial, trivial⟩
    (by simp [askThenPressC]) (by decide +kernel) (by unfold AllDelivered; decide +kernel)
  · rcases h with ⟨keys, k, hperm, husages, -, hcontrol, -⟩
    exact ⟨keys, k, hperm, husages, hcontrol getReport (by decide) (by decide)⟩
  · show WithinDeadline _ _ _
    decide +kernel

end QuicKeys.Link
