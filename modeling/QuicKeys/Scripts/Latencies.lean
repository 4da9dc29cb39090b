import QuicKeys.Scripts.LogLines

/-!
# Latencies through the log

What `parse_log` makes of the lines with one latency. The ages are whole numbers of
nanoseconds, printed in milliseconds.
-/

namespace QuicKeys.Scripts

open Ascii Daemon

/-! ## The ages -/

/-- One value was read, and it is off by at most `5 · 10⁻⁶` of the latency. -/
def Survives (ns : UInt64) (values : List ℚ) : Prop :=
  ∃ v, values = [v] ∧ |v - nsToMs ns| ≤ 5 / 10 ^ 6 * nsToMs ns

/-- The ages that are printed without an exponent. -/
def InFixedNotation (ns : UInt64) : Prop :=
  ns = 0 ∨ 100 ≤ ns.toNat ∧ ns.toNat < 999999500000

lemma nsToMs_eq_zero {ns : UInt64} : nsToMs ns = 0 ↔ ns = 0 := by
  rw [nsToMs, div_eq_zero_iff, or_iff_left (by norm_num), Nat.cast_eq_zero, ← UInt64.toNat_zero,
    UInt64.toNat_inj]

/-- From 100 ns on and below 1000 s. -/
lemma inFixedRange_nsToMs {ns : UInt64} : InFixedRange (nsToMs ns) ↔ InFixedNotation ns := by
  have hlow : (0.00009999995 : ℚ) ≤ nsToMs ns ↔ 100 ≤ ns.toNat := by
    rw [nsToMs, le_div_iff₀ (by norm_num)]
    constructor
    · intro h
      have : (99 : ℚ) < ns.toNat := lt_of_lt_of_le (by norm_num) h
      exact_mod_cast this
    · intro h
      have : (100 : ℚ) ≤ ns.toNat := by exact_mod_cast h
      exact le_trans (by norm_num) this
  have hhigh : nsToMs ns < 999999.5 ↔ ns.toNat < 999999500000 := by
    rw [nsToMs, div_lt_iff₀ (by norm_num)]
    norm_num
  rw [InFixedRange, InFixedNotation, nsToMs_eq_zero, hlow, hhigh]

/-! ## Reading the lines -/

section Reading

variable {ns : UInt64}

lemma survives_singleton_iff {v : ℚ} :
    Survives ns [v] ↔ |v - nsToMs ns| ≤ 5 / 10 ^ 6 * nsToMs ns := by
  constructor
  · rintro ⟨v', hv, herror⟩
    rwa [List.singleton_inj.mp hv]
  · exact fun herror => ⟨v, rfl, herror⟩

/-- A value that was read. -/
lemma survives_toList_iff {o : Option ℚ} {v : ℚ} (ho : o = some v)
    (herror : |v - nsToMs ns| ≤ 5 / 10 ^ 6 * nsToMs ns ↔ InFixedRange (nsToMs ns)) :
    Survives ns o.toList ↔ InFixedNotation ns := by
  rw [ho, Option.toList_some, survives_singleton_iff, herror, inFixedRange_nsToMs]

/-- A `[lat]` line, whatever follows the latency. -/
lemma survives_lats_iff {l : LogLine} {rest : List Char} (hage : 0 ≤ LogLine.age l)
    (hcopied : ∀ bs ∈ LogLine.copied l, OneLine bs)
    (hline : LogLine.tag l ++ LogLine.fields l = ['[', 'l', 'a', 't', ']'] ++ ([' '] ++
      (['d', 't', '_', 'm', 's', '='] ++ (double (nsToMs ns) ++ rest))))
    (hrest : ∀ c ∈ rest.head?, isNumeric c = false) :
    Survives ns (parseLog l.text).lats ↔ InFixedNotation ns := by
  rcases groupValue_lat (nsToMs_nonneg ns) hrest with ⟨v, hv, herror⟩
  rw [parseLog_text hage hcopied, lats_parseLine, hline]
  exact survives_toList_iff hv herror

/-- A `[heal]` line. -/
lemma survives_heals_iff (ns : UInt64) (key : UInt8) :
    Survives ns (parseLog (LogLine.heal key (nsToMs ns)).text).heals ↔ InFixedNotation ns := by
  have hkeyed := @search_keyed ['h', 'e', 'a', 'l', '_', 'm', 's', '='] (nsToMs ns) (by simp)
    (by rintro _ ⟨⟩; decide) key (nsToMs_nonneg ns) ['[', 'h', 'e', 'a', 'l', ']']
  rcases hkeyed with ⟨m, d, hsearch, herror⟩
  rw [@parseLog_text (.heal key (nsToMs ns)) (nsToMs_nonneg ns)
    (fun _ h => absurd h List.not_mem_nil), heals_parseLine]
  exact survives_toList_iff (groupValue_of_search hsearch rfl) herror

end Reading

/-! ## When a latency survives -/

/-- **A logged latency survives if it is printed without an exponent.** On a line of any
kind, `parse_log` appends exactly one value within the error bound if and only if the age
is zero, or at least 100 ns and below 999.9995 s. -/
theorem survives_iff (ns : UInt64) :
    (∀ cmd key, OneLine cmd → OneLine key →
        (Survives ns (parseLog (LogLine.lat (nsToMs ns) cmd key).text).lats
          ↔ InFixedNotation ns))
      ∧ (∀ seq usage, Survives ns (parseLog (LogLine.latQuicEdge (nsToMs ns) seq usage).text).lats
          ↔ InFixedNotation ns)
      ∧ ∀ key, Survives ns (parseLog (LogLine.heal key (nsToMs ns)).text).heals
          ↔ InFixedNotation ns := by
  refine ⟨fun cmd key hcmd hkey => ?_, fun seq usage => ?_, survives_heals_iff ns⟩
  · have hcopied : ∀ bs ∈ [cmd, key], OneLine bs :=
      List.forall_mem_cons.mpr ⟨hcmd, List.forall_mem_singleton.mpr hkey⟩
    exact survives_lats_iff (nsToMs_nonneg ns) hcopied rfl (by rintro _ ⟨⟩; decide)
  · exact survives_lats_iff (nsToMs_nonneg ns) (fun _ h => absurd h List.not_mem_nil) rfl
      (by rintro _ ⟨⟩; decide)

theorem survives_iff_down_a :
    Survives 50188161 (parseLog
        (LogLine.lat (nsToMs 50188161) (ascii ['d', 'o', 'w', 'n']) (ascii ['a'])).text).lats
      ↔ InFixedNotation 50188161 :=
  (survives_iff 50188161).1 _ _ (plain_of_all (by decide)).oneLine
    (plain_of_all (by decide)).oneLine

/-- 20 minutes are printed as `1.2e+06` and read as 1.2 ms. -/
theorem not_survives_twentyMinutes :
    (parseLog (LogLine.heal 0x04 (nsToMs 1200000000000)).text).heals = [6 / 5]
      ∧ ¬Survives 1200000000000 (parseLog (LogLine.heal 0x04 (nsToMs 1200000000000)).text).heals
      ∧ ¬Survives 1200000000000 (parseLog (LogLine.lat (nsToMs 1200000000000)
        (ascii ['d', 'o', 'w', 'n']) (ascii ['a'])).text).lats := by
  have hheal : (parseLog (LogLine.heal 0x04 (nsToMs 1200000000000)).text).heals = [6 / 5] := by
    decide +kernel
  have hlat : (parseLog (LogLine.lat (nsToMs 1200000000000) (ascii ['d', 'o', 'w', 'n'])
      (ascii ['a'])).text).lats = [6 / 5] := by
    decide +kernel
  have hfar : ¬|(6 / 5 : ℚ) - nsToMs 1200000000000| ≤ 5 / 10 ^ 6 * nsToMs 1200000000000 := by
    decide +kernel
  refine ⟨hheal, ?_, ?_⟩
  · rwa [hheal, survives_singleton_iff]
  · rwa [hlat, survives_singleton_iff]

end QuicKeys.Scripts
