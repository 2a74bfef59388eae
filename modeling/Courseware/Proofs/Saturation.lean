import Courseware.Timestamp
import Mathlib.Algebra.Ring.Int.Defs
import Mathlib.Algebra.Ring.Nat

/-!
# How far spans lead

A timestamp moved by a span stays between the earliest one and the latest one. Spans of less than
2 ^ 63 milliseconds lead as far as they are long, or to the end of the range, and they are the only
ones that do so from everywhere (`span_saturates_iff`). The milliseconds of a longer span are cut
down to 64 bits with sign first. It leads less far for that, or even the other way: adding the
longest span that 64 bits of milliseconds can tell goes back by one millisecond
(`mostMillis_leads_back`). What holds of all spans is that they keep timestamps in order.
-/

namespace Courseware

variable {t u : Timestamp} {d e : Duration}

/-! ### Milliseconds cut down to 64 bits -/

namespace Duration

theorem toInt_wrappedMillis (d : Duration) :
    d.wrappedMillis.toInt = (d.millis : Int).bmod (2 ^ 64) :=
  Int64.toInt_ofNat

theorem toInt_wrappedMillis_of_lt (h : d.millis < 2 ^ 63) : d.wrappedMillis.toInt = d.millis := by
  rw [toInt_wrappedMillis]
  exact Int.bmod_eq_of_le (by omega) (by omega)

theorem toInt_wrappedMillis_le (hle : d.millis ≤ e.millis) (he : e.millis < 2 ^ 63) :
    d.wrappedMillis.toInt ≤ e.wrappedMillis.toInt := by
  rw [toInt_wrappedMillis_of_lt (by omega), toInt_wrappedMillis_of_lt he]
  omega

/-- A span that is too long is cut by one round of 64 bits at least. -/
theorem toInt_wrappedMillis_of_le (h : 2 ^ 63 ≤ d.millis) :
    d.wrappedMillis.toInt + 2 ^ 64 ≤ d.millis := by
  rw [toInt_wrappedMillis, Int.bmod_def]
  split <;> omega

theorem toInt_wrappedMillis_nonneg_iff :
    0 ≤ d.wrappedMillis.toInt ↔ d.millis % 2 ^ 64 < 2 ^ 63 := by
  rw [toInt_wrappedMillis, Int.bmod_def]
  split <;> omega

end Duration

/-! ### The range of timestamps -/

namespace Timestamp

theorem toInt_earliest : earliest.toInt = -2 ^ 63 := rfl

theorem toInt_latest : latest.toInt = 2 ^ 63 - 1 := rfl

theorem toInt_ofInt {n : Int} (hlow : earliest.toInt ≤ n) (hhigh : n ≤ latest.toInt) :
    (ofInt n).toInt = n := by
  rw [toInt_earliest] at hlow
  rw [toInt_latest] at hhigh
  exact Int64.toInt_ofInt_of_le hlow (by omega)

end Timestamp

theorem toInt_saturate (n : Int) :
    (Timestamp.saturate n).toInt =
      max Timestamp.earliest.toInt (min n Timestamp.latest.toInt) := by
  have hrange := Timestamp.toInt_earliest_le .latest
  change (if n < Timestamp.earliest.toInt then Timestamp.earliest
    else if Timestamp.latest.toInt < n then Timestamp.latest else Timestamp.ofInt n).toInt = _
  split
  · omega
  · split
    · omega
    · rw [Timestamp.toInt_ofInt (by omega) (by omega)]
      omega

theorem saturate_le_saturate {m n : Int} (h : m ≤ n) :
    Timestamp.saturate m ≤ Timestamp.saturate n := by
  rw [Timestamp.le_iff_toInt_le, toInt_saturate, toInt_saturate]
  omega

theorem toInt_add_span (t : Timestamp) (d : Duration) :
    (t + d).toInt = max Timestamp.earliest.toInt
      (min (t.toInt + d.wrappedMillis.toInt) Timestamp.latest.toInt) :=
  toInt_saturate _

theorem toInt_sub_span (t : Timestamp) (d : Duration) :
    (t - d).toInt = max Timestamp.earliest.toInt
      (min (t.toInt - d.wrappedMillis.toInt) Timestamp.latest.toInt) :=
  toInt_saturate _

/-! ### How far -/

theorem toInt_add_span_of_lt (h : d.millis < 2 ^ 63) (t : Timestamp) :
    (t + d).toInt = min (t.toInt + d.millis) Timestamp.latest.toInt := by
  have hlow := t.toInt_earliest_le
  have hrange := Timestamp.toInt_earliest_le .latest
  rw [toInt_add_span, Duration.toInt_wrappedMillis_of_lt h]
  omega

theorem toInt_sub_span_of_lt (h : d.millis < 2 ^ 63) (t : Timestamp) :
    (t - d).toInt = max (t.toInt - d.millis) Timestamp.earliest.toInt := by
  have hhigh := t.toInt_le_latest
  rw [toInt_sub_span, Duration.toInt_wrappedMillis_of_lt h]
  omega

theorem toInt_add_span_iff :
    (∀ t : Timestamp, (t + d).toInt = min (t.toInt + d.millis) Timestamp.latest.toInt) ↔
      d.millis < 2 ^ 63 := by
  refine ⟨fun hexact => Nat.lt_of_not_le fun hlong => ?_, toInt_add_span_of_lt⟩
  have hcut := Duration.toInt_wrappedMillis_of_le hlong
  have hbound := Int64.toInt_lt d.wrappedMillis
  -- From the earliest timestamp there is the whole range to go, so that what is cut shows.
  have hfirst := hexact .earliest
  rw [toInt_add_span, Timestamp.toInt_earliest, Timestamp.toInt_latest] at hfirst
  omega

theorem toInt_sub_span_iff :
    (∀ t : Timestamp, (t - d).toInt = max (t.toInt - d.millis) Timestamp.earliest.toInt) ↔
      d.millis < 2 ^ 63 := by
  refine ⟨fun hexact => Nat.lt_of_not_le fun hlong => ?_, toInt_sub_span_of_lt⟩
  have hcut := Duration.toInt_wrappedMillis_of_le hlong
  have hbound := Int64.toInt_lt d.wrappedMillis
  have hlast := hexact .latest
  rw [toInt_sub_span, Timestamp.toInt_earliest, Timestamp.toInt_latest] at hlast
  omega

/-! ### Which way -/

/-- A span leads forward if its milliseconds do not turn negative when they are cut. -/
theorem le_add_span_iff : t ≤ t + d ↔ t = .earliest ∨ d.millis % 2 ^ 64 < 2 ^ 63 := by
  have hlow := t.toInt_earliest_le
  have hhigh := t.toInt_le_latest
  rw [Timestamp.le_iff_toInt_le, toInt_add_span, ← Timestamp.toInt_inj,
    ← Duration.toInt_wrappedMillis_nonneg_iff]
  omega

theorem sub_span_le_iff : t - d ≤ t ↔ t = .latest ∨ d.millis % 2 ^ 64 < 2 ^ 63 := by
  have hlow := t.toInt_earliest_le
  have hhigh := t.toInt_le_latest
  rw [Timestamp.le_iff_toInt_le, toInt_sub_span, ← Timestamp.toInt_inj,
    ← Duration.toInt_wrappedMillis_nonneg_iff]
  omega

theorem forall_le_add_span_iff :
    (∀ t : Timestamp, t ≤ t + d) ↔ d.millis % 2 ^ 64 < 2 ^ 63 :=
  ⟨fun h => (le_add_span_iff.1 (h .latest)).resolve_left (by decide),
    fun h _ => le_add_span_iff.2 (.inr h)⟩

theorem forall_sub_span_le_iff :
    (∀ t : Timestamp, t - d ≤ t) ↔ d.millis % 2 ^ 64 < 2 ^ 63 :=
  ⟨fun h => (sub_span_le_iff.1 (h .earliest)).resolve_left (by decide),
    fun h _ => sub_span_le_iff.2 (.inr h)⟩

theorem latest_add_span_iff :
    Timestamp.latest + d = .latest ↔ d.millis % 2 ^ 64 < 2 ^ 63 := by
  have hhigh := (Timestamp.latest + d).toInt_le_latest
  have hforth : Timestamp.latest + d = .latest ↔ Timestamp.latest ≤ Timestamp.latest + d := by
    rw [← Timestamp.toInt_inj, Timestamp.le_iff_toInt_le]
    omega
  rw [hforth, le_add_span_iff]
  exact or_iff_right (by decide)

/-! ### Order -/

theorem add_span_le_add_span (h : t ≤ u) (d : Duration) : t + d ≤ u + d :=
  saturate_le_saturate (Int.add_le_add_right (Timestamp.le_iff_toInt_le.1 h) _)

theorem sub_span_le_sub_span (h : t ≤ u) (d : Duration) : t - d ≤ u - d :=
  saturate_le_saturate (Int.sub_le_sub_right (Timestamp.le_iff_toInt_le.1 h) _)

/-- Of two spans that are not too long the longer one leads further. -/
theorem add_span_le_of_millis_le (hle : d.millis ≤ e.millis) (he : e.millis < 2 ^ 63)
    (t : Timestamp) : t + d ≤ t + e :=
  saturate_le_saturate (Int.add_le_add_left (Duration.toInt_wrappedMillis_le hle he) _)

theorem sub_span_le_of_millis_le (hle : d.millis ≤ e.millis) (he : e.millis < 2 ^ 63)
    (t : Timestamp) : t - e ≤ t - d :=
  saturate_le_saturate (Int.sub_le_sub_left (Duration.toInt_wrappedMillis_le hle he) _)

/-- Among the spans up to a given one the longer ones lead further, unless it is too long. Then
2 ^ 63 milliseconds are among them, which are cut to the lowest number there is. -/
theorem add_span_mono_iff :
    (∀ e f : Duration, e.millis ≤ f.millis → f.millis ≤ d.millis →
      ∀ t : Timestamp, t + e ≤ t + f) ↔ d.millis < 2 ^ 63 := by
  refine ⟨fun hmono => Nat.lt_of_not_le fun hlong => ?_, fun hd _ _ hle hf =>
    add_span_le_of_millis_le hle (Nat.lt_of_le_of_lt hf hd)⟩
  have hzero := hmono .zero (.ofMillis (2 ^ 63)) (Nat.zero_le _)
    (by rwa [Duration.millis_ofMillis]) .zero
  exact absurd hzero (by decide)

theorem sub_span_anti_iff :
    (∀ e f : Duration, e.millis ≤ f.millis → f.millis ≤ d.millis →
      ∀ t : Timestamp, t - f ≤ t - e) ↔ d.millis < 2 ^ 63 := by
  refine ⟨fun hanti => Nat.lt_of_not_le fun hlong => ?_, fun hd _ _ hle hf =>
    sub_span_le_of_millis_le hle (Nat.lt_of_le_of_lt hf hd)⟩
  have hzero := hanti .zero (.ofMillis (2 ^ 63)) (Nat.zero_le _)
    (by rwa [Duration.millis_ofMillis]) .zero
  exact absurd hzero (by decide)

/-! ### All of it -/

/-- Spans of less than 2 ^ 63 milliseconds, and no others, lead from everywhere as far as they are
long or to the end of the range, and the further the longer they are. Longer ones still lead forward
when added and back when subtracted if less than 2 ^ 63 milliseconds are left of them after whole
rounds of 64 bits. No span puts timestamps out of order. -/
theorem span_saturates_iff (d : Duration) :
    ((∀ t : Timestamp, (t + d).toInt = min (t.toInt + d.millis) Timestamp.latest.toInt) ↔
      d.millis < 2 ^ 63) ∧
    ((∀ t : Timestamp, (t - d).toInt = max (t.toInt - d.millis) Timestamp.earliest.toInt) ↔
      d.millis < 2 ^ 63) ∧
    ((∀ e f : Duration, e.millis ≤ f.millis → f.millis ≤ d.millis →
      ∀ t : Timestamp, t + e ≤ t + f) ↔ d.millis < 2 ^ 63) ∧
    ((∀ e f : Duration, e.millis ≤ f.millis → f.millis ≤ d.millis →
      ∀ t : Timestamp, t - f ≤ t - e) ↔ d.millis < 2 ^ 63) ∧
    ((∀ t : Timestamp, t ≤ t + d) ↔ d.millis % 2 ^ 64 < 2 ^ 63) ∧
    ((∀ t : Timestamp, t - d ≤ t) ↔ d.millis % 2 ^ 64 < 2 ^ 63) ∧
    (Timestamp.latest + d = .latest ↔ d.millis % 2 ^ 64 < 2 ^ 63) ∧
    ∀ t u : Timestamp, t ≤ u → t + d ≤ u + d ∧ t - d ≤ u - d :=
  ⟨toInt_add_span_iff, toInt_sub_span_iff, add_span_mono_iff, sub_span_anti_iff,
    forall_le_add_span_iff, forall_sub_span_le_iff, latest_add_span_iff,
    fun _ _ h => ⟨add_span_le_add_span h d, sub_span_le_sub_span h d⟩⟩

/-- The longest span that 64 bits of milliseconds can tell. -/
def Duration.mostMillis : Duration := .ofMillis (2 ^ 64 - 1)

/-- Adding it goes back by one millisecond and subtracting it forward by one, where the end of the
range should be reached. -/
theorem mostMillis_leads_back :
    (Timestamp.ofInt 1000 + Duration.mostMillis).toInt = 999 ∧
      (Timestamp.ofInt 1000 + Duration.mostMillis).toInt ≠
        min ((Timestamp.ofInt 1000).toInt + Duration.mostMillis.millis) Timestamp.latest.toInt ∧
      (Timestamp.ofInt 1000 - Duration.mostMillis).toInt = 1001 ∧
      (Timestamp.ofInt 1000 - Duration.mostMillis).toInt ≠
        max ((Timestamp.ofInt 1000).toInt - Duration.mostMillis.millis) Timestamp.earliest.toInt ∧
      ¬ Timestamp.ofInt 1000 ≤ Timestamp.ofInt 1000 + Duration.mostMillis ∧
      ¬ Timestamp.ofInt 1000 - Duration.mostMillis ≤ Timestamp.ofInt 1000 ∧
      ¬ Timestamp.ofInt 1000 + Duration.zero ≤ Timestamp.ofInt 1000 + Duration.mostMillis ∧
      ¬ Timestamp.ofInt 1000 - Duration.mostMillis ≤ Timestamp.ofInt 1000 - Duration.zero ∧
      Timestamp.latest + Duration.mostMillis ≠ .latest := by
  decide

end Courseware
