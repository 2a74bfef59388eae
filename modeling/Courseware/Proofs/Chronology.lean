import Courseware.Validity
import Mathlib.Order.MinMax
import Mathlib.Order.WithBot

/-!
# Linear orders of time

Points in time are ordered as the numbers they count. An end that never comes is above every date and
a beginning that always was is below every date: ends are ordered as dates with a top added, and
beginnings as dates with a bottom added. The earlier and the later of two are the minimum and the
maximum in these orders; an end has come at a time that is not before it (`Expiry.isPast_iff`), and a
beginning likewise (`Activation.isActive_iff`).
-/

namespace Courseware

variable {now later : Timestamp}

namespace Timestamp

theorem toInt_injective : Function.Injective toInt := fun _ _ => toInt_inj.1

instance : LinearOrder Timestamp where
  -- of the orders of `ℤ` this is the one that computes
  toPartialOrder := @Function.Injective.partialOrder _ _ Int.instLinearOrder.toPartialOrder _ _
    toInt toInt_injective le_iff_toInt_le.symm lt_iff_toInt_lt.symm
  le_total a b := (le_total a.toInt b.toInt).imp le_iff_toInt_le.2 le_iff_toInt_le.2
  min := min
  max := max
  toDecidableLE := inferInstance
  toDecidableEq := inferInstance
  toDecidableLT := inferInstance

end Timestamp

namespace Expiry

variable {a b : Expiry}

/-- The place of an end among dates and what is after all of them. -/
def rank : Expiry → WithTop Timestamp
  | date t => t
  | never => ⊤

theorem rank_injective : Function.Injective rank := by
  intro a b h
  cases a <;> cases b <;> simp_all [rank]

theorem rank_le_rank : a.rank ≤ b.rank ↔ a ≤ b := by
  cases b with
  | never => exact iff_of_true le_top (le_never a)
  | date b =>
    cases a with
    | never => exact iff_of_false (WithTop.not_top_le_coe b) not_never_le_date
    | date a => exact WithTop.coe_le_coe.trans date_le_date.symm

instance : LT Expiry := ⟨fun a b => a.rank < b.rank⟩

instance : LinearOrder Expiry where
  toPartialOrder := rank_injective.partialOrder rank rank_le_rank Iff.rfl
  le_total a b := (le_total a.rank b.rank).imp rank_le_rank.1 rank_le_rank.1
  min := min
  max := max
  toDecidableLE := inferInstance
  toDecidableEq := inferInstance

theorem date_lt_date {s t : Timestamp} : date s < date t ↔ s < t := WithTop.coe_lt_coe

theorem isPast_iff : a.isPast now = true ↔ a ≤ date now := by
  cases a with
  | date t => exact decide_eq_true_iff.trans date_le_date.symm
  | never => exact iff_of_false Bool.false_ne_true not_never_le_date

theorem isPast_eq_false_iff : a.isPast now = false ↔ date now < a := by
  rw [← Bool.not_eq_true, isPast_iff, not_le]

/-- What ends later has not ended if what ends earlier has not. -/
theorem isPast_mono (hle : a ≤ b) (h : a.isPast now = false) : b.isPast now = false :=
  isPast_eq_false_iff.2 ((isPast_eq_false_iff.1 h).trans_le hle)

theorem isPast_min : (a.min b).isPast now = false ↔ a.isPast now = false ∧ b.isPast now = false := by
  simp only [isPast_eq_false_iff]
  exact lt_min_iff

/-- What has not ended later has not ended before. -/
theorem isPast_eq_false_of_le (hle : now ≤ later) (h : a.isPast later = false) :
    a.isPast now = false :=
  isPast_eq_false_iff.2 ((date_le_date.2 hle).trans_lt (isPast_eq_false_iff.1 h))

end Expiry

namespace Activation

variable {a b : Activation}

/-- The place of a beginning among dates and what is before all of them. -/
def rank : Activation → WithBot Timestamp
  | always => ⊥
  | date t => t

theorem rank_injective : Function.Injective rank := by
  intro a b h
  cases a <;> cases b <;> simp_all [rank]

theorem rank_le_rank : a.rank ≤ b.rank ↔ a ≤ b := by
  cases a with
  | always => exact iff_of_true bot_le (always_le b)
  | date a =>
    cases b with
    | always => exact iff_of_false (WithBot.not_coe_le_bot a) not_date_le_always
    | date b => exact WithBot.coe_le_coe.trans date_le_date.symm

instance : LT Activation := ⟨fun a b => a.rank < b.rank⟩

instance : LinearOrder Activation where
  toPartialOrder := rank_injective.partialOrder rank rank_le_rank Iff.rfl
  le_total a b := (le_total a.rank b.rank).imp rank_le_rank.1 rank_le_rank.1
  toDecidableLE := inferInstance
  toDecidableEq := inferInstance

theorem isActive_iff : a.isActive now = true ↔ a ≤ date now := by
  cases a with
  | always => exact iff_of_true rfl (always_le _)
  | date t => exact decide_eq_true_iff.trans date_le_date.symm

/-- What begins earlier has begun if what begins later has. -/
theorem isActive_mono (hle : a ≤ b) (h : b.isActive now = true) : a.isActive now = true :=
  isActive_iff.2 (hle.trans (isActive_iff.1 h))

/-- What has begun stays begun. -/
theorem isActive_of_le (hle : now ≤ later) (h : a.isActive now = true) :
    a.isActive later = true :=
  isActive_iff.2 ((isActive_iff.1 h).trans (date_le_date.2 hle))

/-- Only what always was has begun at the earliest point in time, unless it is dated then. -/
theorem eq_always_of_isActive (hdated : a ≠ date .earliest) (h : a.isActive .earliest = true) :
    a = always := by
  cases a with
  | always => rfl
  | date t =>
    exact absurd (congrArg date (Timestamp.eq_earliest_of_le (of_decide_eq_true h))) hdated

end Activation

end Courseware
