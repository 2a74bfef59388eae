import Mathlib

/-!
# How far rounding goes

A number is rounded to 53 bits, to the nearest one. So an integer of up to 64 bits is rounded to a
finite number other than 0 (`round_normal`); and a sum never leaves the finite numbers however many
terms of up to 2 ^ 73 it has: once it is as large as 2 ^ 128, such a term is rounded away
(`within_add`).
-/

namespace Courseware

open Float.Model Float.Model.UnpackedFloat

/-! ### Shifting and rounding -/

theorem targetExponent_binary64 (e : Int) :
    Format.binary64.targetExponent e = max (e - 53) (-1074) :=
  rfl

theorem mantissa_shiftRight (em : ExtendedMantissa) (k : Nat) :
    (em >>> k).mantissa = em.mantissa / 2 ^ k := by
  induction k with
  | zero => simp [HShiftRight.hShiftRight, Nat.repeat]
  | succ k ih =>
    change (em >>> k).mantissa / 2 = _
    rw [ih, Nat.div_div_eq_div_mul, Nat.pow_succ]

theorem mantissa_ofMantissaAndAccuracy (m : Nat) (accuracy : Accuracy) :
    (ExtendedMantissa.ofMantissaAndAccuracy m accuracy).mantissa = m := by
  cases accuracy with
  | exact => rfl
  | inexact side => cases side <;> rfl

theorem roundedMantissa_bounds (em : ExtendedMantissa) :
    em.mantissa ≤ em.roundedMantissa ∧ em.roundedMantissa ≤ em.mantissa + 1 := by
  obtain ⟨m, round, sticky⟩ := em
  cases round <;> cases sticky <;>
    simp only [ExtendedMantissa.roundedMantissa, ExtendedMantissa.accuracy,
      Accuracy.roundToNearestEven] <;> omega

/-- A zero, or a finite number with at most 53 bits and an exponent up to `k`. -/
def Within (k : Int) : UnpackedFloat → Prop
  | .zero _ => True
  | .finite _ m e _ => m < 2 ^ 53 ∧ e ≤ k
  | .infinity _ | .notANumber => False

theorem Within.mono {k l : Int} (hle : k ≤ l) {x : UnpackedFloat} (h : Within k x) : Within l x := by
  cases x with
  | zero => trivial
  | finite => exact ⟨h.1, Int.le_trans h.2 hle⟩
  | infinity => exact h
  | notANumber => exact h

theorem shifted_mantissa_lt (m : Nat) (e : Int) :
    m / 2 ^ (Format.binary64.targetExponent (totalExponent m e) - e).toNat < 2 ^ 53 := by
  rw [targetExponent_binary64, totalExponent, Nat.div_lt_iff_lt_mul (Nat.two_pow_pos _),
    ← Nat.pow_add]
  refine Nat.lt_of_lt_of_le (Nat.lt_log2_self (n := m)) (Nat.pow_le_pow_right (by decide) ?_)
  omega

/-- What is left to do once the bits that do not fit have been rounded away. -/
def finishRounding (sign : Sign) (m : Nat) (e : Int) : UnpackedFloat :=
  let shifted := shiftToTargetExponent Format.binary64 m e .exact
  if h : shifted.1.mantissa = 0 then .zero sign
  else .finite sign shifted.1.mantissa shifted.2 (Nat.pos_of_ne_zero h)

theorem roundWithAccuracy_eq (sign : Sign) (m : Nat) (e : Int) (accuracy : Accuracy) :
    roundWithAccuracy Format.binary64 sign m e accuracy =
      finishRounding sign (shiftToTargetExponent Format.binary64 m e accuracy).1.roundedMantissa
        (shiftToTargetExponent Format.binary64 m e accuracy).2 :=
  rfl

theorem finishRounding_ne_notANumber (sign : Sign) (m : Nat) (e : Int) :
    finishRounding sign m e ≠ .notANumber := by
  rw [finishRounding]
  split <;> simp

theorem within_finishRounding (sign : Sign) {m : Nat} {e k : Int} (hlow : -1074 ≤ k)
    (hm : m < 2 ^ 53 ∧ e ≤ k ∨ m ≤ 2 ^ 53 ∧ e < k) : Within k (finishRounding sign m e) := by
  have hlt := shifted_mantissa_lt m e
  have hlog : m = 0 ∨ (m.log2 : Int) + e ≤ 52 + k := by
    by_cases hzero : m = 0
    · exact Or.inl hzero
    · right
      rcases hm with ⟨hm, he⟩ | ⟨hm, he⟩
      · have := (Nat.log2_lt (k := 53) hzero).2 hm
        omega
      · have := (Nat.log2_lt (k := 54) hzero).2 (by omega)
        omega
  rw [finishRounding]
  simp only [shiftToTargetExponent, shiftToExponent, mantissa_shiftRight,
    mantissa_ofMantissaAndAccuracy]
  split
  · trivial
  · rename_i hpos
    refine ⟨hlt, ?_⟩
    have hzero : m ≠ 0 := by
      rintro rfl
      simp at hpos
    rw [targetExponent_binary64, totalExponent]
    omega

theorem shiftToTargetExponent_roundedMantissa_le (m : Nat) (e : Int) (accuracy : Accuracy) :
    (shiftToTargetExponent Format.binary64 m e accuracy).1.roundedMantissa ≤ 2 ^ 53 := by
  have hlt := shifted_mantissa_lt m e
  have hle := (roundedMantissa_bounds (shiftToTargetExponent Format.binary64 m e accuracy).1).2
  simp only [shiftToTargetExponent, shiftToExponent, mantissa_shiftRight,
    mantissa_ofMantissaAndAccuracy] at hle ⊢
  omega

theorem within_roundWithAccuracy (sign : Sign) (m : Nat) (e : Int) (accuracy : Accuracy) {k : Int}
    (he : e < k) (hm : m.log2 + e - 52 < k) (hk : -1074 < k) :
    Within k (roundWithAccuracy Format.binary64 sign m e accuracy) := by
  rw [roundWithAccuracy_eq]
  refine within_finishRounding sign (by omega)
    (Or.inr ⟨shiftToTargetExponent_roundedMantissa_le m e accuracy, ?_⟩)
  simp only [shiftToTargetExponent, shiftToExponent]
  rw [targetExponent_binary64, totalExponent]
  omega

/-- The bit after the last is worth half a unit. -/
theorem roundBit_shiftRight {m k : Nat}
    (h : (ExtendedMantissa.ofMantissaAndAccuracy m .exact >>> k).roundBit = true) :
    (2 * (m / 2 ^ k) + 1) * 2 ^ k ≤ 2 * m := by
  cases k with
  | zero =>
    simp [ExtendedMantissa.ofMantissaAndAccuracy, HShiftRight.hShiftRight, Nat.repeat] at h
  | succ k =>
    change ((ExtendedMantissa.ofMantissaAndAccuracy m .exact >>> k).mantissa % 2 != 0) = true at h
    rw [mantissa_shiftRight, mantissa_ofMantissaAndAccuracy, bne_iff_ne] at h
    have hodd : 2 * (m / 2 ^ (k + 1)) + 1 = m / 2 ^ k := by
      rw [Nat.pow_succ, ← Nat.div_div_eq_div_mul]
      omega
    rw [hodd, Nat.pow_succ, ← Nat.mul_assoc, Nat.mul_comm _ 2]
    exact Nat.mul_le_mul_left 2 (Nat.div_mul_le_self m (2 ^ k))

/-- Rounding to the nearest adds half a unit at most. -/
theorem roundedMantissa_le (m k : Nat) :
    (ExtendedMantissa.ofMantissaAndAccuracy m .exact >>> k).roundedMantissa * 2 ^ (k + 1) ≤
      2 * m + 2 ^ k := by
  have hbit := roundBit_shiftRight (m := m) (k := k)
  have hmantissa : (ExtendedMantissa.ofMantissaAndAccuracy m .exact >>> k).mantissa = m / 2 ^ k := by
    rw [mantissa_shiftRight, mantissa_ofMantissaAndAccuracy]
  have hbounds := (roundedMantissa_bounds (ExtendedMantissa.ofMantissaAndAccuracy m .exact >>> k)).2
  generalize ExtendedMantissa.ofMantissaAndAccuracy m .exact >>> k = em at *
  rw [hmantissa] at hbounds
  have hdiv := Nat.div_mul_le_self m (2 ^ k)
  rw [Nat.pow_succ]
  cases hround : em.roundBit with
  | true =>
    have hhalf := hbit hround
    have hle := Nat.mul_le_mul_right (2 ^ k * 2) hbounds
    generalize 2 ^ k = p at *
    nlinarith
  | false =>
    have hdown : em.roundedMantissa = m / 2 ^ k := by
      obtain ⟨mantissa, round, sticky⟩ := em
      obtain rfl : round = false := hround
      rw [← hmantissa]
      cases sticky <;> rfl
    rw [hdown]
    generalize 2 ^ k = p at *
    nlinarith

/-- What lies over by no more than a quarter of the last place is rounded away. -/
theorem within_roundWithAccuracy_of_le (sign : Sign) {m : Nat} {e : Int} (he : e ≤ 73)
    (hm : m ≤ (2 ^ 55 - 3) * 2 ^ (73 - e).toNat) :
    Within 75 (roundWithAccuracy Format.binary64 sign m e .exact) := by
  by_cases hsmall : m.log2 + e - 52 < 75
  · exact within_roundWithAccuracy sign m e .exact (by omega) hsmall (by decide)
  · have hpos : m ≠ 0 := by
      rintro rfl
      simp at hsmall
      omega
    have hlog : (m.log2 : Int) + e = 127 := by
      have hlt : m < 2 ^ (55 + (73 - e).toNat) := by
        rw [Nat.pow_add]
        exact Nat.lt_of_le_of_lt hm (Nat.mul_lt_mul_of_pos_right (by decide) (Nat.two_pow_pos _))
      have := (Nat.log2_lt hpos).2 hlt
      omega
    have hshift : (Format.binary64.targetExponent (totalExponent m e) - e).toNat =
        (73 - e).toNat + 2 := by
      rw [targetExponent_binary64, totalExponent]
      omega
    have hnearest := roundedMantissa_le m ((73 - e).toNat + 2)
    rw [roundWithAccuracy_eq]
    simp only [shiftToTargetExponent, shiftToExponent, hshift]
    generalize ExtendedMantissa.roundedMantissa _ = r at *
    refine within_finishRounding sign (by decide) (Or.inl ⟨?_, by omega⟩)
    rw [Nat.pow_add _ _ 1, Nat.pow_add _ _ 2] at hnearest
    have hp := Nat.two_pow_pos (73 - e).toNat
    generalize 2 ^ (73 - e).toNat = p at *
    by_contra hge
    have hbig := Nat.mul_le_mul_right p (Nat.le_of_not_lt hge)
    have hscale : r * (p * 2 ^ 2 * 2 ^ 1) = 8 * (r * p) := by ring
    omega

theorem within_round_of_le (sign : Sign) {m : Nat} {e : Int} (he : e ≤ 73)
    (hm : m ≤ (2 ^ 55 - 3) * 2 ^ (73 - e).toNat) :
    Within 75 (UnpackedFloat.round Format.binary64 sign m e) := by
  rw [UnpackedFloat.round, decreaseExponent]
  generalize (e - Format.binary64.targetExponent (totalExponent m e)).toNat = shift
  refine within_roundWithAccuracy_of_le sign (by omega) ?_
  rw [Nat.shiftLeft_eq, show (73 - (e - (shift : Int))).toNat = (73 - e).toNat + shift by omega,
    Nat.pow_add, ← Nat.mul_assoc]
  exact Nat.mul_le_mul_right _ hm

/-- A sum of up to 2 ^ 128 does not grow beyond that by a term of up to 2 ^ 73. -/
theorem within_add {x y : UnpackedFloat} (hx : Within 75 x) (hy : Within 20 y) :
    Within 75 (UnpackedFloat.add Format.binary64 x y) := by
  cases x with
  | notANumber => exact hx.elim
  | infinity => exact hx.elim
  | zero sign =>
    cases y with
    | notANumber => exact hy.elim
    | infinity => exact hy.elim
    | zero sign' =>
      rw [UnpackedFloat.add]
      split <;> trivial
    | finite => exact hy.mono (by decide)
  | finite sign m e hpos =>
    cases y with
    | notANumber => exact hy.elim
    | infinity => exact hy.elim
    | zero => exact hx
    | finite sign' m' e' hpos' =>
      obtain ⟨hm, he⟩ := hx
      obtain ⟨hm', he'⟩ := hy
      have hsize : ∀ n : Nat, n ≤ m * 2 ^ (e - min e e').toNat + m' * 2 ^ (e' - min e e').toNat →
          n ≤ (2 ^ 55 - 3) * 2 ^ (73 - min e e').toNat := by
        intro n hn
        have hfirst : m * 2 ^ (e - min e e').toNat ≤
            (2 ^ 53 - 1) * (4 * 2 ^ (73 - min e e').toNat) := by
          refine Nat.mul_le_mul (by omega) ?_
          rw [show (4 : Nat) = 2 ^ 2 by decide, ← Nat.pow_add]
          exact Nat.pow_le_pow_right (by decide) (by omega)
        have hsecond : m' * 2 ^ (e' - min e e').toNat ≤ 2 ^ (73 - min e e').toNat := by
          refine Nat.le_trans (Nat.mul_le_mul_right _ (Nat.le_of_lt hm')) ?_
          rw [← Nat.pow_add]
          exact Nat.pow_le_pow_right (by decide) (by omega)
        omega
      rw [UnpackedFloat.add]
      simp only [decreaseExponent, Nat.shiftLeft_eq]
      generalize m * 2 ^ (e - min e e').toNat = a at *
      generalize m' * 2 ^ (e' - min e e').toNat = b at *
      have hsum : (sign.apply (a : Int) + sign'.apply (b : Int)).natAbs ≤ a + b := by
        cases sign <;> cases sign' <;> simp only [Sign.apply] <;> omega
      generalize sign.apply (a : Int) + sign'.apply (b : Int) = z at *
      rw [UnpackedFloat.normalize]
      split
      · exact within_round_of_le _ (by omega) (hsize _ (by omega))
      · trivial
      · exact within_round_of_le _ (by omega) (hsize _ (by omega))

/-- The product of a score of up to 100 and a 64-bit weight is up to 2 ^ 73. -/
theorem within_mul {x y : UnpackedFloat} (hx : Within (-46) x) (hy : Within 12 y) :
    Within 20 (UnpackedFloat.mul Format.binary64 x y) := by
  cases x with
  | notANumber => exact hx.elim
  | infinity => exact hx.elim
  | zero sign =>
    cases y with
    | notANumber => exact hy.elim
    | infinity => exact hy.elim
    | zero => trivial
    | finite => trivial
  | finite sign m e hpos =>
    cases y with
    | notANumber => exact hy.elim
    | infinity => exact hy.elim
    | zero => trivial
    | finite sign' m' e' hpos' =>
      obtain ⟨hm, he⟩ := hx
      obtain ⟨hm', he'⟩ := hy
      have hlog : (m * m').log2 < 106 := by
        refine (Nat.log2_lt (Nat.ne_of_gt (Nat.mul_pos hpos hpos'))).2 ?_
        calc m * m' < 2 ^ 53 * 2 ^ 53 := Nat.mul_lt_mul'' hm hm'
          _ = 2 ^ 106 := by decide
      rw [UnpackedFloat.mul]
      exact within_roundWithAccuracy _ _ _ _ (by omega) (by omega) (by decide)

/-- The quotient of a sum and a divisor that is not too small. -/
theorem within_div {x : UnpackedFloat} {sign : Sign} {m : Nat} {e : Int} {hpos : 0 < m}
    (hx : Within 75 x) (he : -52 ≤ e) :
    Within 200 (UnpackedFloat.div Format.binary64 x (.finite sign m e hpos)) := by
  cases x with
  | notANumber => exact hx.elim
  | infinity => exact hx.elim
  | zero => trivial
  | finite sign' m' e' hpos' =>
    obtain ⟨hm', he'⟩ := hx
    rw [UnpackedFloat.div]
    simp only [divCore, Nat.shiftLeft_eq]
    have htarget : min (e' - e) (Format.binary64.targetExponent
        (totalExponent m' e' - totalExponent m e)) ≤ e' - e := by omega
    generalize min (e' - e) (Format.binary64.targetExponent
        (totalExponent m' e' - totalExponent m e)) = target at *
    refine within_roundWithAccuracy _ _ _ _ (by omega) ?_ (by decide)
    by_cases hzero : m' * 2 ^ (e' - e - target).toNat / m = 0
    · rw [hzero]
      simp
      omega
    · have hlt : m' * 2 ^ (e' - e - target).toNat / m < 2 ^ (53 + (e' - e - target).toNat) := by
        refine Nat.lt_of_le_of_lt (Nat.div_le_self _ _) ?_
        rw [Nat.pow_add]
        exact Nat.mul_lt_mul_of_pos_right hm' (Nat.two_pow_pos _)
      have := (Nat.log2_lt hzero).2 hlt
      omega


/-- A mantissa of 53 bits, or one more than that, keeps 53 bits. -/
theorem finishRounding_normal (sign : Sign) {m : Nat} {e : Int} (hlow : 2 ^ 52 ≤ m)
    (hhigh : m ≤ 2 ^ 53) (he : -1074 ≤ e) :
    ∃ m' e' hpos, finishRounding sign m e = .finite sign m' e' hpos ∧ 2 ^ 52 ≤ m' ∧ m' < 2 ^ 53 ∧
      e ≤ e' ∧ e' ≤ e + 1 := by
  have hlt := shifted_mantissa_lt m e
  have hlog : m.log2 = 52 ∨ m.log2 = 53 ∧ m = 2 ^ 53 := by
    have hne : m ≠ 0 := by omega
    have hge : 52 ≤ m.log2 := by
      by_contra hlt
      have := (Nat.log2_lt (k := 52) hne).1 (by omega)
      omega
    have hle := (Nat.log2_lt (k := 54) hne).2 (by omega)
    by_cases hfull : m = 2 ^ 53
    · right
      refine ⟨?_, hfull⟩
      rw [hfull]
      exact Nat.log2_two_pow
    · left
      have := (Nat.log2_lt (k := 53) hne).2 (by omega)
      omega
  have hshift : (Format.binary64.targetExponent (totalExponent m e) - e).toNat = m.log2 - 52 := by
    rw [targetExponent_binary64, totalExponent]
    omega
  rw [hshift] at hlt
  have hpos : 2 ^ 52 ≤ m / 2 ^ (m.log2 - 52) := by
    rcases hlog with hlog | ⟨hlog, rfl⟩
    · rw [hlog]
      simpa using hlow
    · rw [hlog]
      decide
  rw [finishRounding]
  simp only [shiftToTargetExponent, shiftToExponent, mantissa_shiftRight,
    mantissa_ofMantissaAndAccuracy, hshift]
  rw [dif_neg (by omega)]
  exact ⟨_, _, by omega, rfl, hpos, hlt, by omega, by omega⟩

/-- A shift to the left by no more than is missing to 53 bits. -/
theorem log2_shiftLeft_le {n : Nat} (hn : 0 < n) (k : Nat) : (n <<< k).log2 ≤ n.log2 + k := by
  have hpos : n <<< k ≠ 0 := by
    rw [Nat.shiftLeft_eq]
    exact Nat.mul_ne_zero (Nat.ne_of_gt hn) (Nat.ne_of_gt (Nat.two_pow_pos k))
  refine Nat.lt_succ_iff.1 ((Nat.log2_lt hpos).2 ?_)
  rw [Nat.shiftLeft_eq, Nat.succ_eq_add_one, Nat.add_right_comm, Nat.pow_add]
  exact Nat.mul_lt_mul_of_pos_right Nat.lt_log2_self (Nat.two_pow_pos k)

theorem le_log2_shiftLeft {n : Nat} (hn : 0 < n) (k : Nat) : n.log2 + k ≤ (n <<< k).log2 := by
  rw [Nat.shiftLeft_eq, Nat.le_log2 (Nat.ne_of_gt (Nat.mul_pos hn (Nat.two_pow_pos k))), Nat.pow_add]
  exact Nat.mul_le_mul_right _ (Nat.log2_self_le (Nat.ne_of_gt hn))

/-- A positive integer of up to 64 bits is rounded to a number with 53 bits. -/
theorem round_normal (sign : Sign) {n : Nat} (hn : 0 < n) (hlt : n < 2 ^ 64) :
    ∃ m e hpos, UnpackedFloat.round Format.binary64 sign n 0 = .finite sign m e hpos ∧
      2 ^ 52 ≤ m ∧ m < 2 ^ 53 ∧ -52 ≤ e ∧ e ≤ 12 := by
  have hlog : n.log2 < 64 := (Nat.log2_lt (Nat.ne_of_gt hn)).2 hlt
  have hshift : (0 - Format.binary64.targetExponent (totalExponent n 0)).toNat = 52 - n.log2 := by
    rw [targetExponent_binary64, totalExponent]
    omega
  rw [UnpackedFloat.round, decreaseExponent, hshift]
  have hlog' := log2_shiftLeft_le hn (52 - n.log2)
  have hlog'' := le_log2_shiftLeft hn (52 - n.log2)
  have hpos : n <<< (52 - n.log2) ≠ 0 := by
    rw [Nat.shiftLeft_eq]
    exact Nat.ne_of_gt (Nat.mul_pos hn (Nat.two_pow_pos _))
  have hge := Nat.log2_self_le hpos
  simp only [roundWithAccuracy_eq]
  generalize n <<< (52 - n.log2) = m at *
  have hfirst : (Format.binary64.targetExponent (totalExponent m (0 - ((52 - n.log2 : Nat) : Int))) -
      (0 - ((52 - n.log2 : Nat) : Int))).toNat = m.log2 - 52 := by
    rw [targetExponent_binary64, totalExponent]
    omega
  have hle := shiftToTargetExponent_roundedMantissa_le m (0 - ((52 - n.log2 : Nat) : Int)) .exact
  have hlow : 2 ^ 52 ≤ (shiftToTargetExponent Format.binary64 m (0 - ((52 - n.log2 : Nat) : Int))
      .exact).1.roundedMantissa := by
    refine Nat.le_trans ?_ (roundedMantissa_bounds _).1
    simp only [shiftToTargetExponent, shiftToExponent, mantissa_shiftRight,
      mantissa_ofMantissaAndAccuracy, hfirst]
    rw [Nat.le_div_iff_mul_le (Nat.two_pow_pos _), ← Nat.pow_add]
    exact Nat.le_trans (Nat.pow_le_pow_right (by decide) (by omega)) hge
  have hexponent : (shiftToTargetExponent Format.binary64 m (0 - ((52 - n.log2 : Nat) : Int))
      .exact).2 = (n.log2 : Int) - 52 := by
    simp only [shiftToTargetExponent, shiftToExponent, hfirst]
    omega
  rw [hexponent]
  obtain ⟨m', e', hpos', heq, hm, hm', he, he'⟩ :=
    finishRounding_normal sign hlow hle (e := (n.log2 : Int) - 52) (by omega)
  exact ⟨m', e', hpos', heq, hm, hm', by omega, by omega⟩

/-! ### Packing -/

theorem toNat_unpackExponent (b : BitVec Format.binary64.numBits) :
    (unpackExponent b).toNat = b.toNat / 2 ^ 52 % 2 ^ 11 := by
  simp only [unpackExponent, BitVec.toNat_cast, BitVec.extractLsb_toNat, Nat.shiftRight_eq_div_pow]

theorem toNat_unpackMantissa (b : BitVec Format.binary64.numBits) :
    (unpackMantissa b).toNat = b.toNat % 2 ^ 52 := by
  simp [unpackMantissa]

theorem toNat_implicitBit_pos {w : Nat} (b : BitVec w) : 0 < (1#1 ++ b).toNat := by simp

theorem unpack_eq_finite {b : BitVec Format.binary64.numBits} (hne : unpackExponent b ≠ -1#_)
    (hzero : unpackExponent b ≠ 0#_) :
    ∃ sign m hpos, UnpackedFloat.unpack Format.binary64 b =
      .finite sign m ((unpackExponent b).toNat - 1075) hpos ∧ m < 2 ^ 53 := by
  rw [UnpackedFloat.unpack]
  simp only [if_neg hne, if_neg hzero]
  exact ⟨_, _, toNat_implicitBit_pos _, rfl, BitVec.isLt _⟩

/-- The exponent as it is stored. -/
theorem biased_binary64 (e : Int) :
    (e + (Format.binary64.exponentBias : Int) +
      (Format.binary64.mantissaBitsWithoutImplicit : Int)).toNat = (e + 1075).toNat := by
  change (e + 1023 + 52).toNat = _
  omega

theorem not_overflows {e : Int} (h : e ≤ 900) :
    ¬ 2 ^ Format.binary64.exponentBits ≤ (e + 1075).toNat + 1 := by
  change ¬ 2048 ≤ _
  omega

/-- Such a number is packed with its exponent. -/
theorem unpack_pack_normal (sign : Sign) {m : Nat} {e : Int} (hpos : 0 < m) (hm : 2 ^ 52 ≤ m)
    (hm' : m < 2 ^ 53) (hlow : -1074 ≤ e) (hhigh : e ≤ 900) :
    ∃ sign' m' hpos', UnpackedFloat.unpack Format.binary64
      (UnpackedFloat.pack Format.binary64 (.finite sign m e hpos)) = .finite sign' m' e hpos' ∧
        m' < 2 ^ 53 := by
  have hbias := biased_binary64 e
  have hfits := not_overflows hhigh
  have hlog : m.log2 + 1 = Format.binary64.mantissaBits := by
    change m.log2 + 1 = 53
    have hlt := (Nat.log2_lt (k := 53) (Nat.ne_of_gt hpos)).2 hm'
    by_contra hne
    have := (Nat.log2_lt (k := 52) (Nat.ne_of_gt hpos)).1 (by omega)
    omega
  have hexponent : (BitVec.ofNat 11 (e + 1075).toNat).toNat = (e + 1075).toNat := by
    rw [BitVec.toNat_ofNat]
    exact Nat.mod_eq_of_lt (by omega)
  rw [UnpackedFloat.pack]
  simp only [hbias, if_neg hfits, if_pos hlog]
  obtain ⟨sign', m', hpos', heq, hlt⟩ := unpack_eq_finite
    (b := packComponents Format.binary64 sign (BitVec.ofNat 11 (e + 1075).toNat) (BitVec.ofNat 52 m))
    (by
      rw [unpackExponent_packComponents]
      intro heq
      have hval : (e + 1075).toNat = 2047 := hexponent.symm.trans (congrArg BitVec.toNat heq)
      omega)
    (by
      rw [unpackExponent_packComponents]
      intro heq
      have hval : (e + 1075).toNat = 0 := hexponent.symm.trans (congrArg BitVec.toNat heq)
      omega)
  have he : ((unpackExponent (packComponents Format.binary64 sign
      (BitVec.ofNat 11 (e + 1075).toNat) (BitVec.ofNat 52 m))).toNat : Int) - 1075 = e := by
    rw [unpackExponent_packComponents]
    refine (congrArg (fun n : Nat => (n : Int) - 1075) hexponent).trans ?_
    omega
  exact ⟨sign', m', hpos', heq.trans (congrArg (UnpackedFloat.finite sign' m' · hpos') he), hlt⟩

theorem within_unpack {b : BitVec Format.binary64.numBits} (h : unpackExponent b ≠ -1#_) :
    Within (max ((unpackExponent b).toNat - 1075) (-1074))
      (UnpackedFloat.unpack Format.binary64 b) := by
  rw [UnpackedFloat.unpack]
  simp only [if_neg h]
  split
  · rename_i hsub
    split
    · trivial
    · rw [hsub]
      refine ⟨?_, ?_⟩
      · exact Nat.lt_of_lt_of_le (BitVec.isLt _) (by decide)
      · simp [Format.exponentBias]
  · refine ⟨?_, ?_⟩
    · exact BitVec.isLt _
    · simp only [Format.exponentBias]
      omega

theorem within_unpack_of_le {b : BitVec Format.binary64.numBits} {n : Nat} (hn : n < 2047)
    (h : (unpackExponent b).toNat ≤ n) {k : Int} (hk : (n : Int) - 1075 ≤ k) (hlow : -1074 ≤ k) :
    Within k (UnpackedFloat.unpack Format.binary64 b) := by
  refine (within_unpack fun heq => ?_).mono (by omega)
  rw [heq] at h
  change 2047 ≤ n at h
  omega

theorem within_unpack_pack {k : Int} (hlow : -1074 ≤ k) (hhigh : k ≤ 900) {x : UnpackedFloat}
    (h : Within k x) :
    Within k (UnpackedFloat.unpack Format.binary64 (UnpackedFloat.pack Format.binary64 x)) := by
  cases x with
  | notANumber => exact h.elim
  | infinity => exact h.elim
  | zero sign =>
    rw [show UnpackedFloat.unpack Format.binary64 (UnpackedFloat.pack Format.binary64 (.zero sign)) =
      .zero sign from unpack_packedZero]
    trivial
  | finite sign m e hpos =>
    obtain ⟨hm, he⟩ := h
    have hbias := biased_binary64 e
    have hfits := not_overflows (Int.le_trans he hhigh)
    rw [UnpackedFloat.pack]
    simp only [hbias, if_neg hfits]
    split
    · refine within_unpack_of_le (n := (e + 1075).toNat) (by omega) ?_ ?_ hlow
      · rw [unpackExponent_packComponents, BitVec.toNat_ofNat]
        exact Nat.mod_le _ _
      · omega
    · refine within_unpack_of_le (n := 0) (by omega) ?_ (by omega) hlow
      rw [unpackExponent_packComponents]
      exact Nat.le_refl _

/-- Only what is no number is packed as such. -/
theorem unpackMantissa_pack {x : UnpackedFloat} (hx : x ≠ .notANumber)
    (h : unpackExponent (UnpackedFloat.pack Format.binary64 x) = -1#_) :
    unpackMantissa (UnpackedFloat.pack Format.binary64 x) = 0#_ := by
  cases x with
  | notANumber => exact absurd rfl hx
  | infinity sign => exact unpackMantissa_packComponents
  | zero sign =>
    rw [UnpackedFloat.pack, packedZero, unpackExponent_packComponents] at h
    exact absurd h (by decide)
  | finite sign m e hpos =>
    rw [UnpackedFloat.pack] at h ⊢
    simp only at h ⊢
    split at h
    · rename_i hover
      rw [if_pos hover]
      exact unpackMantissa_packComponents
    · rename_i hfits
      split at h
      · rw [unpackExponent_packComponents] at h
        have hval := congrArg BitVec.toNat h
        rw [BitVec.toNat_ofNat, Nat.mod_eq_of_lt (by omega)] at hval
        change _ = 2047 at hval
        change ¬ 2048 ≤ _ at hfits
        omega
      · rw [unpackExponent_packComponents] at h
        exact absurd h (by decide)

/-- The sum of a finite number and any number is a number. -/
theorem add_ne_notANumber {x y : UnpackedFloat} {k : Int} (hx : Within k x)
    (hy : y ≠ .notANumber) : UnpackedFloat.add Format.binary64 x y ≠ .notANumber := by
  cases x with
  | notANumber => exact hx.elim
  | infinity => exact hx.elim
  | zero =>
    cases y with
    | notANumber => exact absurd rfl hy
    | zero =>
      rw [UnpackedFloat.add]
      split <;> simp
    | _ => simp [UnpackedFloat.add]
  | finite =>
    cases y with
    | notANumber => exact absurd rfl hy
    | finite =>
      rw [UnpackedFloat.add]
      simp only [decreaseExponent]
      rw [UnpackedFloat.normalize]
      split
      · exact finishRounding_ne_notANumber _ _ _
      · simp
      · exact finishRounding_ne_notANumber _ _ _
    | _ => simp [UnpackedFloat.add]

end Courseware
