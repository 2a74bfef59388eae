import Courseware.Score
import Courseware.Proofs.Rounding

/-!
# The arithmetic of scores

Both zeros are one number, and neither sums nor quotients nor corrections tell them apart
(`Alike`). Adding a score of 0 to a sum does not change the number, whatever 64-bit weight the 0
comes with (`alike_add_zero`), and 0 divided by a weight is 0 (`alike_zero_div`). Both rest on the
fact that a 64-bit integer other than 0 is rounded to a finite number other than 0.
-/

namespace Courseware

open Float.Model Float.Model.UnpackedFloat

namespace Score

/-! ### Scores as numbers -/

/-- The number that the bits of a score stand for. -/
def unpacked (s : Score) : UnpackedFloat := UnpackedFloat.unpack Format.binary64 s.bits.toBitVec

def packed (x : UnpackedFloat) : Score := ⟨UInt64.ofBitVec (UnpackedFloat.pack Format.binary64 x)⟩

theorem unpack_toFloat (s : Score) : s.toFloat.toModel.unpack = s.unpacked := by
  change UnpackedFloat.unpack Format.binary64 (UnpackedFloat.pack Format.binary64
    (UnpackedFloat.unpack Format.binary64 s.bits.toBitVec)) =
      UnpackedFloat.unpack Format.binary64 s.bits.toBitVec
  rw [pack_unpack]
  split
  · rename_i hnan
    have hbits : @unpackExponent Format.binary64 s.bits.toBitVec = -1#_ ∧
        @unpackMantissa Format.binary64 s.bits.toBitVec ≠ 0#_ := of_decide_eq_true hnan
    rw [unpack_packedNaN, UnpackedFloat.unpack]
    simp only [if_pos hbits.1, if_neg hbits.2]
  · rfl

theorem add_eq (a b : Score) :
    a.add b = packed (UnpackedFloat.add Format.binary64 a.unpacked b.unpacked) := by
  rw [← unpack_toFloat, ← unpack_toFloat]
  rfl

theorem mul_eq (a b : Score) :
    a.mul b = packed (UnpackedFloat.mul Format.binary64 a.unpacked b.unpacked) := by
  rw [← unpack_toFloat, ← unpack_toFloat]
  rfl

theorem div_eq (a b : Score) :
    a.div b = packed (UnpackedFloat.div Format.binary64 a.unpacked b.unpacked) := by
  rw [← unpack_toFloat, ← unpack_toFloat]
  rfl

theorem packed_unpacked_packed (x : UnpackedFloat) : packed (packed x).unpacked = packed x := by
  rw [packed, unpacked, packed, pack_unpack_of_valid valid_pack]

theorem unpacked_packed_zero (sign : Sign) : (packed (.zero sign)).unpacked = .zero sign :=
  unpack_packedZero

theorem magnitude_packed_zero (sign : Sign) : (packed (.zero sign)).magnitude = 0 := by
  cases sign <;> decide

theorem unpacked_of_magnitude {s : Score} (h : s.magnitude = 0) :
    ∃ sign, s.unpacked = .zero sign := by
  have hlt := s.bits.toNat_lt
  have hbits : s.bits.toNat = 0 ∨ s.bits.toNat = 0x8000000000000000 := by
    rw [magnitude] at h
    omega
  have hzero : ∀ sign, s.bits.toNat = (packed (.zero sign)).bits.toNat → s = packed (.zero sign) :=
    fun sign heq => congrArg Score.mk (UInt64.toNat_inj.1 heq)
  rcases hbits with hbits | hbits
  · exact ⟨.positive, by rw [hzero .positive hbits, unpacked_packed_zero]⟩
  · exact ⟨.negative, by rw [hzero .negative hbits, unpacked_packed_zero]⟩

theorem unpacked_zero : zero.unpacked = .zero .positive :=
  @unpack_packedZero Format.binary64 .positive

/-- An integer other than 0 is a finite number other than 0, with 53 bits. -/
theorem unpacked_ofInt64 {n : Int64} (hn : n ≠ 0) :
    ∃ sign m e hpos, (ofInt64 n).unpacked = .finite sign m e hpos ∧ m < 2 ^ 53 ∧ -52 ≤ e ∧
      e ≤ 12 := by
  have hlow := n.le_toInt
  have hhigh := n.toInt_lt
  have hzero : n.toInt ≠ 0 := fun h => hn (Int64.toInt_inj.1 h)
  have hround : ∃ sign k, 0 < k ∧ k < 2 ^ 64 ∧
      UnpackedFloat.ofInt64 Format.binary64 n = UnpackedFloat.round Format.binary64 sign k 0 := by
    rw [UnpackedFloat.ofInt64, UnpackedFloat.ofInt, UnpackedFloat.normalize]
    rcases Int.lt_or_gt_of_ne hzero with hneg | hpos
    · rw [show compare n.toInt 0 = .lt from Int.compare_eq_lt.2 hneg]
      exact ⟨.negative, (-n.toInt).toNat, by omega, by omega, rfl⟩
    · rw [show compare n.toInt 0 = .gt from Int.compare_eq_gt.2 hpos]
      exact ⟨.positive, n.toInt.toNat, by omega, by omega, rfl⟩
  obtain ⟨sign, k, hpos, hlt, heq⟩ := hround
  obtain ⟨m, e, hm, hfinite, hfull, hm', he, he'⟩ := round_normal sign hpos hlt
  obtain ⟨sign', m', hpos', hunpack, hlt'⟩ :=
    unpack_pack_normal sign hm hfull hm' (e := e) (by omega) (by omega)
  refine ⟨sign', m', e, hpos', ?_, hlt', he, he'⟩
  change UnpackedFloat.unpack Format.binary64 (UnpackedFloat.pack Format.binary64
    (UnpackedFloat.ofInt64 Format.binary64 n)) = _
  rw [heq, hfinite, hunpack]

/-! ### Scores that differ at most in the sign of a zero -/

/-- They are equal, or both are zeros. -/
def Alike (a b : Score) : Prop := a = b ∨ (a.magnitude = 0 ∧ b.magnitude = 0)

variable {a b : Score}

theorem Alike.refl (a : Score) : Alike a a := Or.inl rfl

theorem Alike.symm (h : Alike a b) : Alike b a := by
  rcases h with rfl | ⟨ha, hb⟩
  · exact Or.inl rfl
  · exact Or.inr ⟨hb, ha⟩

theorem Alike.trans {c : Score} (hab : Alike a b) (hbc : Alike b c) : Alike a c := by
  rcases hab with rfl | ⟨ha, hb⟩
  · exact hbc
  · rcases hbc with rfl | ⟨-, hc⟩
    · exact Or.inr ⟨ha, hb⟩
    · exact Or.inr ⟨ha, hc⟩

theorem signed_of_magnitude {s : Score} (h : s.magnitude = 0) : s.signed = 0 := by
  rw [signed, h]
  split <;> rfl

theorem isNaN_of_magnitude {s : Score} (h : s.magnitude = 0) : s.isNaN = false := by
  rw [isNaN, h]
  decide

theorem Alike.isNaN (h : Alike a b) : a.isNaN = b.isNaN := by
  rcases h with rfl | ⟨ha, hb⟩
  · rfl
  · rw [isNaN_of_magnitude ha, isNaN_of_magnitude hb]

theorem Alike.signed (h : Alike a b) : a.signed = b.signed := by
  rcases h with rfl | ⟨ha, hb⟩
  · rfl
  · rw [signed_of_magnitude ha, signed_of_magnitude hb]

theorem Alike.same_left (h : Alike a b) (c : Score) : a.same c = b.same c := by
  rw [same, same, h.isNaN, h.signed]

theorem Alike.clamp (h : Alike a b) : Alike a.clamp b.clamp := by
  rw [Score.clamp, Score.clamp, less, less, less, less, h.isNaN, h.signed]
  split
  · exact .refl _
  · split
    · exact .refl _
    · exact h

theorem magnitude_add_zeros (sign sign' : Sign) :
    (packed (UnpackedFloat.add Format.binary64 (.zero sign) (.zero sign'))).magnitude = 0 := by
  rw [UnpackedFloat.add]
  split
  · exact magnitude_packed_zero _
  · exact magnitude_packed_zero _

theorem Alike.add_right (h : Alike a b) (c : Score) : Alike (a.add c) (b.add c) := by
  rcases h with rfl | ⟨ha, hb⟩
  · exact .refl _
  · obtain ⟨sign, ha⟩ := unpacked_of_magnitude ha
    obtain ⟨sign', hb⟩ := unpacked_of_magnitude hb
    rw [add_eq, add_eq, ha, hb]
    cases c.unpacked with
    | notANumber => exact .refl _
    | infinity => exact .refl _
    | finite => exact .refl _
    | zero sign'' => exact Or.inr ⟨magnitude_add_zeros sign sign'', magnitude_add_zeros sign' sign''⟩

theorem magnitude_div {n : Int64} (hn : 0 < n) (ha : a.magnitude = 0) :
    (a.div (ofInt64 n)).magnitude = 0 := by
  obtain ⟨sign, ha⟩ := unpacked_of_magnitude ha
  obtain ⟨sign', m, e, hpos, hfinite, -⟩ := unpacked_ofInt64 (n := n) (by rintro rfl; simp at hn)
  rw [div_eq, ha, hfinite]
  exact magnitude_packed_zero (sign / sign')

theorem Alike.div_right (h : Alike a b) {n : Int64} (hn : 0 < n) :
    Alike (a.div (ofInt64 n)) (b.div (ofInt64 n)) := by
  rcases h with rfl | ⟨ha, hb⟩
  · exact .refl _
  · exact Or.inr ⟨magnitude_div hn ha, magnitude_div hn hb⟩

theorem alike_zero_div {n : Int64} (hn : 0 < n) : Alike (zero.div (ofInt64 n)) zero :=
  Or.inr ⟨magnitude_div hn rfl, rfl⟩

/-- A score that is the outcome of arithmetic, and so no NaN by another name. -/
def IsPacked (s : Score) : Prop := packed s.unpacked = s

theorem isPacked_add (a b : Score) : (a.add b).IsPacked := by
  rw [add_eq]
  exact packed_unpacked_packed _

theorem isPacked_zero : zero.IsPacked := by
  rw [IsPacked, unpacked_zero]
  decide

theorem unpacked_zero_mul (n : Int64) : ∃ sign, (zero.mul (ofInt64 n)).unpacked = .zero sign := by
  rw [mul_eq, unpacked_zero]
  by_cases hn : n = 0
  · subst hn
    have hunpacked : (ofInt64 0).unpacked = .zero .positive := unpacked_packed_zero .positive
    rw [hunpacked]
    exact ⟨_, unpacked_packed_zero _⟩
  · obtain ⟨sign, m, e, hpos, hfinite, -⟩ := unpacked_ofInt64 hn
    rw [hfinite]
    exact ⟨_, unpacked_packed_zero _⟩

theorem alike_add_zero {s : Score} (hs : s.IsPacked) (n : Int64) :
    Alike (s.add (zero.mul (ofInt64 n))) s := by
  obtain ⟨sign, hzero⟩ := unpacked_zero_mul n
  rw [IsPacked] at hs
  rw [add_eq, hzero]
  cases hunpacked : s.unpacked with
  | notANumber => exact Or.inl (by rw [← hs, hunpacked]; rfl)
  | infinity => exact Or.inl (by rw [← hs, hunpacked]; rfl)
  | finite => exact Or.inl (by rw [← hs, hunpacked]; rfl)
  | zero sign' =>
    refine Or.inr ⟨magnitude_add_zeros sign' sign, ?_⟩
    rw [← hs, hunpacked]
    exact magnitude_packed_zero sign'

/-! ### Scores as they are stored -/

theorem stored?_eq_some {s t : Score} (h : s.stored? = some t) :
    s.isNaN = false ∧ ((s.magnitude = 0 ∧ t = zero) ∨ (s.magnitude ≠ 0 ∧ t = s)) := by
  rw [stored?] at h
  split at h
  · simp at h
  · rename_i hnan
    split at h
    · rename_i hzero
      exact ⟨by simpa using hnan, Or.inl ⟨hzero, (Option.some.inj h).symm⟩⟩
    · rename_i hzero
      exact ⟨by simpa using hnan, Or.inr ⟨hzero, (Option.some.inj h).symm⟩⟩

theorem alike_stored {s t : Score} (h : s.stored? = some t) : Alike s t := by
  rcases (stored?_eq_some h).2 with ⟨hzero, rfl⟩ | ⟨-, rfl⟩
  · exact Or.inr ⟨hzero, rfl⟩
  · exact .refl _

/-- A column holds them as the same score. -/
theorem Alike.stored_eq (h : Alike a b) : a.stored? = b.stored? := by
  rcases h with rfl | ⟨ha, hb⟩
  · rfl
  · rw [stored?, stored?, if_pos ha, if_pos hb, isNaN_of_magnitude ha, isNaN_of_magnitude hb]

theorem same_stored {s t : Score} (h : s.stored? = some t) : s.same t = true := by
  have hnan := (stored?_eq_some h).1
  have halike := alike_stored h
  rw [same, ← halike.isNaN, ← halike.signed, hnan]
  simp

/-- What a column gives back, it holds as such. -/
theorem stored?_of_stored? {s t : Score} (h : s.stored? = some t) : t.stored? = some t := by
  obtain ⟨hnan, ⟨-, rfl⟩ | ⟨hne, rfl⟩⟩ := stored?_eq_some h
  · rfl
  · rw [stored?, if_neg (by simp [hnan]), if_neg hne]

theorem natAbs_signed (s : Score) : s.signed.natAbs = s.magnitude := by
  rw [Score.signed]
  split <;> simp

/-- Numbers of the same signed magnitude differ at most in the sign of a zero. -/
theorem alike_of_signed_eq (h : a.signed = b.signed) : Alike a b := by
  have hmagnitude : a.magnitude = b.magnitude := by
    rw [← natAbs_signed, h, natAbs_signed]
  by_cases hzero : a.magnitude = 0
  · exact Or.inr ⟨hzero, hmagnitude ▸ hzero⟩
  · have hsign : a.isNegative = b.isNegative := by
      rw [Score.signed, Score.signed] at h
      cases ha : a.isNegative <;> cases hb : b.isNegative <;> simp [ha, hb] at h ⊢ <;> omega
    have ha := a.bits.toNat_lt
    have hb := b.bits.toNat_lt
    rw [isNegative, isNegative, decide_eq_decide] at hsign
    rw [magnitude, magnitude] at hmagnitude
    exact Or.inl (congrArg Score.mk (UInt64.toNat_inj.1 (by omega)))

/-- In a column the same number is the same score. -/
theorem eq_of_same_stored {s t : Score} (hs : s.stored? = some s) (ht : t.stored? = some t)
    (h : s.same t = true) : s = t := by
  simp only [same, Bool.and_eq_true, decide_eq_true_eq] at h
  rcases alike_of_signed_eq h.2 with heq | ⟨hzero, hzero'⟩
  · exact heq
  · rcases (stored?_eq_some hs).2 with ⟨-, hs⟩ | ⟨hne, -⟩
    · rcases (stored?_eq_some ht).2 with ⟨-, ht⟩ | ⟨hne, -⟩
      · rw [hs, ht]
      · exact absurd hzero' hne
    · exact absurd hzero hne

/-- A score as a computed one is stored: a number from 0 to 100, and if 0 the one without a sign. -/
structure Proper (s : Score) : Prop where
  stored : s.stored? = some s
  sign : s.isNegative = false
  capped : s.magnitude ≤ full.magnitude

theorem proper_zero : zero.Proper := ⟨by decide, by decide, by decide⟩

theorem isNaN_clamp {s : Score} (h : s.isNaN = false) : s.clamp.isNaN = false := by
  rw [clamp]
  split
  · decide
  · split
    · decide
    · exact h

theorem proper_of_clamp {s t : Score} (h : s.clamp.stored? = some t) : t.Proper := by
  obtain ⟨hnan, ht⟩ := stored?_eq_some h
  rcases ht with ⟨-, rfl⟩ | ⟨hzero, rfl⟩
  · exact proper_zero
  · suffices hrange : s.clamp.isNegative = false ∧ s.clamp.magnitude ≤ full.magnitude from
      ⟨h, hrange.1, hrange.2⟩
    revert hzero hnan
    rw [Score.clamp]
    split
    · exact fun _ hzero => absurd rfl hzero
    · rename_i hless
      split
      · exact fun _ _ => by decide
      · rename_i hover
        intro hnan hzero
        rw [less, hnan, Bool.and_eq_true, decide_eq_true_eq, Score.signed] at hless hover
        have hsign : s.isNegative = false := by
          rw [← Bool.not_eq_true]
          intro hnegative
          rw [if_pos hnegative] at hless
          refine hless ⟨by decide, ?_⟩
          change -(s.magnitude : Int) < 0
          omega
        refine ⟨hsign, Nat.le_of_not_lt fun hlt => hover ⟨by decide, ?_⟩⟩
        rw [Score.signed, if_neg (by decide), if_neg (by simp [hsign])]
        exact Int.ofNat_lt.2 hlt

theorem Proper.place {s : Score} (hs : s.Proper) : s.place = s.magnitude := by
  rw [Score.place, hs.sign]
  rfl

theorem Proper.eq_zero {s : Score} (hs : s.Proper) (h : s.magnitude = 0) : s = zero := by
  have hstored := hs.stored
  rw [stored?, if_neg (by simp [isNaN_of_magnitude h]), if_pos h] at hstored
  exact (Option.some.inj hstored).symm

/-- What is stored and the same number as something between 0 and 100 is between 0 and 100. -/
theorem proper_of_same_clamp {s t : Score} (ht : t.stored? = some t) (h : s.clamp.same t = true) :
    t.Proper := by
  have hnan : s.clamp.isNaN = false := by
    simp only [same, Bool.and_eq_true, Bool.not_eq_true'] at h
    exact h.1.1
  obtain ⟨u, hu⟩ : ∃ u, s.clamp.stored? = some u := by
    rw [stored?, if_neg (by simp [hnan])]
    split
    · exact ⟨_, rfl⟩
    · exact ⟨_, rfl⟩
  have hsame : u.same t = true := by
    rw [← (alike_stored hu).same_left]
    exact h
  exact eq_of_same_stored (stored?_of_stored? hu) ht hsame ▸ proper_of_clamp hu

/-! ### Averages are numbers -/

theorem isNaN_iff (s : Score) : s.isNaN = true ↔
    @unpackExponent Format.binary64 s.bits.toBitVec = -1#_ ∧
      @unpackMantissa Format.binary64 s.bits.toBitVec ≠ 0#_ := by
  have hlt := s.bits.toNat_lt
  have hbits : s.bits.toBitVec.toNat = s.bits.toNat := rfl
  rw [isNaN, decide_eq_true_eq, magnitude, ne_eq, ← BitVec.toNat_inj, ← BitVec.toNat_inj,
    toNat_unpackExponent, toNat_unpackMantissa, hbits]
  change _ ↔ _ = 2047 ∧ ¬ _ = 0
  omega

theorem isNaN_of_within {s : Score} {k : Int} (h : Within k s.unpacked) : s.isNaN = false := by
  rw [← Bool.not_eq_true, isNaN_iff]
  rintro ⟨hexponent, hmantissa⟩
  rw [unpacked, UnpackedFloat.unpack] at h
  simp only [if_pos hexponent, if_neg hmantissa] at h
  exact h

theorem isNaN_of_unpacked {s : Score} (h : s.unpacked = .notANumber) : s.isNaN = true := by
  rw [unpacked, UnpackedFloat.unpack] at h
  simp only at h
  split at h
  · rename_i hexponent
    split at h
    · exact absurd h (by simp)
    · rename_i hmantissa
      exact (isNaN_iff s).2 ⟨hexponent, hmantissa⟩
  · split at h
    · split at h <;> exact absurd h (by simp)
    · exact absurd h (by simp)

theorem isNaN_packed {x : UnpackedFloat} (h : x ≠ .notANumber) : (packed x).isNaN = false := by
  rw [← Bool.not_eq_true, isNaN_iff]
  change ¬ (unpackExponent (UnpackedFloat.pack Format.binary64 x) = -1#_ ∧
    unpackMantissa (UnpackedFloat.pack Format.binary64 x) ≠ 0#_)
  exact fun ⟨hexponent, hmantissa⟩ => hmantissa (unpackMantissa_pack h hexponent)

/-- A score from 0 to 100. -/
theorem within_unpacked {s : Score} (h : s.magnitude ≤ full.magnitude) :
    Within (-46) s.unpacked := by
  have hlt := s.bits.toNat_lt
  have hbits : s.bits.toBitVec.toNat = s.bits.toNat := rfl
  have hfull : full.magnitude = 0x4059000000000000 := rfl
  refine within_unpack_of_le (n := 1029) (by decide) ?_ (by decide) (by decide)
  rw [toNat_unpackExponent, hbits]
  rw [magnitude, hfull] at h
  omega

theorem within_ofInt64 (n : Int64) : Within 12 (ofInt64 n).unpacked := by
  by_cases hn : n = 0
  · subst hn
    rw [show (ofInt64 0).unpacked = .zero .positive from unpacked_packed_zero .positive]
    trivial
  · obtain ⟨sign, m, e, hpos, hfinite, hm, -, he⟩ := unpacked_ofInt64 hn
    rw [hfinite]
    exact ⟨hm, he⟩

theorem within_packed {x : UnpackedFloat} {k : Int} (hlow : -1074 ≤ k) (hhigh : k ≤ 900)
    (h : Within k x) : Within k (packed x).unpacked :=
  within_unpack_pack hlow hhigh h

/-- However many they are, scores that are weighted add up to a finite number. -/
theorem within_sum {xs : List Score} (h : ∀ x ∈ xs, Within 20 x.unpacked) :
    Within 75 (sum xs).unpacked := by
  have hfold : ∀ (xs : List Score) (s : Score), (∀ x ∈ xs, Within 20 x.unpacked) →
      Within 75 s.unpacked → Within 75 (xs.foldl add s).unpacked := by
    intro xs
    induction xs with
    | nil => exact fun s _ hs => hs
    | cons x rest ih =>
      intro s hxs hs
      refine ih (s.add x) (fun y hy => hxs y (List.mem_cons_of_mem _ hy)) ?_
      rw [add_eq]
      exact within_packed (by decide) (by decide) (within_add hs (hxs x List.mem_cons_self))
  refine hfold xs zero h ?_
  rw [unpacked_zero]
  trivial

theorem within_mul_weight {s : Score} (h : s.magnitude ≤ full.magnitude) (n : Int64) :
    Within 20 (s.mul (ofInt64 n)).unpacked := by
  rw [mul_eq]
  exact within_packed (by decide) (by decide) (within_mul (within_unpacked h) (within_ofInt64 n))

theorem within_div_weight {s : Score} (h : Within 75 s.unpacked) {n : Int64} (hn : 0 < n) :
    Within 200 (s.div (ofInt64 n)).unpacked := by
  obtain ⟨sign, m, e, hpos, hfinite, -, he, -⟩ := unpacked_ofInt64 (n := n) (by rintro rfl; simp at hn)
  rw [div_eq, hfinite]
  exact within_packed (by decide) (by decide) (within_div h he)

/-- A finite number may be added to any number. -/
theorem isNaN_add {a b : Score} {k : Int} (ha : Within k a.unpacked) (hb : b.isNaN = false) :
    (a.add b).isNaN = false := by
  have hb' : b.unpacked ≠ .notANumber := by
    intro hnan
    rw [isNaN_of_unpacked hnan] at hb
    exact absurd hb (by simp)
  rw [add_eq]
  exact isNaN_packed (add_ne_notANumber ha hb')

end Score

end Courseware
