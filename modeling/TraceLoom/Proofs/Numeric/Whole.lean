import Mathlib
import TraceLoom.Value.Basic

/-!
Small natural numbers are doubles: nothing is lost on the way to a double and back.
-/

namespace TraceLoom.Numeric.Binary64

/-- Bits that are no infinity and not-a-number are those of their double. -/
theorem toBits_ofBits {bits : UInt64} (h : bits.toNat / 2 ^ 52 % 2 ^ 11 ≠ 2047) :
    (Float.ofBits bits).toBits = bits := by
  have hpack := @Float.Model.UnpackedFloat.pack_unpack .binary64 bits.toBitVec
  have hnan : @Float.Model.UnpackedFloat.isNaNBits .binary64 bits.toBitVec = false := by
    refine decide_eq_false fun hbits => h ?_
    have hexponent := congrArg BitVec.toNat hbits.1
    simpa [Float.Model.UnpackedFloat.unpackExponent_def, Nat.shiftRight_eq_div_pow] using hexponent
  rw [hnan] at hpack
  exact congrArg UInt64.ofBitVec hpack

section

variable {n k : Nat}

/-- The bits of a whole number that gets 53 of them by a shift. -/
theorem nearestBits_of_shift (hpos : 0 < n) (hk : n.log2 + k = 52) (hlow : 2 ^ 52 ≤ n * 2 ^ k)
    (hhigh : n * 2 ^ k < 2 ^ 53) :
    nearestBits n 1 = (n.log2 + 1023) * 2 ^ 52 + (n * 2 ^ k - 2 ^ 52) := by
  have hguess : max (-1074) ((n.log2 : Int) - (Nat.log2 1 : Nat) - 53) = -(k + 1 : Nat) := by
    rw [show Nat.log2 1 = 0 from by decide]
    omega
  have hsmall : ¬ n * Nat.pow 2 (- -((k + 1 : Nat) : Int)).toNat /
      (1 * Nat.pow 2 (-((k + 1 : Nat) : Int)).toNat) < Nat.pow 2 53 := by
    have hzero : (-((k + 1 : Nat) : Int)).toNat = 0 := by omega
    rw [neg_neg, Int.toNat_natCast, hzero]
    simp only [Nat.pow_eq, pow_zero, Nat.mul_one, Nat.div_one, pow_succ, ← Nat.mul_assoc]
    omega
  have hnext : -((k + 1 : Nat) : Int) + 1 = -(k : Int) := by omega
  have hexponent : (-(k : Int) + 1075).toNat = n.log2 + 1023 := by omega
  have hzero : (-(k : Int)).toNat = 0 := by omega
  simp only [nearestBits, if_neg hpos.ne', hguess, if_neg hsmall, hnext]
  simp only [neg_neg, Int.toNat_natCast, hzero, hexponent, Nat.pow_eq, pow_zero, Nat.mul_one,
    Nat.div_one, Nat.mod_one, Nat.mul_zero]
  have hdown : (decide (0 > 1) || 0 == 1 && n * 2 ^ k % 2 == 1) = false := by simp
  rw [hdown, if_neg Bool.false_ne_true, if_neg (by omega)]
  refine Nat.min_eq_right ?_
  calc (n.log2 + 1023) * 2 ^ 52 + (n * 2 ^ k - 2 ^ 52)
      ≤ 1075 * 2 ^ 52 + 2 ^ 52 :=
        Nat.add_le_add (Nat.mul_le_mul_right _ (by omega)) (by omega)
    _ ≤ 2047 * 2 ^ 52 := by norm_num

/-- A positive whole number with at most 53 bits is a double. -/
theorem magnitude?_ofNat (hpos : 0 < n) (hlt : n < 2 ^ 53) :
    ∃ k, n.log2 + k = 52 ∧ isNegative (ofNat n) = false ∧
      magnitude? (ofNat n) = some ⟨n * 2 ^ k, -k⟩ := by
  have hlog : n.log2 < 53 := (Nat.log2_lt hpos.ne').mpr hlt
  obtain ⟨k, hk⟩ : ∃ k, n.log2 + k = 52 := ⟨52 - n.log2, by omega⟩
  have hlow : 2 ^ 52 ≤ n * 2 ^ k := by
    calc 2 ^ 52 = 2 ^ n.log2 * 2 ^ k := by rw [← pow_add, hk]
      _ ≤ n * 2 ^ k := Nat.mul_le_mul_right _ (Nat.log2_self_le hpos.ne')
  have hhigh : n * 2 ^ k < 2 ^ 53 := by
    calc n * 2 ^ k < 2 ^ (n.log2 + 1) * 2 ^ k :=
          Nat.mul_lt_mul_of_pos_right Nat.lt_log2_self (by positivity)
      _ = 2 ^ 53 := by rw [← pow_add, Nat.add_right_comm, hk]
  have hbits := nearestBits_of_shift hpos hk hlow hhigh
  generalize hsignificand : n * 2 ^ k = significand at hbits hlow hhigh
  have hnat : (UInt64.ofNat (nearestBits n 1 + if false then Nat.pow 2 63 else 0)).toNat =
      (n.log2 + 1023) * 2 ^ 52 + (significand - 2 ^ 52) := by
    rw [UInt64.toNat_ofNat', if_neg Bool.false_ne_true, Nat.add_zero, hbits]
    omega
  have hof : (ofNat n).toBits.toNat = (n.log2 + 1023) * 2 ^ 52 + (significand - 2 ^ 52) := by
    rw [ofNat, nearest, toBits_ofBits (by rw [hnat]; omega), hnat]
  refine ⟨k, hk, ?_, ?_⟩
  · rw [isNegative, beq_eq_false_iff_ne]
    intro heq
    have hshift := congrArg UInt64.toNat heq
    rw [UInt64.toNat_shiftRight, hof, Nat.shiftRight_eq_div_pow] at hshift
    change _ / 2 ^ 63 = 1 at hshift
    omega
  · have hbiased : (ofNat n).toBits.toNat / Nat.pow 2 52 % Nat.pow 2 11 = n.log2 + 1023 := by
      rw [hof]
      simp only [Nat.pow_eq]
      omega
    have hfraction : (ofNat n).toBits.toNat % Nat.pow 2 52 = significand - 2 ^ 52 := by
      rw [hof]
      simp only [Nat.pow_eq]
      omega
    simp only [magnitude?, hbiased, hfraction]
    rw [if_neg (by omega), if_neg (by omega)]
    simp only [Nat.pow_eq, Option.some.injEq, Magnitude.mk.injEq]
    omega

theorem whole?_ofNat (hlt : n < 2 ^ 53) : whole? (ofNat n) = some n := by
  rcases Nat.eq_zero_or_pos n with rfl | hpos
  · decide +kernel
  · obtain ⟨k, -, hsign, hmagnitude⟩ := magnitude?_ofNat hpos hlt
    have hratio : Magnitude.ratio ⟨n * 2 ^ k, -k⟩ = (n * 2 ^ k, 2 ^ k) := by
      simp [Magnitude.ratio]
    simp only [whole?, hmagnitude, Option.bind_some, hratio, Nat.mul_mod_left, if_true, hsign]
    rw [Nat.mul_div_cancel _ (by positivity)]
    rfl

end

end TraceLoom.Numeric.Binary64

/-- A number of parameters is read as it was written. -/
theorem TraceLoom.Value.slot?_ofNat {n : Nat} (hlt : n < 2 ^ 53) :
    slot? (Numeric.Binary64.ofNat n) = some n := by
  have hsmall : n < Nat.pow 2 64 := Nat.lt_trans hlt (by decide)
  rw [slot?, Numeric.Binary64.whole?_ofNat hlt]
  exact if_pos hsmall
