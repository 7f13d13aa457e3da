import TraceLoom.Numeric.Binary64

/-!
Finite doubles are those with a magnitude.
-/

namespace TraceLoom.Numeric.Binary64

/-- A double without a magnitude is infinite or not a number. -/
theorem isNaN_or_isInf {x : Float} (h : magnitude? x = none) :
    x.isNaN = true ∨ x.isInf = true := by
  have hexponent : @Float.Model.UnpackedFloat.unpackExponent .binary64 x.toBits.toBitVec =
      BitVec.allOnes _ := by
    apply BitVec.eq_of_toNat_eq
    unfold magnitude? at h
    dsimp only at h
    split at h
    · simp_all [Float.Model.UnpackedFloat.unpackExponent, Nat.shiftRight_eq_div_pow]
    · split at h <;> cases h
  change (@Float.Model.UnpackedFloat.unpack .binary64 x.toBits.toBitVec).isNaN = true ∨
    (@Float.Model.UnpackedFloat.unpack .binary64 x.toBits.toBitVec).isInf = true
  unfold Float.Model.UnpackedFloat.unpack
  rw [hexponent, BitVec.neg_one_eq_allOnes, if_pos rfl]
  split
  · exact .inr rfl
  · exact .inl rfl

theorem isSome_magnitude? {x : Float} (h : x.isFinite = true) : (magnitude? x).isSome = true := by
  refine Option.isSome_iff_ne_none.mpr fun hnone => ?_
  have hspecial := isNaN_or_isInf hnone
  change x.toModel.unpack.isFinite = true at h
  change x.toModel.unpack.isNaN = true ∨ x.toModel.unpack.isInf = true at hspecial
  cases hunpack : x.toModel.unpack with
  | finite | zero =>
      rw [hunpack] at hspecial
      rcases hspecial with hnan | hinf
      · exact Bool.noConfusion hnan
      · exact Bool.noConfusion hinf
  | _ =>
      rw [hunpack] at h
      exact Bool.noConfusion h

end TraceLoom.Numeric.Binary64
