import TraceLoom.Proofs.Script.Lexing

/-!
How numbers are written: as numerals or by name, with or without a sign.
-/

namespace TraceLoom.Script

open TraceLoom.Numeric

/-- A number as it is written in a program. -/
inductive IsLiteral : List Char → Prop
  | name {w : String} (h : w = "NaN" ∨ w = "Infinity") : IsLiteral w.toList
  | numeral {digits : List Char} (h : IsNumeral digits) : IsLiteral digits

theorem special?_eq (x : Float) : Notation.special? x =
    if x.isNaN then some "NaN"
    else if x.isInf then some (if Binary64.isNegative x then "-" ++ "Infinity" else "Infinity")
    else none :=
  rfl

theorem plain_eq (x : Float) : Notation.plain x =
    match Binary64.magnitude? x with
    | none => (Notation.special? x).getD ""
    | some m =>
      if Binary64.isNegative x then "-" ++ (Decimal.shortest .away m).positional
      else (Decimal.shortest .away m).positional :=
  rfl

/-- A literal with or without a sign. -/
inductive IsSigned : List Char → Prop
  | plain {text : List Char} (h : IsLiteral text) : IsSigned text
  | minus {text : List Char} (h : IsLiteral text) : IsSigned ('-' :: text)

theorem isSigned_special {x : Float} {name : String} (h : Notation.special? x = some name) :
    IsSigned name.toList := by
  rw [special?_eq] at h
  split at h
  · cases h
    exact .plain (.name (.inl rfl))
  · split at h
    · split at h
      · cases h
        exact .minus (.name (.inr rfl))
      · cases h
        exact .plain (.name (.inr rfl))
    · cases h

theorem isSigned_plain (x : Float) : IsSigned (Notation.plain x).toList := by
  rw [plain_eq]
  split
  · rename_i hmagnitude
    obtain ⟨name, hname⟩ : ∃ name, Notation.special? x = some name := by
      rw [special?_eq]
      rcases Binary64.isNaN_or_isInf hmagnitude with hnan | hinf
      · exact ⟨_, if_pos hnan⟩
      · rw [hinf]
        split <;> exact ⟨_, rfl⟩
    rw [hname]
    exact isSigned_special hname
  · split
    · rw [String.toList_append]
      exact .minus (.numeral (isNumeral_positional _))
    · exact .plain (.numeral (isNumeral_positional _))

theorem isSigned_toString (n : Int) : IsSigned (toString n).toList := by
  cases n with
  | ofNat n =>
      have htext : (toString (Int.ofNat n)).toList = Nat.toDigits 10 n := by
        change (Nat.repr n).toList = _
        simp [Nat.repr]
      exact htext ▸ .plain (.numeral (isNumeral_toDigits n))
  | negSucc n =>
      have htext : (toString (Int.negSucc n)).toList = '-' :: Nat.toDigits 10 (n + 1) := by
        change ("-" ++ Nat.repr (n + 1)).toList = _
        simp [Nat.repr]
      exact htext ▸ .minus (.numeral (isNumeral_toDigits (n + 1)))

theorem isSigned_literal (x : Float) : IsSigned (Notation.literal x).toList := by
  unfold Notation.literal
  split
  · rename_i hspecial
    exact isSigned_special hspecial
  · split
    · exact isSigned_toString _
    · exact isSigned_plain x
  · exact isSigned_plain x

end TraceLoom.Script
