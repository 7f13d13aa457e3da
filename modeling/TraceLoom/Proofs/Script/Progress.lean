import TraceLoom.Proofs.Script.Lexing

/-!
Every token takes something off the text.
-/

namespace TraceLoom.Script

open TraceLoom.Numeric TraceLoom.Text

namespace Cursor

/-- How much is left to read. -/
def size (c : Cursor) : Nat :=
  c.text.length

theorem size_skipFrom_le (gap : Gap) (text : List Char) (pos : Position) :
    (skipFrom gap text pos).size ≤ text.length := by
  fun_induction skipFrom gap text pos with
  | case1 => exact Nat.le_refl _
  | case4 => exact Nat.le_refl _
  | case6 => exact Nat.le_refl _
  | _ => simp only [List.length_cons]; omega

theorem size_skip_le (c : Cursor) : c.skip.size ≤ c.size :=
  size_skipFrom_le .blanks c.text c.pos

end Cursor

namespace Token

theorem length_dropWhile_le {α : Type} (p : α → Bool) (xs : List α) :
    (xs.dropWhile p).length ≤ xs.length :=
  (List.dropWhile_sublist p).length_le

theorem exponent?_length {text lexeme rest : List Char} {power : Int}
    (h : exponent? text = some (lexeme, power, rest)) : rest.length ≤ text.length := by
  unfold exponent? at h
  grind [length_dropWhile_le]

/-- What is left behind the exponent of a number, if it has one. -/
def afterExponent (text : List Char) : List Char :=
  match exponent? text with
  | some (_, _, rest) => rest
  | none => text

theorem numeral_rest (text : List Char) :
    (numeral text).2.2 = afterExponent (fraction (text.dropWhile Char.isDigit)).2 := by
  have hparts : numeral text =
      match exponent? (fraction (text.dropWhile Char.isDigit)).2 with
      | some (lexeme, power, rest) => _
      | none => _ := rfl
  rw [hparts, afterExponent]
  cases exponent? (fraction (text.dropWhile Char.isDigit)).2 <;> rfl

theorem fraction_length (text : List Char) : (fraction text).2.length ≤ text.length := by
  unfold fraction
  split
  · split
    · exact Nat.le_refl _
    · exact Nat.le_succ_of_le (length_dropWhile_le _ _)
  · exact Nat.le_refl _

theorem afterExponent_length (text : List Char) : (afterExponent text).length ≤ text.length := by
  unfold afterExponent
  split
  · rename_i hexp
    exact exponent?_length hexp
  · exact Nat.le_refl _

theorem numeral_length {first : Char} {text : List Char} (h : first.isDigit = true) :
    (numeral (first :: text)).2.2.length < (first :: text).length := by
  rw [numeral_rest, List.dropWhile_cons_of_pos h]
  exact Nat.lt_succ_of_le (Nat.le_trans (afterExponent_length _)
    (Nat.le_trans (fraction_length _) (length_dropWhile_le _ _)))

theorem literal?_length {quote : Char} {text inner rest : List Char}
    (h : literal? quote text = some (inner, rest)) : rest.length < text.length := by
  fun_induction literal? quote text generalizing inner with
  | case1 => cases h
  | case2 c text ih =>
      obtain ⟨parts, hparts, heq⟩ := Option.map_eq_some_iff.mp h
      cases heq
      have := ih hparts
      simp only [List.length_cons]
      omega
  | case3 => cases h; simp
  | case4 => cases h
  | case5 c text _ _ _ ih =>
      obtain ⟨parts, hparts, heq⟩ := Option.map_eq_some_iff.mp h
      cases heq
      have := ih hparts
      simp only [List.length_cons]
      omega

theorem scan?_size {c rest : Cursor} {t : Token} (h : scan? c = some (t, rest)) :
    rest.size < c.size := by
  unfold scan? at h
  split at h
  · cases h
  · rename_i first text htext
    have hsize : c.size = text.length + 1 := by rw [Cursor.size, htext, List.length_cons]
    rw [htext] at h
    split at h
    · rename_i hword
      cases h
      have hstart : isWordChar first = true := by
        rw [isWordChar, show isNameText.starts first = true from hword, Bool.true_or]
      rw [hsize]
      change ((first :: text).dropWhile isWordChar).length < _
      rw [List.dropWhile_cons_of_pos hstart]
      exact Nat.lt_succ_of_le (length_dropWhile_le _ _)
    · split at h
      · rename_i hdigit
        cases h
        rw [hsize]
        exact numeral_length hdigit
      · split at h
        · obtain ⟨parts, hparts, heq⟩ := Option.map_eq_some_iff.mp h
          cases heq
          rw [hsize]
          exact Nat.lt_succ_of_lt (literal?_length hparts)
        · obtain ⟨s, hs, heq⟩ := Option.map_eq_some_iff.mp h
          cases heq
          have hpos := symbols_ne_empty s (List.mem_of_find?_eq_some hs)
          rw [hsize]
          change ((first :: text).drop s.length).length < _
          rw [List.length_drop, List.length_cons]
          omega

end Token

namespace Cursor

theorem next?_size {c : Cursor} {l : Lexeme} (h : c.next? = some l) : l.rest.size < c.size := by
  obtain ⟨parts, hparts, rfl⟩ := Option.map_eq_some_iff.mp h
  exact Nat.lt_of_lt_of_le (Token.scan?_size hparts) c.size_skip_le

end Cursor

end TraceLoom.Script
