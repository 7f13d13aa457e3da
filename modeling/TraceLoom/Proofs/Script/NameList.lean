import TraceLoom.Script.Printer

/-!
Names in a row.  A name holds no comma, so a list of names can be read off the text in which they
stand one after another.
-/

namespace TraceLoom.Script

theorem ne_comma_of_isNameText {p : String} (hp : isNameText p = true) {c : Char}
    (hc : c ∈ p.toList) : c ≠ ',' := by
  unfold isNameText at hp
  rintro rfl
  split at hp
  · simp at hp
  · rename_i d rest heq
    rw [heq] at hc
    simp only [Bool.and_eq_true, List.all_eq_true] at hp
    rcases List.mem_cons.mp hc with rfl | hc
    · exact absurd hp.1 (by decide)
    · exact absurd (hp.2 _ hc) (by decide)

theorem toList_ne_nil_of_isNameText {p : String} (hp : isNameText p = true) : p.toList ≠ [] := by
  intro h
  simp [isNameText, h] at hp

/-- What stands behind the first name in a list of names. -/
def commaRest : List String → List Char
  | [] => []
  | p :: ps => ',' :: ' ' :: (", ".intercalate (p :: ps)).toList

theorem toList_intercalate_cons (p : String) (ps : List String) :
    (", ".intercalate (p :: ps)).toList = p.toList ++ commaRest ps := by
  cases ps <;> simp [commaRest, String.intercalate_cons_cons]

/-- Names in a row can be told apart. -/
theorem intercalate_injective {ps qs : List String} (hp : ∀ p ∈ ps, isNameText p = true)
    (hq : ∀ q ∈ qs, isNameText q = true) (h : ", ".intercalate ps = ", ".intercalate qs) :
    ps = qs := by
  induction ps generalizing qs with
  | nil => cases qs with
      | nil => rfl
      | cons q qs =>
          have hlist := congrArg String.toList h
          rw [toList_intercalate_cons] at hlist
          simp [toList_ne_nil_of_isNameText (hq q (by simp))] at hlist
  | cons p ps ih => cases qs with
      | nil =>
          have hlist := congrArg String.toList h
          rw [toList_intercalate_cons] at hlist
          simp [toList_ne_nil_of_isNameText (hp p (by simp))] at hlist
      | cons q qs =>
          have hlist := congrArg String.toList h
          rw [toList_intercalate_cons, toList_intercalate_cons] at hlist
          have hfirst : ∀ (p : String) (ps : List String), isNameText p = true →
              (p.toList ++ commaRest ps).takeWhile (· ≠ ',') = p.toList := by
            intro p ps hp
            rw [List.takeWhile_append_of_pos]
            · cases ps <;> simp [commaRest]
            · intro c hc
              simpa using ne_comma_of_isNameText hp hc
          have hpq : p = q := by
            apply String.toList_injective
            rw [← hfirst p ps (hp p (by simp)), hlist, hfirst q qs (hq q (by simp))]
          subst hpq
          have hrest := List.append_cancel_left hlist
          congr 1
          cases ps with
          | nil => cases qs with
              | nil => rfl
              | cons q' qs => simp [commaRest] at hrest
          | cons p' ps => cases qs with
              | nil => simp [commaRest] at hrest
              | cons q' qs =>
                  refine ih (fun r hr => hp r (by simp [hr])) (fun r hr => hq r (by simp [hr])) ?_
                  simp only [commaRest, List.cons.injEq, true_and] at hrest
                  exact String.toList_injective hrest

end TraceLoom.Script
