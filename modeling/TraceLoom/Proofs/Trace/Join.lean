import TraceLoom.Proofs.Trace.Order

/-!
Merging as a partial operation: the merged trace if everything fitted, and nothing otherwise.
Two nodes join if their heads and parameters fit and their parts join one by one.
-/

namespace TraceLoom

namespace Merged

variable {α β γ : Type}

/-- The result of a merge in which everything fitted. -/
def toOption (m : Merged α) : Option α :=
  match m.mismatch with
  | none => some m.result
  | some _ => none

@[simp] theorem toOption_done (a : α) : (done a).toOption = some a := rfl

@[simp] theorem toOption_stopped (a : α) (m : Mismatch) : (stopped a m).toOption = none := rfl

@[simp] theorem toOption_map (f : α → β) (m : Merged α) :
    (m.map f).toOption = m.toOption.map f := by
  obtain ⟨result, mismatch⟩ := m
  cases mismatch <;> rfl

@[simp] theorem toOption_both (f : α → β → γ) (first : Merged α) (old : β) (second : Merged β) :
    (both f first old second).toOption =
      first.toOption.bind fun a => second.toOption.map (f a) := by
  obtain ⟨result, mismatch⟩ := first
  obtain ⟨result', mismatch'⟩ := second
  cases mismatch <;> cases mismatch' <;> rfl

@[simp] theorem toOption_named (expected found : String) (old : α) (rest : Merged α) :
    (named expected found old rest).toOption =
      if expected = found then rest.toOption else none := by
  by_cases h : expected = found <;> simp [named, h]

end Merged

namespace Trace

/-- The trace that says what both traces say, if they fit together. -/
def join (t u : Trace) : Option Trace :=
  (mergeIn t u).toOption

def joinBody (b c : List Trace) : Option (List Trace) :=
  (mergeBody b.length c.length b c).toOption

/-- Joins two lists of one length place by place. -/
def joinAll {α : Type} (f : α → α → Option α) : List α → List α → Option (List α)
  | [], [] => some []
  | a :: as, b :: bs => (f a b).bind fun c => (joinAll f as bs).map (c :: ·)
  | _, _ => none

/-- Joins the fields of the first record with those of the same name in the second. -/
def joinFields : Fields Trace → Fields Trace → Option (Fields Trace)
  | [], _ => some []
  | (key, t) :: fs, gs =>
      (match gs.get? key with
        | some u => join t u
        | none => some t).bind fun m => (joinFields fs gs).map ((key, m) :: ·)

/-- The names of the parameters as they are compared. -/
def joinedParams (t : Trace) : String :=
  ", ".intercalate t.params

/-! ## Equations -/

@[simp] theorem joinedParams_withParts (p : Parts) (t : Trace) :
    (t.withParts p).joinedParams = t.joinedParams := by
  simp [joinedParams]

theorem merge_eq_ok_iff {t u m : Trace} : merge t u = .ok m ↔ join t u = some m := by
  simp only [merge, join, Merged.toOption]
  split <;> simp_all

@[simp] theorem join_hole_right (t : Trace) : join t hole = some t := by
  cases t <;> rfl

@[simp] theorem join_hole_left (u : Trace) : join hole u = some u := by
  cases u <;> rfl

theorem mergeBody_cons_cons {n m : Nat} {t u : Trace} {ts us : List Trace} (ht : t ≠ hole)
    (hu : u ≠ hole) :
    mergeBody n m (t :: ts) (u :: us) =
      .both List.cons (mergeIn t u) ts (mergeBody n m ts us) := by
  rw [mergeBody]
  · exact ht
  · exact hu

theorem toOption_mergeBody (n m : Nat) (b c : List Trace) :
    (mergeBody n m b c).toOption = joinBody b c := by
  suffices h : ∀ n' m', (mergeBody n m b c).toOption = (mergeBody n' m' b c).toOption from
    h b.length c.length
  intro n' m'
  induction c generalizing b with
  | nil => cases b with
      | nil => rfl
      | cons t ts => cases t <;> rfl
  | cons u us ih => cases b with
      | nil => cases u <;> rfl
      | cons t ts =>
          by_cases ht : t = hole
          · subst ht
            cases u <;> rfl
          by_cases hu : u = hole
          · subst hu
            cases t <;> rfl
          simp [mergeBody_cons_cons ht hu, ih]

theorem joinAll_eq_none {α : Type} {f : α → α → Option α} {as bs : List α}
    (h : as.length ≠ bs.length) : joinAll f as bs = none := by
  induction as generalizing bs with
  | nil => cases bs with
      | nil => simp at h
      | cons b bs => rfl
  | cons a as ih => cases bs with
      | nil => rfl
      | cons b bs => simp [joinAll, ih (by simpa using h)]

theorem length_of_joinAll {α : Type} {f : α → α → Option α} {as bs cs : List α}
    (h : joinAll f as bs = some cs) : as.length = bs.length := by
  by_contra hne
  simp [joinAll_eq_none hne] at h

theorem toOption_mergeItems {ts us : List Trace} (h : ts.length = us.length) :
    (mergeItems ts us).toOption = joinAll join ts us := by
  induction ts generalizing us with
  | nil => cases us with
      | nil => rfl
      | cons u us => simp at h
  | cons t ts ih => cases us with
      | nil => simp at h
      | cons u us => simp [mergeItems, joinAll, join, ih (by simpa using h)]

/-! ## Statement lists -/

@[simp] theorem joinBody_nil_nil : joinBody [] [] = some [] := rfl

@[simp] theorem joinBody_open_left (c : List Trace) : joinBody [hole] c = some c := by
  cases c with
  | nil => rfl
  | cons u us => cases u <;> rfl

@[simp] theorem joinBody_open_right {b : List Trace} (hb : IsBody b) :
    joinBody b [hole] = some b := by
  cases hb with
  | nil => rfl
  | openEnd => rfl
  | @cons t ts ht _ => cases t <;> first | rfl | exact absurd rfl ht

theorem joinBody_nil_cons {u : Trace} {us : List Trace} (hu : u ≠ hole) :
    joinBody [] (u :: us) = none := by
  cases u <;> first | rfl | exact absurd rfl hu

theorem joinBody_cons_nil {t : Trace} {ts : List Trace} (ht : t ≠ hole) :
    joinBody (t :: ts) [] = none := by
  cases t <;> first | rfl | exact absurd rfl ht

theorem joinBody_cons_cons {t u : Trace} {ts us : List Trace} (ht : t ≠ hole) (hu : u ≠ hole) :
    joinBody (t :: ts) (u :: us) =
      (join t u).bind fun m => (joinBody ts us).map (m :: ·) := by
  rw [joinBody, mergeBody_cons_cons ht hu]
  simp [join, toOption_mergeBody]

/-! ## Records -/

theorem joinFields_cons_of_not_mem {key : String} {u : Trace} {fs gs : Fields Trace}
    (h : key ∉ fs.keys) : joinFields fs ((key, u) :: gs) = joinFields fs gs := by
  induction fs with
  | nil => rfl
  | cons f fs ih =>
      simp only [Fields.keys, List.map_cons, List.mem_cons, not_or] at h
      simp [joinFields, Fields.get?, h.1, ih h.2]

theorem joinFields_cons_eq_none {key : String} {t u : Trace} {fs gs : Fields Trace}
    (ht : fs.get? key = some t) (h : join t u = none) :
    joinFields fs ((key, u) :: gs) = none := by
  induction fs with
  | nil => simp [Fields.get?] at ht
  | cons f fs ih =>
      obtain ⟨name, t'⟩ := f
      by_cases hname : name = key
      · obtain rfl : t' = t := by simpa [Fields.get?, hname] using ht
        simp [joinFields, Fields.get?, hname, h]
      · have hrest : Fields.get? key fs = some t := by simpa [Fields.get?, hname] using ht
        simp [joinFields, ih hrest]

theorem joinFields_insert {key : String} {t u m : Trace} {fs gs : Fields Trace}
    (hfs : fs.keys.Nodup) (hgs : key ∉ gs.keys) (ht : fs.get? key = some t)
    (h : join t u = some m) :
    joinFields (fs.insert key m) gs = joinFields fs ((key, u) :: gs) := by
  induction fs with
  | nil => simp [Fields.get?] at ht
  | cons f fs ih =>
      obtain ⟨name, t'⟩ := f
      simp only [Fields.keys, List.map_cons, List.nodup_cons] at hfs
      by_cases hname : name = key
      · subst hname
        obtain rfl : t' = t := by simpa [Fields.get?] using ht
        have hnone : gs.get? name = none := Fields.get?_eq_none_iff.mpr hgs
        have hskip : joinFields fs ((name, u) :: gs) = joinFields fs gs :=
          joinFields_cons_of_not_mem hfs.1
        simp [Fields.insert, joinFields, Fields.get?, hnone, h, hskip]
      · have hrest : Fields.get? key fs = some t := by simpa [Fields.get?, hname] using ht
        simp [Fields.insert, hname, joinFields, Fields.get?, Ne.symm hname, ih hfs.2 hrest]

/-- Merging goes through the second record and writes into the first; what comes out is the first
record with every field joined. -/
theorem toOption_mergeFields {fs gs : Fields Trace} (hfs : fs.keys.Nodup) (hgs : gs.keys.Nodup) :
    (mergeFields fs gs).toOption = joinFields fs gs := by
  induction gs generalizing fs with
  | nil =>
      clear hfs hgs
      induction fs with
      | nil => rfl
      | cons f fs ih =>
          simp only [mergeFields, Merged.toOption_done] at ih
          simp [mergeFields, joinFields, Fields.get?, ← ih]
  | cons g gs ih =>
      obtain ⟨key, u⟩ := g
      simp only [Fields.keys, List.map_cons, List.nodup_cons] at hgs
      simp only [mergeFields]
      cases ht : Fields.get? key fs with
      | none =>
          rw [joinFields_cons_of_not_mem (Fields.get?_eq_none_iff.mp ht)]
          exact ih hfs hgs.2
      | some t =>
          have hmem : key ∈ fs.keys := Fields.exists_get?_iff_mem_keys.mp ⟨t, ht⟩
          cases hm : (mergeIn t u).mismatch with
          | some m =>
              have hjoin : join t u = none := by simp [join, Merged.toOption, hm]
              simp [hm, joinFields_cons_eq_none ht hjoin]
          | none =>
              have hjoin : join t u = some (mergeIn t u).result := by
                simp [join, Merged.toOption, hm]
              rw [← joinFields_insert hfs hgs.1 ht hjoin]
              simp only [hm]
              exact ih (by rwa [Fields.keys_insert_of_mem _ hmem]) hgs.2

theorem sameKeys_nil : sameKeys [] [] = true := rfl

theorem sameKeys_iff {fs gs : Fields Trace} (hgs : gs.keys.Nodup) :
    sameKeys fs gs = true ↔ gs.keys.Perm fs.keys := by
  simp only [sameKeys, Bool.and_eq_true, beq_iff_eq, List.all_eq_true, Fields.has_eq_true_iff]
  constructor
  · rintro ⟨hlength, hsub⟩
    refine Fields.keys_perm_of_subset hgs hlength fun key hkey => ?_
    obtain ⟨g, hg, rfl⟩ := List.mem_map.mp hkey
    exact hsub g hg
  · intro hperm
    refine ⟨by simpa [Fields.keys] using hperm.length_eq.symm, fun g hg => ?_⟩
    exact hperm.subset (Fields.mem_keys_of_mem hg)

/-! ## Nodes -/

/-- The parts of two nodes join one by one to those of a third. -/
structure PartsJoin (p q r : Parts) : Prop where
  exps : joinAll join p.exps q.exps = some r.exps
  bodies : joinAll joinBody p.bodies q.bodies = some r.bodies
  keys : sameKeys p.fields q.fields = true
  fields : joinFields p.fields q.fields = some r.fields

theorem partsJoin_iff {p q r : Parts} :
    PartsJoin p q r ↔
      joinAll join p.exps q.exps = some r.exps ∧
        joinAll joinBody p.bodies q.bodies = some r.bodies ∧
          sameKeys p.fields q.fields = true ∧ joinFields p.fields q.fields = some r.fields :=
  ⟨fun ⟨he, hb, hk, hf⟩ => ⟨he, hb, hk, hf⟩, fun ⟨he, hb, hk, hf⟩ => ⟨he, hb, hk, hf⟩⟩

theorem Parts.exists {P : Parts → Prop} :
    (∃ p, P p) ↔ ∃ exps bodies fields, P ⟨exps, bodies, fields⟩ :=
  ⟨fun ⟨⟨e, b, f⟩, h⟩ => ⟨e, b, f, h⟩, fun ⟨e, b, f, h⟩ => ⟨⟨e, b, f⟩, h⟩⟩

theorem SameKind.of_join {t u m : Trace} (ht : t ≠ .hole) (hu : u ≠ .hole)
    (h : join t u = some m) : SameKind t u := by
  refine .of_mergeIn ht hu ?_
  rw [join, Merged.toOption] at h
  split at h
  · assumption
  · cases h

/-- Two nodes join if their heads and parameters fit and their parts join. -/
theorem join_eq_some_iff {t u m : Trace} (ht : t ≠ hole) (hu : u ≠ hole)
    (htkeys : t.parts.fields.keys.Nodup) (hukeys : u.parts.fields.keys.Nodup) :
    join t u = some m ↔
      t.head = u.head ∧ t.joinedParams = u.joinedParams ∧
        ∃ p, PartsJoin t.parts u.parts p ∧ t.withParts p = m := by
  by_cases hkind : SameKind t u
  · cases hkind
    case assign x y t u =>
      cases x <;> cases y <;>
        simp [join, mergeIn, mergeTarget, apply_ite Merged.toOption, head, partsJoin_iff,
          Option.bind_eq_some_iff, Parts.exists, joinAll, joinFields, sameKeys_nil, joinedParams,
          params, parts, Target.exps, withParts, Parts.exp]
      all_goals grind
    case hole => exact absurd rfl ht
    all_goals
      simp [join, mergeIn, apply_ite Merged.toOption, head, toOption_mergeBody,
        Option.bind_eq_some_iff, partsJoin_iff, Parts.exists, joinAll,
        joinFields, sameKeys_nil, joinedParams, params, parts, withParts, Parts.exp,
        Parts.body, code_eq_iff]
    all_goals grind [toOption_mergeItems, length_of_joinAll, toOption_mergeFields, parts]
  · exact iff_of_false (fun h => hkind (.of_join ht hu h)) fun h => hkind (.of_head_eq h.1)

end Trace

end TraceLoom
