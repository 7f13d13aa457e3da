import TraceLoom.Proofs.Trace.Path

/-!
Traces as the recorder leaves them: holes and breaks stand only at the end of statement lists.
Merging a statement that has just begun into such a trace changes nothing, whether it fits or not.
-/

namespace TraceLoom.Trace

def isBreak : Trace → Bool
  | breakTo _ _ => true
  | _ => false

/-- Whether a trace can stand only at the end of a statement list. -/
def isEnding (t : Trace) : Bool :=
  t.isHole || t.isBreak

/-- Whether holes and breaks stand only at the end of a list. -/
def endingsLast (b : List Trace) : Bool :=
  b.dropLast.all fun s => !s.isEnding

/-- Whether holes and breaks of a node stand only at the ends of its statement lists, and no two
of its fields have one name. -/
def isTidy (t : Trace) : Bool :=
  hasDistinctKeys t && t.parts.exps.all (fun s => !s.isEnding) &&
    t.parts.bodies.all endingsLast && t.parts.fields.all fun f => !f.2.isEnding

/-- Holes and breaks stand only at the ends of statement lists. -/
def Tidy (t : Trace) : Prop :=
  every isTidy t = true

instance (t : Trace) : Decidable (Tidy t) :=
  inferInstanceAs (Decidable (_ = true))

theorem every_mono {p q : Trace → Bool} (hpq : ∀ t, p t = true → q t = true) {t : Trace}
    (h : every p t = true) : every q t = true := by
  induction t using induction with
  | node t ih =>
      obtain ⟨hnode, hchildren⟩ := every_eq_true_iff.mp h
      exact every_eq_true_iff.mpr ⟨hpq t hnode, fun s hs => ih s hs (hchildren s hs)⟩

theorem holesEnd_of_endingsLast {b : List Trace} (h : endingsLast b = true) :
    holesEnd b = true := by
  simp only [endingsLast, holesEnd, List.all_eq_true] at h ⊢
  intro s hs
  have hs' := h s hs
  simp_all [isEnding]

theorem Tidy.wellFormed {t : Trace} (h : Tidy t) : WellFormed t := by
  refine ⟨every_mono (fun s hs => ?_) h, every_mono (fun s hs => ?_) h⟩
  · simp only [isTidy, Bool.and_eq_true] at hs
    exact hs.1.1.1
  · simp only [isTidy, Bool.and_eq_true, List.all_eq_true] at hs
    exact List.all_eq_true.mpr fun b hb => holesEnd_of_endingsLast (hs.1.2 b hb)

theorem isEnding_eq_of_head_eq {t u : Trace} (h : t.head = u.head) : t.isEnding = u.isEnding := by
  cases SameKind.of_head_eq h <;> rfl

theorem isTidy_block_iff {b : List Trace} : isTidy (block b) = true ↔ endingsLast b = true := by
  simp [isTidy, hasDistinctKeys, parts, Fields.keys]

theorem endingsLast_set {b : List Trace} {i : Nat} {t u : Trace} (h : endingsLast b = true)
    (ht : b[i]? = some t) (hu : u.head = t.head) : endingsLast (b.set i u) = true := by
  simp only [endingsLast, List.all_eq_true] at h ⊢
  intro s hs
  rw [List.mem_iff_getElem?] at hs
  obtain ⟨j, hs⟩ := hs
  rw [List.getElem?_dropLast, List.length_set] at hs
  split at hs
  · rename_i hj
    by_cases hij : i = j
    · subst hij
      have hlt : i < b.length := by omega
      obtain rfl : u = s := by simpa [List.getElem?_set_self hlt] using hs
      rw [isEnding_eq_of_head_eq hu]
      refine h t (List.mem_iff_getElem?.mpr ⟨i, ?_⟩)
      rw [List.getElem?_dropLast, if_pos hj, ht]
    · refine h s (List.mem_iff_getElem?.mpr ⟨j, ?_⟩)
      rw [List.getElem?_dropLast, if_pos hj]
      simpa [List.getElem?_set_ne hij] using hs
  · cases hs

theorem isLocal_isTidy : IsLocal isTidy where
  body {t b} ht hb := by
    simp only [isTidy, Bool.and_eq_true, List.all_eq_true] at ht
    exact isTidy_block_iff.mpr (ht.1.2 b hb)
  setPart {part t b c} hb ht hc := by
    have hc' := isTidy_block_iff.mp hc
    fun_cases part? part t <;>
      simp_all [part?, setPart, isTidy, hasDistinctKeys, parts, Fields.keys, isEnding, isHole,
        isBreak]
  set hb ht hu := isTidy_block_iff.mpr (endingsLast_set (isTidy_block_iff.mp hb) ht hu)

theorem tidy_block_iff {b : List Trace} :
    Tidy (block b) ↔ endingsLast b = true ∧ ∀ s ∈ b, Tidy s := by
  rw [Tidy, every_block_iff, isTidy_block_iff]
  rfl

theorem endingsLast_append_iff {b : List Trace} {t : Trace} :
    endingsLast (b ++ [t]) = true ↔ ∀ s ∈ b, s.isEnding = false := by
  simp [endingsLast]

/-- Before the hole of a list that goes on there are no holes. -/
theorem Tidy.ne_hole_of_append {b : List Trace} (h : Tidy (block (b ++ [hole]))) :
    ∀ s ∈ b, s ≠ hole := by
  rintro s hs rfl
  have hend := endingsLast_append_iff.mp (tidy_block_iff.mp h).1 hole hs
  simp [isEnding, isHole] at hend

/-- A hole or a break is the last statement of its list. -/
theorem length_of_isEnding {b : List Trace} {i : Nat} {t : Trace} (hb : endingsLast b = true)
    (ht : b[i]? = some t) (hend : t.isEnding = true) : b.length = i + 1 := by
  have hlt : i < b.length := (List.getElem?_eq_some_iff.mp ht).1
  by_contra hne
  have hmem : t ∈ b.dropLast := by
    refine List.mem_iff_getElem?.mpr ⟨i, ?_⟩
    rw [List.getElem?_dropLast, if_pos (by omega), ht]
  have hnot := List.all_eq_true.mp hb t hmem
  simp [hend] at hnot

/-! ## What was recorded stays -/

theorem result_both {α β γ : Type} {f : α → β → γ} {first : Merged α} {old : β}
    {second : Merged β} (h : second.result = old) :
    (Merged.both f first old second).result = f first.result old := by
  unfold Merged.both
  split
  · rfl
  · rw [h]

theorem result_named {α : Type} {expected found : String} {old : α} {rest : Merged α}
    (h : rest.result = old) : (Merged.named expected found old rest).result = old := by
  unfold Merged.named
  split
  · exact h
  · rfl

theorem result_map {α β : Type} (f : α → β) (m : Merged α) : (m.map f).result = f m.result :=
  rfl

theorem result_ite {α : Type} {c : Prop} [Decidable c] {a b : Merged α} {old : α}
    (ha : a.result = old) (hb : b.result = old) : (if c then a else b).result = old := by
  split
  · exact ha
  · exact hb

/-- A statement list of which nothing is known. -/
def isOpenBody : List Trace → Bool
  | [hole] => true
  | _ => false

/-- Whether the statement lists of a node have only begun. -/
def hasOpenBodies (t : Trace) : Bool :=
  t.parts.bodies.all isOpenBody

theorem result_mergeItems {ts us : List Trace}
    (h : ∀ t ∈ ts, ∀ u ∈ us, (mergeIn t u).result = t) : (mergeItems ts us).result = ts := by
  induction ts generalizing us with
  | nil => cases us <;> rfl
  | cons t ts ih => cases us with
      | nil => rfl
      | cons u us =>
          rw [mergeItems, result_both (ih fun t' ht' u' hu' => h t' (by simp [ht']) u'
            (by simp [hu'])), h t (by simp) u (by simp)]

theorem result_mergeFields {fs us : List (String × Trace)}
    (h : ∀ f ∈ fs, ∀ u ∈ us, (mergeIn f.2 u.2).result = f.2) :
    (mergeFields fs us).result = fs := by
  induction us with
  | nil => rfl
  | cons u us ih =>
      obtain ⟨key, u⟩ := u
      have ih := ih fun f hf u' hu' => h f hf u' (by simp [hu'])
      cases ht : Fields.get? key fs with
      | none => simpa [mergeFields, ht] using ih
      | some t =>
          have hresult := h _ (Fields.mem_of_get? ht) _ List.mem_cons_self
          simp only [mergeFields, ht, hresult, Fields.insert_self ht]
          split
          · rfl
          · exact ih

theorem result_mergeBody {n m : Nat} {b c : List Trace} (hb : IsBody b)
    (hc : isOpenBody c = true) : (mergeBody n m b c).result = b := by
  fun_cases isOpenBody c with
  | case1 => cases hb with
      | nil => rfl
      | openEnd => rfl
      | @cons t ts ht _ => cases t <;> first | rfl | exact absurd rfl ht
  | case2 => simp [isOpenBody] at hc

theorem result_mergeTarget {x y : Target}
    (h : ∀ s ∈ x.exps, ∀ v ∈ y.exps, (mergeIn s v).result = s) : (mergeTarget x y).result = x := by
  fun_cases mergeTarget x y <;>
    simp_all [Target.exps, result_named, result_map, result_both, Merged.done, Merged.stopped]

/-- Merging a statement that has just begun never changes what was recorded. -/
theorem result_mergeIn {t u : Trace} (ht : Tidy t) (hne : t ≠ hole)
    (hu : every hasOpenBodies u = true) : (mergeIn t u).result = t := by
  induction t using induction generalizing u with
  | node t ih =>
      obtain ⟨hnode, hchildren⟩ := every_eq_true_iff.mp ht
      obtain ⟨hopen, huchildren⟩ := every_eq_true_iff.mp hu
      have hbody : ∀ b ∈ t.parts.bodies, IsBody b := fun b => ht.wellFormed.isBody
      simp only [isTidy, Bool.and_eq_true, List.all_eq_true] at hnode
      have hexp : ∀ s ∈ t.parts.exps, ∀ v ∈ u.parts.exps, (mergeIn s v).result = s := by
        intro s hs v hv
        have hs' := mem_children_of_exps hs
        have hend := hnode.1.1.2 s hs
        exact ih s hs' (hchildren s hs') (by rintro rfl; simp [isEnding, isHole] at hend)
          (huchildren v (mem_children_of_exps hv))
      have hfield : ∀ f ∈ t.parts.fields, ∀ g ∈ u.parts.fields,
          (mergeIn f.2 g.2).result = f.2 := by
        intro f hf g hg
        have hf' := mem_children_of_fields hf
        have hend := hnode.2 f hf
        exact ih f.2 hf' (hchildren f.2 hf')
          (fun heq => by simp [heq, isEnding, isHole] at hend)
          (huchildren g.2 (mem_children_of_fields hg))
      clear ih ht hu hnode hchildren huchildren
      fun_cases mergeIn t u with
      | case19 x t y u =>
          have htarget : (mergeTarget x y).result = x := result_mergeTarget fun s hs v hv =>
            hexp s (by simp [parts, hs]) v (by simp [parts, hv])
          rw [result_both (hexp t (by simp [parts]) u (by simp [parts])), htarget]
      | case23 event arg params record b event' arg' params' record' b' =>
          have hbody' : (mergeBody b.length b'.length b b').result = b :=
            result_mergeBody (hbody b List.mem_cons_self) (by simpa [hasOpenBodies, parts] using hopen)
          have harg : (mergeIn arg arg').result = arg :=
            hexp arg (by simp [parts]) arg' (by simp [parts])
          have hrecord : (mergeIn record record').result = record :=
            hexp record (by simp [parts]) record' (by simp [parts])
          refine result_named (result_named ?_)
          rw [result_both hbody', result_both hrecord, harg]
      | case26 fs fs' _ => exact congrArg closure (result_mergeFields hfield)
      | case28 fs fs' _ => exact congrArg object (result_mergeFields hfield)
      | case30 ts us _ => exact congrArg array (result_mergeItems hexp)
      | case33 t m ts u m' us =>
          have hitems : (mergeItems ts us).result = ts := result_mergeItems fun s hs v hv =>
            hexp s (by simp [parts, hs]) v (by simp [parts, hv])
          refine result_named ?_
          rw [result_both (result_ite hitems rfl), hexp t (by simp [parts]) u (by simp [parts])]
      | case34 event ts event' us =>
          have hitems : (mergeItems ts us).result = ts := result_mergeItems hexp
          exact result_named (congrArg (primitive event) (result_ite hitems rfl))
      | _ =>
          simp_all [hasOpenBodies, parts, result_both, result_named, result_map,
            result_mergeBody, Merged.done, Merged.stopped]

/-! ## Plain expressions -/

/-- Whether a node is that of an expression: neither a hole nor a statement. -/
def isExpression : Trace → Bool
  | hole | bind _ _ | assign _ _ | block _ | ifElse _ _ _ | whileDo _ _ | callback _ _ _ _ _
  | label _ _ | breakTo _ _ => false
  | _ => true

/-- An expression without holes and statements in it. -/
def Plain (t : Trace) : Prop :=
  every (fun s => isExpression s && hasDistinctKeys s) t = true

instance (t : Trace) : Decidable (Plain t) :=
  inferInstanceAs (Decidable (_ = true))

theorem isEnding_eq_false_of_isExpression {t : Trace} (h : isExpression t = true) :
    t.isEnding = false := by
  cases t <;> simp_all [isExpression, isEnding, isHole, isBreak]

theorem bodies_eq_nil_of_isExpression {t : Trace} (h : isExpression t = true) :
    t.parts.bodies = [] := by
  cases t <;> simp_all [isExpression, parts]

namespace Plain

variable {t : Trace}

theorem isExpression (h : Plain t) : isExpression t = true := by
  have hnode := (every_eq_true_iff.mp h).1
  simp only [Bool.and_eq_true] at hnode
  exact hnode.1

theorem isEnding (h : Plain t) : t.isEnding = false :=
  isEnding_eq_false_of_isExpression h.isExpression

theorem hasOpenBodies (h : Plain t) : every hasOpenBodies t = true := by
  refine every_mono (fun s hs => ?_) h
  simp only [Bool.and_eq_true] at hs
  simp [Trace.hasOpenBodies, bodies_eq_nil_of_isExpression hs.1]

theorem tidy (h : Plain t) : Tidy t := by
  induction t using induction with
  | node t ih =>
      obtain ⟨hnode, hchildren⟩ := every_eq_true_iff.mp h
      simp only [Bool.and_eq_true] at hnode
      refine every_eq_true_iff.mpr ⟨?_, fun s hs => ih s hs (hchildren s hs)⟩
      simp only [isTidy, Bool.and_eq_true, List.all_eq_true, hnode.2, true_and,
        bodies_eq_nil_of_isExpression hnode.1]
      refine ⟨⟨fun s hs => ?_, by simp⟩, fun f hf => ?_⟩
      · simp [isEnding (hchildren s (mem_children_of_exps hs))]
      · simp [isEnding (hchildren f.2 (mem_children_of_fields hf))]

end Plain

end TraceLoom.Trace
