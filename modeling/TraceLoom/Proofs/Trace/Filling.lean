import Mathlib.Logic.Function.Iterate
import TraceLoom.Proofs.Trace.LeastUpperBound
import TraceLoom.Proofs.Trace.Tidy

/-!
What a merge leaves behind when it stops.  A merge that finds two traces apart has already written
into the first of them; it has only filled holes there, with what stands in the second, and so it
finds them apart again however often it is repeated.
-/

namespace TraceLoom.Trace

/-! ## Filling holes -/

/-- A trace stands somewhere in another one, or is the other one. -/
inductive Within (b : Trace) : Trace → Prop
  | whole : Within b b
  | child {s t : Trace} : Within b t → s ∈ t.children → Within b s

theorem Within.wellFormed {b t : Trace} (h : Within b t) (hb : WellFormed b) : WellFormed t := by
  induction h with
  | whole => exact hb
  | child _ hs ih => exact ih.of_mem hs

mutual

/-- The second trace arises from the first one by filling holes with parts of `b`. -/
inductive FilledFrom (b : Trace) : Trace → Trace → Prop
  | same (t : Trace) : FilledFrom b t t
  | filled {u : Trace} : Within b u → FilledFrom b hole u
  | node {t : Trace} {p : Parts} :
      List.Forall₂ (FilledFrom b) t.parts.exps p.exps →
      List.Forall₂ (BodyFilledFrom b) t.parts.bodies p.bodies →
      p.fields.keys = t.parts.fields.keys →
      List.Forall₂ (FilledFrom b) t.parts.fields.values p.fields.values →
      FilledFrom b t (t.withParts p)

/-- The second statement list arises from the first one in the same way; in place of a hole at its
end may stand the end of a statement list of `b`. -/
inductive BodyFilledFrom (b : Trace) : List Trace → List Trace → Prop
  | nil : BodyFilledFrom b [] []
  | openEnd {t : Trace} {c us : List Trace} : Within b t → c ∈ t.parts.bodies → us <:+ c →
      BodyFilledFrom b [hole] us
  | cons {t u : Trace} {ts us : List Trace} : FilledFrom b t u → BodyFilledFrom b ts us →
      BodyFilledFrom b (t :: ts) (u :: us)

end

theorem BodyFilledFrom.same (b : Trace) (c : List Trace) : BodyFilledFrom b c c := by
  induction c with
  | nil => exact .nil
  | cons t ts ih => exact .cons (.same t) ih

/-! ## One merge of two nodes -/

/-- Left as it was, or merged with one of some traces. -/
def Advance (us : List Trace) (t t' : Trace) : Prop :=
  t' = t ∨ ∃ u ∈ us, t' = (mergeIn t u).result

/-- Left as it was, or merged with one of some statement lists. -/
def BodyAdvance (cs : List (List Trace)) (b b' : List Trace) : Prop :=
  b' = b ∨ ∃ c ∈ cs, ∃ n m, b' = (mergeBody n m b c).result

/-- Some parts of a node have been merged with parts of another one. -/
structure PartsAdvance (p q r : Parts) : Prop where
  exps : List.Forall₂ (Advance q.exps) p.exps r.exps
  bodies : List.Forall₂ (BodyAdvance q.bodies) p.bodies r.bodies
  keys : r.fields.keys = p.fields.keys
  values : List.Forall₂ (Advance q.fields.values) p.fields.values r.fields.values

theorem Advance.refl (us : List Trace) (t : Trace) : Advance us t t :=
  .inl rfl

theorem Advance.mono {us vs : List Trace} (h : us ⊆ vs) {t t' : Trace} (ht : Advance us t t') :
    Advance vs t t' :=
  ht.imp_right fun ⟨u, hu, heq⟩ => ⟨u, h hu, heq⟩

theorem PartsAdvance.refl (p q : Parts) : PartsAdvance p q p :=
  ⟨List.forall₂_same.mpr fun _ _ => .inl rfl, List.forall₂_same.mpr fun _ _ => .inl rfl, rfl,
    List.forall₂_same.mpr fun _ _ => .inl rfl⟩

theorem result_both_cases {α β γ : Type} (f : α → β → γ) (first : Merged α) (old : β)
    (second : Merged β) : ∃ b, (b = old ∨ b = second.result) ∧
      (Merged.both f first old second).result = f first.result b := by
  unfold Merged.both
  split
  · exact ⟨old, .inl rfl, rfl⟩
  · exact ⟨second.result, .inr rfl, rfl⟩

theorem result_named_cases {α : Type} (expected found : String) (old : α) (rest : Merged α) :
    (Merged.named expected found old rest).result = old ∨
      (Merged.named expected found old rest).result = rest.result := by
  unfold Merged.named
  split
  · exact .inr rfl
  · exact .inl rfl

theorem forall₂_result_mergeItems (ts us : List Trace) :
    List.Forall₂ (Advance us) ts (mergeItems ts us).result := by
  induction ts generalizing us with
  | nil => cases us <;> exact .nil
  | cons t ts ih => cases us with
      | nil => exact List.forall₂_same.mpr fun s _ => .refl _ s
      | cons u us =>
          rw [mergeItems]
          obtain ⟨ts', hts', heq⟩ := result_both_cases List.cons (mergeIn t u) ts (mergeItems ts us)
          rw [heq]
          refine .cons (.inr ⟨u, List.mem_cons_self, rfl⟩) ?_
          rcases hts' with rfl | rfl
          · exact List.forall₂_same.mpr fun s _ => .refl _ s
          · exact (ih us).imp fun _ _ h => h.mono (List.subset_cons_self u us)

/-- The field that stands for one of a record: as it was, or merged with that of its name in
another record. -/
def FieldAdvance (gs : Fields Trace) (f f' : String × Trace) : Prop :=
  f'.1 = f.1 ∧ (f' = f ∨ f.1 ∈ gs.keys ∧ Advance gs.values f.2 f'.2)

theorem FieldAdvance.cons {gs : Fields Trace} {f f' : String × Trace} (h : FieldAdvance gs f f')
    (g : String × Trace) : FieldAdvance (g :: gs) f f' :=
  ⟨h.1, h.2.imp_right fun ⟨hmem, hadv⟩ =>
    ⟨List.mem_cons_of_mem _ hmem, hadv.mono (List.subset_cons_self ..)⟩⟩

theorem FieldAdvance.eq_of_not_mem {gs : Fields Trace} {f f' : String × Trace}
    (h : FieldAdvance gs f f') (hf : f.1 ∉ gs.keys) : f' = f :=
  h.2.resolve_right fun hadv => hf hadv.1

/-- Writing the merge of one field into a record changes the field of that name only. -/
theorem forall₂_insert_merged {key : String} {t : Trace} (u : Trace) {fs : Fields Trace}
    (h : fs.get? key = some t) :
    List.Forall₂ (fun f f' => f' = f ∨ f.1 = key ∧ f' = (key, (mergeIn f.2 u).result)) fs
      (fs.insert key (mergeIn t u).result) := by
  induction fs with
  | nil => simp [Fields.get?] at h
  | cons f fs ih =>
      obtain ⟨name, t'⟩ := f
      by_cases hname : name = key
      · obtain rfl : t' = t := by simpa [Fields.get?, hname] using h
        subst hname
        rw [Fields.insert, if_pos rfl]
        exact .cons (.inr ⟨rfl, rfl⟩) (List.forall₂_same.mpr fun _ _ => .inl rfl)
      · rw [Fields.get?, if_neg hname] at h
        rw [Fields.insert, if_neg hname]
        exact .cons (.inl rfl) (ih h)

/-- A field is merged at most once, since no name comes twice in the second record. -/
theorem forall₂_result_mergeFields {gs : Fields Trace} (hgs : gs.keys.Nodup) (fs : Fields Trace) :
    List.Forall₂ (FieldAdvance gs) fs (mergeFields fs gs).result := by
  induction gs generalizing fs with
  | nil => exact List.forall₂_same.mpr fun _ _ => ⟨rfl, .inl rfl⟩
  | cons g gs ih =>
      obtain ⟨key, u⟩ := g
      obtain ⟨hkey, hgs⟩ := List.nodup_cons.mp hgs
      rw [mergeFields]
      cases ht : Fields.get? key fs with
      | none => exact (ih hgs fs).imp fun _ _ h => h.cons _
      | some t =>
          have hinsert := forall₂_insert_merged u ht
          have hslot : ∀ f : String × Trace, f.1 = key →
              FieldAdvance ((key, u) :: gs) f (key, (mergeIn f.2 u).result) := fun f hf =>
            ⟨hf.symm, .inr ⟨hf ▸ List.mem_cons_self, .inr ⟨u, List.mem_cons_self, rfl⟩⟩⟩
          cases hm : (mergeIn t u).mismatch with
          | some m =>
              simp only [hm]
              refine hinsert.imp fun f f' h => ?_
              obtain rfl | ⟨hf, rfl⟩ := h
              · exact ⟨rfl, .inl rfl⟩
              · exact hslot f hf
          | none =>
              simp only [hm]
              refine forall₂_trans (fun f _ f' _ f'' h h' => ?_) hinsert (ih hgs _)
              obtain rfl | ⟨hf, rfl⟩ := h
              · exact h'.cons _
              · obtain rfl := h'.eq_of_not_mem hkey
                exact hslot f hf

theorem forall₂_map {α β : Type} {R : α → α → Prop} {S : β → β → Prop} {f : α → β}
    (h : ∀ a a', R a a' → S (f a) (f a')) {as as' : List α} (has : List.Forall₂ R as as') :
    List.Forall₂ S (as.map f) (as'.map f) :=
  List.forall₂_map_left_iff.mpr (List.forall₂_map_right_iff.mpr (has.imp h))

theorem partsAdvance_mergeFields {fs gs : Fields Trace} (hgs : gs.keys.Nodup) :
    PartsAdvance ⟨[], [], fs⟩ ⟨[], [], gs⟩ ⟨[], [], (mergeFields fs gs).result⟩ := by
  have h := forall₂_result_mergeFields hgs fs
  refine ⟨.nil, .nil, ?_, ?_⟩
  · have hkeys : List.Forall₂ (· = ·) (Fields.keys fs) (Fields.keys (mergeFields fs gs).result) :=
      forall₂_map (fun _ _ h => h.1.symm) h
    rw [List.forall₂_eq_eq_eq] at hkeys
    exact hkeys.symm
  · exact forall₂_map (fun f f' hff' => hff'.2.elim (fun heq => .inl (congrArg Prod.snd heq))
      fun h => h.2) h

theorem partsAdvance_exp (t u : Trace) :
    PartsAdvance ⟨[t], [], []⟩ ⟨[u], [], []⟩ ⟨[(mergeIn t u).result], [], []⟩ :=
  ⟨.cons (.inr ⟨u, List.mem_singleton_self u, rfl⟩) .nil, .nil, rfl, .nil⟩

theorem partsAdvance_exps (t i u j : Trace) {i' : Trace}
    (hi : i' = i ∨ i' = (mergeIn i j).result) :
    PartsAdvance ⟨[t, i], [], []⟩ ⟨[u, j], [], []⟩ ⟨[(mergeIn t u).result, i'], [], []⟩ :=
  ⟨.cons (.inr ⟨u, by simp, rfl⟩) (.cons (hi.imp_right fun h => ⟨j, by simp, h⟩) .nil), .nil, rfl,
    .nil⟩

theorem partsAdvance_body (n m : Nat) (b c : List Trace) :
    PartsAdvance ⟨[], [b], []⟩ ⟨[], [c], []⟩ ⟨[], [(mergeBody n m b c).result], []⟩ :=
  ⟨.nil, .cons (.inr ⟨c, List.mem_singleton_self c, n, m, rfl⟩) .nil, rfl, .nil⟩

/-- Two targets are merged like the nodes that read them. -/
theorem exists_result_mergeTarget (x y : Target) (t : Trace) :
    ∃ es, List.Forall₂ (Advance y.exps) x.exps es ∧
      ∀ s, assign (mergeTarget x y).result s = (assign x t).withParts ⟨es ++ [s], [], []⟩ := by
  have hkeep : ∃ es, List.Forall₂ (Advance y.exps) x.exps es ∧
      ∀ s, assign x s = (assign x t).withParts ⟨es ++ [s], [], []⟩ :=
    ⟨x.exps, List.forall₂_same.mpr fun s _ => .refl _ s, fun s => by cases x <;> rfl⟩
  fun_cases mergeTarget x y
  case case3 t field u found =>
    obtain heq | heq := result_named_cases field found (Target.captured t field)
      ((mergeIn t u).map (.captured · field))
    · simpa only [heq] using hkeep
    · exact ⟨[(mergeIn t u).result], .cons (.inr ⟨u, List.mem_singleton_self u, rfl⟩) .nil,
        fun s => congrArg (assign · s) heq⟩
  case case4 t i u j =>
    obtain ⟨i', hi, heq⟩ := result_both_cases Target.index (mergeIn t u) i (mergeIn i j)
    exact ⟨_, (partsAdvance_exps t i u j hi).exps, fun s => congrArg (assign · s) heq⟩
  all_goals exact hkeep

/-- What a merge leaves is the first node with some parts merged. -/
def Advances (t u : Trace) (m : Merged Trace) : Prop :=
  ∃ p, PartsAdvance t.parts u.parts p ∧ m.result = t.withParts p

namespace Advances

variable {t u : Trace} {m : Merged Trace}

theorem of_result_eq (h : m.result = t) : Advances t u m :=
  ⟨t.parts, .refl _ _, h.trans (withParts_parts t).symm⟩

theorem named {expected found : String} (h : Advances t u m) :
    Advances t u (.named expected found t m) := by
  obtain heq | heq := result_named_cases expected found t m
  · exact of_result_eq heq
  · obtain ⟨p, hp, hm⟩ := h
    exact ⟨p, hp, heq.trans hm⟩

end Advances

theorem forall₂_result_mergeItems_ite {c : Prop} [Decidable c] (ts us : List Trace)
    (m : Mismatch) :
    List.Forall₂ (Advance us) ts (if c then mergeItems ts us else .stopped ts m).result := by
  split
  · exact forall₂_result_mergeItems ts us
  · exact List.forall₂_same.mpr fun t _ => .refl _ t

/-- Merging leaves a node with its head, in which some parts have been merged. -/
theorem advances_mergeIn {t u : Trace} (ht : t ≠ hole) (hu : u ≠ hole)
    (hkeys : u.parts.fields.keys.Nodup) : Advances t u (mergeIn t u) := by
  fun_cases mergeIn t u
  all_goals first
    | exact absurd rfl ht
    | exact absurd rfl hu
    -- nothing was merged
    | exact .of_result_eq rfl
    | skip
  case case19 x t y u =>
    obtain ⟨es, hes, heq⟩ := exists_result_mergeTarget x y t
    obtain ⟨t', ht', hboth⟩ := result_both_cases assign (mergeTarget x y) t (mergeIn t u)
    refine ⟨⟨es ++ [t'], [], []⟩, ⟨?_, .nil, rfl, .nil⟩, hboth.trans (heq t')⟩
    have hexp : Advance [u] t t' := ht'.imp_right fun h => ⟨u, List.mem_singleton_self u, h⟩
    refine List.rel_append ?_ (.cons (hexp.mono (by simp [parts])) .nil)
    exact hes.imp fun _ _ h => h.mono (by simp [parts])
  case case21 c t e c' t' e' =>
    obtain ⟨t₁, ht₁, heq⟩ := result_both_cases Prod.mk (mergeIn c c') t
      (mergeBody t.length t'.length t t')
    obtain ⟨e₁, he₁, heq'⟩ := result_both_cases (fun p e => ifElse p.1 p.2 e)
      (.both Prod.mk (mergeIn c c') t (mergeBody t.length t'.length t t')) e
      (mergeBody e.length e'.length e e')
    refine ⟨⟨[(mergeIn c c').result], [t₁, e₁], []⟩, ⟨?_, ?_, rfl, .nil⟩, ?_⟩
    · exact .cons (.inr ⟨c', by simp [parts], rfl⟩) .nil
    · exact .cons (ht₁.imp_right fun h => ⟨t', by simp [parts], _, _, h⟩)
        (.cons (he₁.imp_right fun h => ⟨e', by simp [parts], _, _, h⟩) .nil)
    · rw [heq', heq]
      rfl
  case case22 c b c' b' =>
    obtain ⟨b₁, hb₁, heq⟩ := result_both_cases whileDo (mergeIn c c') b
      (mergeBody b.length b'.length b b')
    refine ⟨⟨[(mergeIn c c').result], [b₁], []⟩, ⟨?_, ?_, rfl, .nil⟩, heq⟩
    · exact .cons (.inr ⟨c', by simp [parts], rfl⟩) .nil
    · exact .cons (hb₁.imp_right fun h => ⟨b', by simp [parts], _, _, h⟩) .nil
  case case23 event arg params record b event' arg' params' record' b' old =>
    refine .named (.named ?_)
    obtain ⟨record₁, hrecord, heq⟩ := result_both_cases Prod.mk (mergeIn arg arg') record
      (mergeIn record record')
    obtain ⟨b₁, hb₁, heq'⟩ := result_both_cases (fun p b => callback event p.1 params p.2 b)
      (.both Prod.mk (mergeIn arg arg') record (mergeIn record record')) b
      (mergeBody b.length b'.length b b')
    refine ⟨⟨[(mergeIn arg arg').result, record₁], [b₁], []⟩, ⟨?_, ?_, rfl, .nil⟩, ?_⟩
    · exact .cons (.inr ⟨arg', by simp [parts], rfl⟩)
        (.cons (hrecord.imp_right fun h => ⟨record', by simp [parts], h⟩) .nil)
    · exact .cons (hb₁.imp_right fun h => ⟨b', by simp [parts], _, _, h⟩) .nil
    · rw [heq', heq]
      rfl
  case case26 fs gs _ => exact ⟨_, partsAdvance_mergeFields hkeys, rfl⟩
  case case28 fs gs _ => exact ⟨_, partsAdvance_mergeFields hkeys, rfl⟩
  case case30 ts us _ =>
    exact ⟨⟨_, [], []⟩, ⟨forall₂_result_mergeItems ts us, .nil, rfl, .nil⟩, rfl⟩
  case case33 t m ts u m' us =>
    refine .named ?_
    have hitems := forall₂_result_mergeItems_ite (c := ts.length = us.length) ts us
      (.length "method arguments" ts.length us.length)
    obtain ⟨ts₁, hts₁, heq⟩ := result_both_cases (methodCall · m ·) (mergeIn t u) ts
      (if ts.length = us.length then mergeItems ts us
        else .stopped ts (.length "method arguments" ts.length us.length))
    refine ⟨⟨(mergeIn t u).result :: ts₁, [], []⟩, ⟨?_, .nil, rfl, .nil⟩, heq⟩
    refine .cons (.inr ⟨u, by simp [parts], rfl⟩) ?_
    rcases hts₁ with rfl | rfl
    · exact List.forall₂_same.mpr fun s _ => .refl _ s
    · exact hitems.imp fun _ _ h => h.mono (List.subset_cons_self ..)
  case case34 event ts event' us =>
    exact .named ⟨⟨_, [], []⟩, ⟨forall₂_result_mergeItems_ite ts us
      (.length "primitive arguments" ts.length us.length), .nil, rfl, .nil⟩, rfl⟩
  case case14 l r op l' r' =>
    obtain ⟨r₁, hr₁, heq⟩ := result_both_cases (binary op) (mergeIn l l') r (mergeIn r r')
    exact ⟨_, partsAdvance_exps l r l' r' hr₁, heq⟩
  case case32 t i u j =>
    obtain ⟨i₁, hi₁, heq⟩ := result_both_cases index (mergeIn t u) i (mergeIn i j)
    exact ⟨_, partsAdvance_exps t i u j hi₁, heq⟩
  case case20 => exact ⟨_, partsAdvance_body .., rfl⟩
  case case24 => exact .named ⟨_, partsAdvance_body .., rfl⟩
  case case16 => exact ⟨_, partsAdvance_exp .., rfl⟩
  case case12 | case13 | case18 | case25 => exact .named ⟨_, partsAdvance_exp .., rfl⟩

/-! ## What is left is a filling -/

theorem mem_children_of_values {s t : Trace} (h : s ∈ t.parts.fields.values) : s ∈ t.children :=
  List.mem_append_right _ h

/-- A merged statement list is the first one with holes filled from the second. -/
theorem bodyFilledFrom_result {b u : Trace} {n m : Nat} {c d e : List Trace} (hc : IsBody c)
    (hu : Within b u) (he : e ∈ u.parts.bodies) (hd : d <:+ e)
    (h : ∀ s ∈ c, ∀ v ∈ d, FilledFrom b s (mergeIn s v).result) :
    BodyFilledFrom b c (mergeBody n m c d).result := by
  induction hc generalizing d with
  | nil => cases d with
      | nil => exact .nil
      | cons v d => cases v <;> exact .nil
  | openEnd =>
      have hresult : (mergeBody n m [hole] d).result = d := by
        cases d with
        | nil => rfl
        | cons v d => cases v <;> rfl
      rw [hresult]
      exact .openEnd hu he hd
  | @cons t ts ht _ ih =>
      rcases d with _ | ⟨v, d⟩
      · have hresult : (mergeBody n m (t :: ts) []).result = t :: ts := by
          cases t <;> first | rfl | exact absurd rfl ht
        rw [hresult]
        exact .same b _
      by_cases hv : v = hole
      · have hresult : (mergeBody n m (t :: ts) (v :: d)).result = t :: ts := by
          subst hv
          cases t <;> first | rfl | exact absurd rfl ht
        rw [hresult]
        exact .same b _
      have hbody : mergeBody n m (t :: ts) (v :: d) =
          .both List.cons (mergeIn t v) ts (mergeBody n m ts d) := by
        rw [mergeBody]
        · exact ht
        · exact hv
      obtain ⟨ts₁, hts₁, hresult⟩ :=
        result_both_cases List.cons (mergeIn t v) ts (mergeBody n m ts d)
      rw [hbody, hresult]
      refine .cons (h t List.mem_cons_self v List.mem_cons_self) ?_
      rcases hts₁ with rfl | rfl
      · exact .same b _
      · exact ih ((List.suffix_cons v d).trans hd) fun s hs w hw =>
          h s (List.mem_cons_of_mem _ hs) w (List.mem_cons_of_mem _ hw)

theorem FilledFrom.of_advance {b : Trace} {us : List Trace} {t t' : Trace}
    (h : ∀ u ∈ us, FilledFrom b t (mergeIn t u).result) (ht : Advance us t t') :
    FilledFrom b t t' := by
  obtain rfl | ⟨u, hu, rfl⟩ := ht
  · exact .same _
  · exact h u hu

/-- Whether or not a merge succeeds, all it does to the first trace is to fill holes with parts of
the second. -/
theorem filledFrom_result {b t u : Trace} (hu : Within b u) (ht : WellFormed t)
    (hb : WellFormed b) : FilledFrom b t (mergeIn t u).result := by
  induction t using induction generalizing u with
  | node t ih =>
      by_cases hthole : t = hole
      · subst hthole
        have hresult : (mergeIn hole u).result = u := by cases u <;> rfl
        rw [hresult]
        exact .filled hu
      by_cases huhole : u = hole
      · subst huhole
        have hresult : (mergeIn t hole).result = t := by cases t <;> rfl
        rw [hresult]
        exact .same t
      obtain ⟨p, hp, hresult⟩ := advances_mergeIn hthole huhole (hu.wellFormed hb).nodup
      have hchild : ∀ s ∈ t.children, ∀ v ∈ u.children, FilledFrom b s (mergeIn s v).result :=
        fun s hs v hv => ih s hs (hu.child hv) (ht.of_mem hs)
      rw [hresult]
      refine .node ?_ ?_ hp.keys ?_
      · refine forall₂_imp_of_mem (fun s hs s' _ => .of_advance fun v hv => ?_) hp.exps
        exact hchild s (mem_children_of_exps hs) v (mem_children_of_exps hv)
      · refine forall₂_imp_of_mem (fun c hc c' _ hadv => ?_) hp.bodies
        obtain rfl | ⟨d, hd, n, m, rfl⟩ := hadv
        · exact .same b _
        · refine bodyFilledFrom_result (ht.isBody hc) hu hd (List.suffix_refl d) fun s hs v hv => ?_
          exact hchild s (mem_children_of_bodies hc hs) v (mem_children_of_bodies hd hv)
      · refine forall₂_imp_of_mem (fun s hs s' _ => .of_advance fun v hv => ?_) hp.values
        exact hchild s (mem_children_of_values hs) v (mem_children_of_values hv)

/-! ## What a filling keeps -/

theorem FilledFrom.ne_hole {b t t' : Trace} (h : FilledFrom b t t') (ht : t ≠ hole) :
    t' ≠ hole := by
  cases h with
  | same => exact ht
  | filled => exact absurd rfl ht
  | node => exact ne_hole_of_withParts ht _

theorem IsBody.of_suffix {b c : List Trace} (hc : IsBody c) (h : b <:+ c) : IsBody b := by
  induction hc with
  | nil => exact (List.suffix_nil.mp h).symm ▸ .nil
  | openEnd =>
      obtain rfl | h := List.suffix_cons_iff.mp h
      · exact .openEnd
      · exact (List.suffix_nil.mp h).symm ▸ .nil
  | cons ht hts ih =>
      obtain rfl | h := List.suffix_cons_iff.mp h
      · exact .cons ht hts
      · exact ih h

theorem BodyFilledFrom.isBody {b : Trace} {c c' : List Trace} (h : BodyFilledFrom b c c')
    (hc : IsBody c) (hb : WellFormed b) : IsBody c' := by
  induction hc generalizing c' with
  | nil =>
      cases h
      exact .nil
  | openEnd => cases h with
      | openEnd ht hd hsuffix => exact ((ht.wellFormed hb).isBody hd).of_suffix hsuffix
      | @cons _ u _ us _ hnil =>
          cases hnil
          by_cases hu : u = hole
          · exact hu ▸ .openEnd
          · exact .cons hu .nil
  | cons ht _ ih => cases h with
      | openEnd => exact absurd rfl ht
      | cons hu hus => exact .cons (hu.ne_hole ht) (ih hus)

/-- A statement of a filled list fills one of the list or stands in `b`. -/
theorem BodyFilledFrom.of_mem {b : Trace} {c c' : List Trace} (h : BodyFilledFrom b c c')
    {s' : Trace} (hs' : s' ∈ c') : Within b s' ∨ ∃ s ∈ c, FilledFrom b s s' := by
  induction c generalizing c' with
  | nil =>
      cases h
      simp at hs'
  | cons t ts ih => cases h with
      | openEnd ht hd hsuffix =>
          exact .inl (ht.child (mem_children_of_bodies hd (hsuffix.subset hs')))
      | cons hu hus =>
          rcases List.mem_cons.mp hs' with rfl | hs'
          · exact .inr ⟨t, List.mem_cons_self, hu⟩
          · exact (ih hus hs').imp_right fun ⟨s, hs, h⟩ => ⟨s, List.mem_cons_of_mem _ hs, h⟩

theorem exists_mem_of_forall₂ {α : Type} {R : α → α → Prop} {as bs : List α}
    (h : List.Forall₂ R as bs) {b : α} (hb : b ∈ bs) : ∃ a ∈ as, R a b := by
  induction h with
  | nil => simp at hb
  | @cons a b' as bs hhead _ ih =>
      rcases List.mem_cons.mp hb with rfl | hb
      · exact ⟨a, List.mem_cons_self, hhead⟩
      · obtain ⟨a', ha', h⟩ := ih hb
        exact ⟨a', List.mem_cons_of_mem _ ha', h⟩

theorem sameShape_of_filledFrom {R : Trace → Trace → Prop} {S : List Trace → List Trace → Prop}
    {p q : Parts} (hexps : List.Forall₂ R p.exps q.exps) (hbodies : List.Forall₂ S p.bodies q.bodies)
    (hkeys : q.fields.keys = p.fields.keys) : p.SameShape q :=
  ⟨hexps.length_eq, hbodies.length_eq, by simpa [Fields.keys] using congrArg List.length hkeys.symm⟩

/-- Filling holes of a well-formed trace with parts of another gives a well-formed trace. -/
theorem FilledFrom.wellFormed {b t t' : Trace} (h : FilledFrom b t t') (ht : WellFormed t)
    (hb : WellFormed b) : WellFormed t' := by
  induction t using induction generalizing t' with
  | node t ih => cases h with
      | same => exact ht
      | filled hu => exact hu.wellFormed hb
      | @node _ p hexps hbodies hkeys hvalues =>
          have hparts := parts_withParts (sameShape_of_filledFrom hexps hbodies hkeys)
          refine wellFormed_iff.mpr ⟨?_, ?_, ?_⟩
          · rw [hparts, hkeys]
            exact ht.nodup
          · intro c' hc'
            rw [hparts] at hc'
            obtain ⟨c, hc, hfilled⟩ := exists_mem_of_forall₂ hbodies hc'
            exact hfilled.isBody (ht.isBody hc) hb
          · intro s' hs'
            have hfrom : Within b s' ∨ ∃ s ∈ t.children, FilledFrom b s s' := by
              simp only [children, hparts, List.mem_append, List.mem_flatten] at hs'
              rcases hs' with (hs' | ⟨c', hc', hs'⟩) | hs'
              · obtain ⟨s, hs, h⟩ := exists_mem_of_forall₂ hexps hs'
                exact .inr ⟨s, mem_children_of_exps hs, h⟩
              · obtain ⟨c, hc, hfilled⟩ := exists_mem_of_forall₂ hbodies hc'
                exact (hfilled.of_mem hs').imp_right fun ⟨s, hs, h⟩ =>
                  ⟨s, mem_children_of_bodies hc hs, h⟩
              · obtain ⟨s, hs, h⟩ := exists_mem_of_forall₂ hvalues hs'
                exact .inr ⟨s, mem_children_of_values hs, h⟩
            obtain hwithin | ⟨s, hs, h⟩ := hfrom
            · exact hwithin.wellFormed hb
            · exact ih s hs h (ht.of_mem hs)

theorem joinAll_eq_right {α : Type} {R : α → α → Prop} {f : α → α → Option α} {as bs : List α}
    (h : ∀ a ∈ as, ∀ b ∈ bs, R a b → f a b = some b) (hab : List.Forall₂ R as bs) :
    joinAll f as bs = some bs := by
  induction hab with
  | nil => rfl
  | @cons a b as bs hhead _ ih =>
      have htail := ih fun a' ha' b' hb' => h a' (by simp [ha']) b' (by simp [hb'])
      simp [joinAll, h a (by simp) b (by simp) hhead, htail]

theorem BodyFilledFrom.joinBody_eq {b : Trace} {c c' : List Trace} (h : BodyFilledFrom b c c')
    (hc : IsBody c) (hjoin : ∀ s ∈ c, ∀ s' ∈ c', FilledFrom b s s' → join s s' = some s') :
    joinBody c c' = some c' := by
  induction hc generalizing c' with
  | nil =>
      cases h
      rfl
  | openEnd => exact joinBody_open_left c'
  | @cons t ts ht hts ih => cases h with
      | openEnd => exact absurd rfl ht
      | @cons _ u _ us hu hus =>
          have htail := ih hus fun s hs s' hs' =>
            hjoin s (List.mem_cons_of_mem _ hs) s' (List.mem_cons_of_mem _ hs')
          rw [joinBody_cons_cons ht (hu.ne_hole ht),
            hjoin t List.mem_cons_self u List.mem_cons_self hu, htail]
          rfl

/-- Records with the same names and related values are related under each name. -/
theorem rel_of_get? {R : Trace → Trace → Prop} {fs gs : Fields Trace} (hkeys : gs.keys = fs.keys)
    (h : List.Forall₂ R fs.values gs.values) {key : String} {s s' : Trace}
    (hs : fs.get? key = some s) (hs' : gs.get? key = some s') : R s s' := by
  induction fs generalizing gs with
  | nil => simp [Fields.get?] at hs
  | cons f fs ih => cases gs with
      | nil => simp [Fields.get?] at hs'
      | cons g gs =>
          obtain ⟨hkey, hkeys⟩ := List.cons.inj hkeys
          obtain ⟨hhead, htail⟩ := List.forall₂_cons.mp h
          by_cases hname : f.1 = key
          · obtain rfl : f.2 = s := by simpa [Fields.get?, hname] using hs
            obtain rfl : g.2 = s' := by simpa [Fields.get?, hkey, hname] using hs'
            exact hhead
          · exact ih hkeys htail (by simpa [Fields.get?, hname] using hs)
              (by simpa [Fields.get?, hkey, hname] using hs')

/-- A trace joins with what arises from it by filling holes, and gives that. -/
theorem FilledFrom.join_eq {b t t' : Trace} (h : FilledFrom b t t') (ht : WellFormed t)
    (hb : WellFormed b) : join t t' = some t' := by
  induction t using induction generalizing t' with
  | node t ih =>
      have ht' := h.wellFormed ht hb
      by_cases hthole : t = hole
      · simp [hthole]
      have ht'hole := h.ne_hole hthole
      cases h with
      | same => exact join_self ht
      | filled => exact absurd rfl hthole
      | @node _ p hexps hbodies hkeys hvalues =>
          have hparts := parts_withParts (sameShape_of_filledFrom hexps hbodies hkeys)
          have hnodup : p.fields.keys.Nodup := hkeys ▸ ht.nodup
          have hperm : p.fields.keys.Perm t.parts.fields.keys := hkeys ▸ .refl _
          refine (ht.join_eq_some_iff ht' hthole ht'hole).mpr
            ⟨by simp, by simp, p, hparts.symm ▸ ⟨?_, ?_, ?_, ?_⟩, rfl⟩
          · refine joinAll_eq_right (fun s hs s' _ hfilled => ?_) hexps
            exact ih s (mem_children_of_exps hs) hfilled (ht.of_mem (mem_children_of_exps hs))
          · refine joinAll_eq_right (fun c hc c' _ hfilled => ?_) hbodies
            refine hfilled.joinBody_eq (ht.isBody hc) fun s hs s' _ hfilled => ?_
            have hs' := mem_children_of_bodies hc hs
            exact ih s hs' hfilled (ht.of_mem hs')
          · exact (sameKeys_iff hnodup).mpr hperm
          · refine (joinFields_eq_some_iff ht.nodup hperm).mpr ⟨hkeys, fun key s s' hs hs' => ?_⟩
            have hmem := mem_children_of_fields (Fields.mem_of_get? hs)
            have hfilled := rel_of_get? hkeys hvalues hs hs'
            exact ⟨s', hs', ih s hmem hfilled (ht.of_mem hmem)⟩

/-! ## Merging again -/

theorem isSome_mismatch_iff {t u : Trace} :
    (mergeIn t u).mismatch.isSome = true ↔ join t u = none := by
  cases h : (mergeIn t u).mismatch <;> simp [join, Merged.toOption, h]

/-- What one merge with a trace leaves behind. -/
def leftBy (b a : Trace) : Trace :=
  (mergeIn a b).result

theorem filledFrom_leftBy {a b : Trace} (ha : WellFormed a) (hb : WellFormed b) :
    FilledFrom b a (leftBy b a) :=
  filledFrom_result .whole ha hb

theorem WellFormed.leftBy {a b : Trace} (ha : WellFormed a) (hb : WellFormed b) :
    WellFormed (leftBy b a) :=
  (filledFrom_leftBy ha hb).wellFormed ha hb

/-- What joins with a filling of a trace joins with the trace itself. -/
theorem FilledFrom.join_eq_none {a a' b : Trace} (h : FilledFrom b a a') (ha : WellFormed a)
    (hb : WellFormed b) (hjoin : join a b = none) : join a' b = none := by
  have ha' := h.wellFormed ha hb
  have habove : Below a a' := (below_of_join ha ha' (h.join_eq ha hb)).1
  have habsorb : join a' a = some a' := join_eq_left_of_below ha' ha habove
  have hassoc := join_assoc ha' ha hb
  rw [habsorb, hjoin] at hassoc
  exact hassoc

theorem join_iterate_leftBy_eq_none {a b : Trace} (ha : WellFormed a) (hb : WellFormed b)
    (h : join a b = none) (n : ℕ) : join ((leftBy b)^[n] a) b = none := by
  induction n generalizing a with
  | zero => exact h
  | succ n ih =>
      exact ih (ha.leftBy hb) ((filledFrom_leftBy ha hb).join_eq_none ha hb h)

/-- A merge that fails leaves a well-formed trace that arises from the first one by filling holes
with parts of the second, so that the first one merges into it; and the second one never does,
however often it is tried. -/
theorem failed_merge_fills_holes {a b : Trace} (ha : WellFormed a) (hb : WellFormed b)
    {m : Mismatch} (h : (mergeIn a b).mismatch = some m) :
    WellFormed (leftBy b a) ∧ FilledFrom b a (leftBy b a) ∧
      merge a (leftBy b a) = .ok (leftBy b a) ∧
        ∀ n, ∃ m', (mergeIn ((leftBy b)^[n + 1] a) b).mismatch = some m' := by
  have hfilled := filledFrom_leftBy ha hb
  have hjoin : join a b = none := isSome_mismatch_iff.mp (by simp [h])
  refine ⟨ha.leftBy hb, hfilled, merge_eq_ok_iff.mpr (hfilled.join_eq ha hb), fun n => ?_⟩
  exact Option.isSome_iff_exists.mp
    (isSome_mismatch_iff.mpr (join_iterate_leftBy_eq_none ha hb hjoin (n + 1)))

/-- Two runs that differ in their second statement: the first statement is filled in, the second
stays, and the open end is not touched. -/
theorem failed_merge_of_diverging_runs :
    let a := block [bind "x" hole, bind "y" (string "1"), hole]
    let b := block [bind "x" (string "2"), bind "y" (string "3")]
    let a' := block [bind "x" (string "2"), bind "y" (string "1"), hole]
    WellFormed a ∧ WellFormed b ∧ leftBy b a = a' ∧ WellFormed a' ∧ FilledFrom b a a' ∧
      merge a a' = .ok a' ∧ ∀ n, ∃ m, (mergeIn ((leftBy b)^[n + 1] a) b).mismatch = some m := by
  intro a b a'
  have ha : WellFormed a := ⟨by decide, by decide⟩
  have hb : WellFormed b := ⟨by decide, by decide⟩
  have hleft : leftBy b a = a' := rfl
  have hmismatch : (mergeIn a b).mismatch =
      some (.literal (Text.Diagnostic.quote "1") (Text.Diagnostic.quote "3")) := rfl
  exact ⟨ha, hb, hleft, hleft ▸ failed_merge_fills_holes ha hb hmismatch⟩

end TraceLoom.Trace
