import TraceLoom.Proofs.Fields
import TraceLoom.Proofs.Trace.Node

/-!
The order of traces by what has been observed.  A trace is below another that arises from it by
filling holes; traces are alike if they differ only in the order of fields and in how a number is
written.
-/

namespace TraceLoom.Trace

open Numeric

mutual

/-- Whether the second trace says what the first one says.  With `filling` it may say more in
place of a hole: any trace, or any statements if the hole ends a statement list. -/
def agrees (filling : Bool) : Trace → Trace → Bool
  | hole, u => filling || u.isHole
  | number x, number y => Binary64.same x y
  | boolean a, boolean b => a == b
  | string a, string b => a == b
  | undefined, undefined => true
  | name a, name b => a == b
  | captured t field, captured u field' => field == field' && agrees filling t u
  | property t field, property u field' => field == field' && agrees filling t u
  | binary op l r, binary op' l' r' => op == op' && agrees filling l l' && agrees filling r r'
  | unary op t, unary op' u => op == op' && agrees filling t u
  | bind n t, bind n' u => n == n' && agrees filling t u
  | assign x t, assign y u => agreesTarget filling x y && agrees filling t u
  | block b, block b' => agreesBody filling b b'
  | ifElse c t e, ifElse c' t' e' =>
      agrees filling c c' && agreesBody filling t t' && agreesBody filling e e'
  | whileDo c b, whileDo c' b' => agrees filling c c' && agreesBody filling b b'
  | callback event arg params record b, callback event' arg' params' record' b' =>
      event == event' && params == params' && agrees filling arg arg' &&
        agrees filling record record' && agreesBody filling b b'
  | label n b, label n' b' => n == n' && agreesBody filling b b'
  | breakTo n t, breakTo n' u => n == n' && agrees filling t u
  | closure fs, closure gs => fs.length == gs.length && agreesFields filling fs gs
  | object fs, object gs => fs.length == gs.length && agreesFields filling fs gs
  | array ts, array us => agreesItems filling ts us
  | index t i, index u j => agrees filling t u && agrees filling i j
  | methodCall t m ts, methodCall u m' us =>
      m == m' && agrees filling t u && agreesItems filling ts us
  | primitive event ts, primitive event' us => event == event' && agreesItems filling ts us
  | _, _ => false
termination_by structural t => t

def agreesTarget (filling : Bool) : Target → Target → Bool
  | .name a, .name b => a == b
  | .captured t field, .captured u field' => field == field' && agrees filling t u
  | .index t i, .index u j => agrees filling t u && agrees filling i j
  | _, _ => false
termination_by structural t => t

def agreesItems (filling : Bool) : List Trace → List Trace → Bool
  | [], [] => true
  | t :: ts, u :: us => agrees filling t u && agreesItems filling ts us
  | _, _ => false
termination_by structural ts => ts

def agreesBody (filling : Bool) : List Trace → List Trace → Bool
  | [], us => us.isEmpty
  | t :: ts, us =>
      (filling && t.isHole && ts.isEmpty) ||
        match us with
        | [] => false
        | u :: us => agrees filling t u && agreesBody filling ts us
termination_by structural ts => ts

/-- Whether every field of the first record has its like in the second, in any order. -/
def agreesFields (filling : Bool) : List (String × Trace) → List (String × Trace) → Bool
  | [], _ => true
  | (key, t) :: fs, gs =>
      (match Fields.get? key gs with
        | some u => agrees filling t u
        | none => false) && agreesFields filling fs gs
termination_by structural fs => fs

end

/-- The second trace arises from the first by filling holes. -/
def Below (t u : Trace) : Prop :=
  agrees true t u = true

instance (t u : Trace) : Decidable (Below t u) :=
  inferInstanceAs (Decidable (_ = true))

/-- The traces are equal up to the order of fields; both zeros are one number, and so are all
that are not a number. -/
def Alike (t u : Trace) : Prop :=
  agrees false t u = true

instance (t u : Trace) : Decidable (Alike t u) :=
  inferInstanceAs (Decidable (_ = true))

theorem agreesItems_eq_true_iff {filling : Bool} {ts us : List Trace} :
    agreesItems filling ts us = true ↔
      List.Forall₂ (fun t u => agrees filling t u = true) ts us := by
  induction ts generalizing us with
  | nil => cases us <;> simp [agreesItems]
  | cons t ts ih => cases us <;> simp [agreesItems, ih]

theorem agreesFields_eq_true_iff {filling : Bool} {fs gs : List (String × Trace)} :
    agreesFields filling fs gs = true ↔
      ∀ f ∈ fs, ∃ u, Fields.get? f.1 gs = some u ∧ agrees filling f.2 u = true := by
  induction fs with
  | nil => simp [agreesFields]
  | cons f fs ih =>
      simp only [agreesFields, Bool.and_eq_true, ih, List.forall_mem_cons]
      cases Fields.get? f.1 gs <;> simp

@[simp] theorem agreesBody_nil_iff {filling : Bool} {us : List Trace} :
    agreesBody filling [] us = true ↔ us = [] := by
  simp [agreesBody]

theorem agreesBody_cons_iff {filling : Bool} {t : Trace} {ts us : List Trace} :
    agreesBody filling (t :: ts) us = true ↔
      (filling = true ∧ t = hole ∧ ts = []) ∨
        ∃ u us', us = u :: us' ∧ agrees filling t u = true ∧
          agreesBody filling ts us' = true := by
  cases us <;> simp [agreesBody, and_assoc]

/-- The traces that stand in two nodes agree one by one. -/
structure PartsAgree (filling : Bool) (p q : Parts) : Prop where
  exps : List.Forall₂ (fun t u => agrees filling t u = true) p.exps q.exps
  bodies : List.Forall₂ (fun b c => agreesBody filling b c = true) p.bodies q.bodies
  size : p.fields.length = q.fields.length
  fields : ∀ f ∈ p.fields, ∃ u, q.fields.get? f.1 = some u ∧ agrees filling f.2 u = true

theorem partsAgree_iff {filling : Bool} {p q : Parts} :
    PartsAgree filling p q ↔
      List.Forall₂ (fun t u => agrees filling t u = true) p.exps q.exps ∧
        List.Forall₂ (fun b c => agreesBody filling b c = true) p.bodies q.bodies ∧
          p.fields.length = q.fields.length ∧
            ∀ f ∈ p.fields, ∃ u, q.fields.get? f.1 = some u ∧ agrees filling f.2 u = true :=
  ⟨fun ⟨he, hb, hs, hf⟩ => ⟨he, hb, hs, hf⟩, fun ⟨he, hb, hs, hf⟩ => ⟨he, hb, hs, hf⟩⟩

theorem code_eq_iff {x y : Float} :
    Binary64.code x = Binary64.code y ↔ Binary64.same x y = true := by
  simp [Binary64.same]

theorem SameKind.of_agrees {filling : Bool} {t u : Trace} (ht : t ≠ .hole)
    (h : agrees filling t u = true) : SameKind t u := by
  fun_cases agrees filling t u
  case case1 => exact absurd rfl ht
  -- nodes of different kinds
  case case25 => simp [agrees] at h
  all_goals constructor

/-- A node agrees with the nodes that have its head and its parameters, and whose parts agree
with its own.  All facts about the order go through this one. -/
theorem agrees_iff {filling : Bool} {t u : Trace} (ht : t ≠ hole) :
    agrees filling t u = true ↔
      t.head = u.head ∧ t.params = u.params ∧ PartsAgree filling t.parts u.parts := by
  by_cases hkind : SameKind t u
  · cases hkind
    case assign x y t u =>
      cases x <;> cases y <;>
        simp [agrees, agreesTarget, head, params, parts, Target.exps, partsAgree_iff, and_assoc]
    all_goals
      simp [agrees, head, params, parts, partsAgree_iff, agreesItems_eq_true_iff,
        agreesFields_eq_true_iff, code_eq_iff, and_assoc] at ht ⊢
  · exact iff_of_false (fun h => hkind (.of_agrees ht h)) fun h => hkind (.of_head_eq h.1)

theorem agrees_hole_iff {filling : Bool} {u : Trace} :
    agrees filling hole u = true ↔ filling = true ∨ u = hole := by
  simp [agrees]

theorem ne_hole_of_agrees {filling : Bool} {t u : Trace} (h : agrees filling t u = true)
    (ht : t ≠ hole) : u ≠ hole := by
  rintro rfl
  exact ht (head_eq_hole_iff.mp ((agrees_iff ht).mp h).1)

/-! ## Well-formed traces -/

/-- Whether no field name occurs twice in a record. -/
def hasDistinctKeys (t : Trace) : Bool :=
  decide t.parts.fields.keys.Nodup

/-- Whether a hole stands only at the end of a statement list. -/
def holesEnd (b : List Trace) : Bool :=
  b.dropLast.all fun s => !s.isHole

/-- Whether holes stand only at the ends of the statement lists of a node. -/
def holesEndBodies (t : Trace) : Bool :=
  t.parts.bodies.all holesEnd

/-- Records have distinct names, and holes stand only at the ends of statement lists. -/
structure WellFormed (t : Trace) : Prop where
  keys : every hasDistinctKeys t = true
  holes : every holesEndBodies t = true

theorem holesEnd_cons_iff {t : Trace} {ts : List Trace} :
    holesEnd (t :: ts) = true ↔ (ts ≠ [] → t ≠ hole) ∧ holesEnd ts = true := by
  cases ts <;> simp [holesEnd]

/-- Statements, and possibly a hole behind them. -/
inductive IsBody : List Trace → Prop
  | nil : IsBody []
  | openEnd : IsBody [hole]
  | cons {t : Trace} {ts : List Trace} : t ≠ hole → IsBody ts → IsBody (t :: ts)

theorem holesEnd_iff {b : List Trace} : holesEnd b = true ↔ IsBody b := by
  constructor
  · intro h
    induction b with
    | nil => exact .nil
    | cons t ts ih =>
        obtain ⟨hlast, hends⟩ := holesEnd_cons_iff.mp h
        by_cases hhole : t = hole
        · obtain rfl : ts = [] := by_contra fun hne => hlast hne hhole
          rw [hhole]
          exact .openEnd
        · exact .cons hhole (ih hends)
  · intro h
    induction h with
    | nil => rfl
    | openEnd => rfl
    | cons hne _ ih => exact holesEnd_cons_iff.mpr ⟨fun _ => hne, ih⟩

namespace WellFormed

variable {t : Trace}

theorem of_mem {s : Trace} (h : WellFormed t) (hs : s ∈ t.children) : WellFormed s :=
  ⟨(every_eq_true_iff.mp h.keys).2 s hs, (every_eq_true_iff.mp h.holes).2 s hs⟩

theorem nodup (h : WellFormed t) : t.parts.fields.keys.Nodup := by
  simpa [hasDistinctKeys] using (every_eq_true_iff.mp h.keys).1

theorem isBody {b : List Trace} (h : WellFormed t) (hb : b ∈ t.parts.bodies) : IsBody b := by
  have hbodies := (every_eq_true_iff.mp h.holes).1
  simp only [holesEndBodies, List.all_eq_true] at hbodies
  exact holesEnd_iff.mp (hbodies b hb)

end WellFormed

theorem wellFormed_iff {t : Trace} :
    WellFormed t ↔ t.parts.fields.keys.Nodup ∧ (∀ b ∈ t.parts.bodies, IsBody b) ∧
      ∀ s ∈ t.children, WellFormed s := by
  constructor
  · intro h
    exact ⟨h.nodup, fun b hb => h.isBody hb, fun s hs => h.of_mem hs⟩
  · rintro ⟨hkeys, hholes, hchildren⟩
    constructor
    · exact every_eq_true_iff.mpr
        ⟨by simpa [hasDistinctKeys] using hkeys, fun s hs => (hchildren s hs).keys⟩
    · exact every_eq_true_iff.mpr
        ⟨by simpa [holesEndBodies, holesEnd_iff] using hholes, fun s hs => (hchildren s hs).holes⟩

/-! ## Laws of the order -/

theorem forall₂_imp_of_mem {α : Type} {R S : α → α → Prop} {as bs : List α}
    (h : ∀ a ∈ as, ∀ b ∈ bs, R a b → S a b) (hab : List.Forall₂ R as bs) : List.Forall₂ S as bs := by
  induction hab with
  | nil => exact .nil
  | @cons a b as bs hhead _ ih =>
      refine .cons (h a List.mem_cons_self b List.mem_cons_self hhead) (ih fun a' ha' b' hb' => ?_)
      exact h a' (List.mem_cons_of_mem _ ha') b' (List.mem_cons_of_mem _ hb')

theorem forall₂_trans {α : Type} {R S T : α → α → Prop} {as bs cs : List α}
    (h : ∀ a ∈ as, ∀ b ∈ bs, ∀ c, R a b → S b c → T a c)
    (hab : List.Forall₂ R as bs) (hbc : List.Forall₂ S bs cs) : List.Forall₂ T as cs := by
  induction hab generalizing cs with
  | nil => cases hbc; exact .nil
  | @cons a b as bs hhead _ ih =>
      cases hbc with
      | cons hhead' htail =>
          refine .cons (h a (by simp) b (by simp) _ hhead hhead') (ih ?_ htail)
          intro a' ha' b' hb'
          exact h a' (by simp [ha']) b' (by simp [hb'])

theorem agreesBody_refl {filling : Bool} {b : List Trace}
    (h : ∀ s ∈ b, agrees filling s s = true) : agreesBody filling b b = true := by
  induction b with
  | nil => simp
  | cons t ts ih =>
      rw [agreesBody_cons_iff]
      exact .inr ⟨t, ts, rfl, h t (by simp), ih fun s hs => h s (by simp [hs])⟩

/-- A trace whose records have distinct names agrees with itself. -/
theorem agrees_refl (filling : Bool) {t : Trace} (ht : every hasDistinctKeys t = true) :
    agrees filling t t = true := by
  induction t using induction with
  | node t ih =>
      obtain ⟨hkeys, hchildren⟩ := every_eq_true_iff.mp ht
      by_cases hhole : t = hole
      · simp [hhole, agrees_hole_iff]
      · have hnodup : t.parts.fields.keys.Nodup := by simpa [hasDistinctKeys] using hkeys
        rw [agrees_iff hhole]
        refine ⟨rfl, rfl, ?_, ?_, rfl, ?_⟩
        · refine List.forall₂_same.mpr fun s hs => ?_
          exact ih s (mem_children_of_exps hs) (hchildren s (mem_children_of_exps hs))
        · refine List.forall₂_same.mpr fun b hb => agreesBody_refl fun s hs => ?_
          exact ih s (mem_children_of_bodies hb hs) (hchildren s (mem_children_of_bodies hb hs))
        · intro f hf
          refine ⟨f.2, Fields.get?_of_mem hnodup hf, ?_⟩
          exact ih f.2 (mem_children_of_fields hf) (hchildren f.2 (mem_children_of_fields hf))

theorem agreesBody_open_iff {filling : Bool} {c : List Trace} :
    agreesBody filling [hole] c = true ↔ filling = true ∨ c = [hole] := by
  rw [agreesBody_cons_iff]
  simp only [agrees_hole_iff, agreesBody_nil_iff]
  constructor
  · rintro (⟨hfill, -, -⟩ | ⟨u, us, rfl, hfill | rfl, rfl⟩)
    · exact .inl hfill
    · exact .inl hfill
    · exact .inr rfl
  · rintro (hfill | rfl)
    · exact .inl ⟨hfill, trivial, trivial⟩
    · exact .inr ⟨hole, [], rfl, .inr rfl, rfl⟩

theorem agreesBody_cons_iff_of_ne {filling : Bool} {t : Trace} {ts c : List Trace}
    (ht : t ≠ hole) :
    agreesBody filling (t :: ts) c = true ↔
      ∃ u us, c = u :: us ∧ agrees filling t u = true ∧ agreesBody filling ts us = true := by
  simp [agreesBody_cons_iff, ht]

theorem agreesBody_trans {filling : Bool} {a b c : List Trace} (ha : IsBody a)
    (h : ∀ s ∈ a, ∀ u v, agrees filling s u = true → agrees filling u v = true →
      agrees filling s v = true)
    (hab : agreesBody filling a b = true) (hbc : agreesBody filling b c = true) :
    agreesBody filling a c = true := by
  induction ha generalizing b c with
  | nil =>
      obtain rfl := agreesBody_nil_iff.mp hab
      exact hbc
  | openEnd =>
      rcases agreesBody_open_iff.mp hab with hfill | rfl
      · exact agreesBody_open_iff.mpr (.inl hfill)
      · exact hbc
  | cons ht _ ih =>
      obtain ⟨u, us, rfl, htu, hts⟩ := (agreesBody_cons_iff_of_ne ht).mp hab
      obtain ⟨v, vs, rfl, huv, hus⟩ :=
        (agreesBody_cons_iff_of_ne (ne_hole_of_agrees htu ht)).mp hbc
      refine (agreesBody_cons_iff_of_ne ht).mpr ⟨v, vs, rfl, h _ (by simp) u v htu huv, ?_⟩
      exact ih (fun s hs => h s (by simp [hs])) hts hus

theorem agrees_trans {filling : Bool} {a b c : Trace} (ha : every holesEndBodies a = true)
    (hab : agrees filling a b = true) (hbc : agrees filling b c = true) :
    agrees filling a c = true := by
  induction a using induction generalizing b c with
  | node a ih =>
      obtain ⟨hends, hchildren⟩ := every_eq_true_iff.mp ha
      by_cases hhole : a = hole
      · subst hhole
        rcases agrees_hole_iff.mp hab with hfill | rfl
        · exact agrees_hole_iff.mpr (.inl hfill)
        · exact hbc
      · obtain ⟨hhead, hparams, hparts⟩ := (agrees_iff hhole).mp hab
        obtain ⟨hhead', hparams', hparts'⟩ := (agrees_iff (ne_hole_of_agrees hab hhole)).mp hbc
        rw [agrees_iff hhole]
        refine ⟨hhead.trans hhead', hparams.trans hparams', ?_, ?_,
          hparts.size.trans hparts'.size, ?_⟩
        · refine forall₂_trans (fun s hs u _ v hsu huv => ?_) hparts.exps hparts'.exps
          exact ih s (mem_children_of_exps hs) (hchildren s (mem_children_of_exps hs)) hsu huv
        · refine forall₂_trans (fun b hb c _ d hbc hcd => ?_) hparts.bodies hparts'.bodies
          have hbody : IsBody b := holesEnd_iff.mp (List.all_eq_true.mp hends b hb)
          refine agreesBody_trans hbody (fun s hs u v hsu huv => ?_) hbc hcd
          exact ih s (mem_children_of_bodies hb hs) (hchildren s (mem_children_of_bodies hb hs))
            hsu huv
        · intro f hf
          obtain ⟨u, hu, hfu⟩ := hparts.fields f hf
          obtain ⟨v, hv, huv⟩ := hparts'.fields _ (Fields.mem_of_get? hu)
          exact ⟨v, hv, ih f.2 (mem_children_of_fields hf)
            (hchildren f.2 (mem_children_of_fields hf)) hfu huv⟩

theorem forall₂_antisymm {α : Type} {R S T : α → α → Prop} {as bs : List α}
    (h : ∀ a ∈ as, ∀ b ∈ bs, R a b → S b a → T a b)
    (hab : List.Forall₂ R as bs) (hba : List.Forall₂ S bs as) : List.Forall₂ T as bs := by
  induction hab with
  | nil => exact .nil
  | @cons a b as bs hhead _ ih =>
      cases hba with
      | cons hhead' htail =>
          refine .cons (h a (by simp) b (by simp) hhead hhead') (ih ?_ htail)
          intro a' ha' b' hb'
          exact h a' (by simp [ha']) b' (by simp [hb'])

theorem agreesBody_antisymm {a b : List Trace} (ha : IsBody a) (hb : IsBody b)
    (h : ∀ s ∈ a, ∀ u ∈ b, Below s u → Below u s → Alike s u)
    (hab : agreesBody true a b = true) (hba : agreesBody true b a = true) :
    agreesBody false a b = true := by
  induction ha generalizing b with
  | nil => simpa using hab
  | openEnd =>
      cases hb with
      | nil => simp at hba
      | openEnd => exact agreesBody_open_iff.mpr (.inr rfl)
      | cons hu _ =>
          obtain ⟨v, vs, heq, huv, -⟩ := (agreesBody_cons_iff_of_ne hu).mp hba
          obtain ⟨rfl, rfl⟩ := List.cons.inj heq
          exact absurd rfl (ne_hole_of_agrees huv hu)
  | cons ht _ ih =>
      obtain ⟨u, us, rfl, htu, hts⟩ := (agreesBody_cons_iff_of_ne ht).mp hab
      have hu := ne_hole_of_agrees htu ht
      obtain ⟨_, _, heq, hut, hus⟩ := (agreesBody_cons_iff_of_ne hu).mp hba
      obtain ⟨rfl, rfl⟩ := List.cons.inj heq
      cases hb with
      | openEnd => exact absurd rfl hu
      | cons _ hbody =>
          refine (agreesBody_cons_iff_of_ne ht).mpr
            ⟨u, us, rfl, h _ (by simp) u (by simp) htu hut, ?_⟩
          exact ih hbody (fun s hs v hv => h s (by simp [hs]) v (by simp [hv])) hts hus

/-- Traces that are below each other are alike. -/
theorem alike_of_below {a b : Trace} (ha : WellFormed a) (hb : WellFormed b)
    (hab : Below a b) (hba : Below b a) : Alike a b := by
  induction a using induction generalizing b with
  | node a ih =>
      by_cases hhole : a = hole
      · subst hhole
        by_contra hne
        have hbhole : b ≠ hole := by
          rintro rfl
          exact hne (agrees_hole_iff.mpr (.inr rfl))
        exact ne_hole_of_agrees hba hbhole rfl
      · obtain ⟨hhead, hparams, hparts⟩ := (agrees_iff hhole).mp hab
        obtain ⟨-, -, hparts'⟩ := (agrees_iff (ne_hole_of_agrees hab hhole)).mp hba
        refine (agrees_iff hhole).mpr ⟨hhead, hparams, ?_, ?_, hparts.size, ?_⟩
        · refine forall₂_antisymm (fun s hs u hu hsu hus => ?_) hparts.exps hparts'.exps
          have hs' := mem_children_of_exps hs
          exact ih s hs' (ha.of_mem hs') (hb.of_mem (mem_children_of_exps hu)) hsu hus
        · refine forall₂_antisymm (fun c hc d hd hcd hdc => ?_) hparts.bodies hparts'.bodies
          refine agreesBody_antisymm (ha.isBody hc) (hb.isBody hd)
            (fun s hs u hu hsu hus => ?_) hcd hdc
          have hs' := mem_children_of_bodies hc hs
          exact ih s hs' (ha.of_mem hs') (hb.of_mem (mem_children_of_bodies hd hu)) hsu hus
        · rintro ⟨key, t⟩ hf
          obtain ⟨u, hu, htu⟩ := hparts.fields _ hf
          have hmem := Fields.mem_of_get? hu
          obtain ⟨t', ht', hut⟩ := hparts'.fields _ hmem
          obtain rfl : t = t' :=
            Option.some.inj ((Fields.get?_of_mem ha.nodup hf).symm.trans ht')
          have hs' := mem_children_of_fields hf
          exact ⟨u, hu, ih t hs' (ha.of_mem hs') (hb.of_mem (mem_children_of_fields hmem)) htu hut⟩

end TraceLoom.Trace
