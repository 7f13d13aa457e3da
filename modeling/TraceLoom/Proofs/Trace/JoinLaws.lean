import TraceLoom.Proofs.Trace.Join

/-!
Laws of joining: the joined trace is well formed, a trace absorbs what is below it, and joining
is associative, as a partial operation and without regard to which record gives the order of the
fields.
-/

namespace TraceLoom.Trace

/-! ## What stands in a joined trace -/

theorem length_of_joinAll_eq {α : Type} {f : α → α → Option α} {as bs cs : List α}
    (h : joinAll f as bs = some cs) : as.length = cs.length := by
  induction as generalizing bs cs with
  | nil => cases bs with
      | nil => simp_all [joinAll]
      | cons b bs => simp [joinAll] at h
  | cons a as ih => cases bs with
      | nil => simp [joinAll] at h
      | cons b bs =>
          simp only [joinAll, Option.bind_eq_some_iff, Option.map_eq_some_iff] at h
          obtain ⟨c, -, ds, hds, rfl⟩ := h
          simp [ih hds]

theorem mem_of_joinAll {α : Type} {f : α → α → Option α} {as bs cs : List α} {c : α}
    (h : joinAll f as bs = some cs) (hc : c ∈ cs) :
    ∃ a ∈ as, ∃ b ∈ bs, f a b = some c := by
  induction as generalizing bs cs with
  | nil => cases bs with
      | nil => simp_all [joinAll]
      | cons b bs => simp [joinAll] at h
  | cons a as ih => cases bs with
      | nil => simp [joinAll] at h
      | cons b bs =>
          simp only [joinAll, Option.bind_eq_some_iff, Option.map_eq_some_iff] at h
          obtain ⟨d, hd, ds, hds, rfl⟩ := h
          rcases List.mem_cons.mp hc with rfl | hc
          · exact ⟨a, by simp, b, by simp, hd⟩
          · obtain ⟨a', ha', b', hb', hf⟩ := ih hds hc
            exact ⟨a', by simp [ha'], b', by simp [hb'], hf⟩

theorem keys_of_joinFields {fs gs ms : Fields Trace} (h : joinFields fs gs = some ms) :
    ms.keys = fs.keys := by
  induction fs generalizing ms with
  | nil => simp_all [joinFields]
  | cons f fs ih =>
      simp only [joinFields, Option.bind_eq_some_iff, Option.map_eq_some_iff] at h
      obtain ⟨m, -, ms', hms, rfl⟩ := h
      simpa [Fields.keys] using ih hms

theorem PartsJoin.sameShape {p q r : Parts} (h : PartsJoin p q r) : p.SameShape r := by
  refine ⟨length_of_joinAll_eq h.exps, length_of_joinAll_eq h.bodies, ?_⟩
  simpa [Fields.keys] using (congrArg List.length (keys_of_joinFields h.fields)).symm

/-- What the joined record has under a name. -/
theorem get?_joinFields {fs gs ms : Fields Trace} (h : joinFields fs gs = some ms)
    {key : String} {t : Trace} (ht : fs.get? key = some t) :
    ∃ m, ms.get? key = some m ∧
      (match gs.get? key with
        | some u => join t u
        | none => some t) = some m := by
  induction fs generalizing ms with
  | nil => simp [Fields.get?] at ht
  | cons f fs ih =>
      simp only [joinFields, Option.bind_eq_some_iff, Option.map_eq_some_iff] at h
      obtain ⟨m, hm, ms', hms, rfl⟩ := h
      obtain ⟨name, t'⟩ := f
      by_cases hname : name = key
      · subst hname
        obtain rfl : t' = t := by simpa [Fields.get?] using ht
        exact ⟨m, by simp [Fields.get?], hm⟩
      · have hrest : Fields.get? key fs = some t := by simpa [Fields.get?, hname] using ht
        obtain ⟨m', hm', hjoin⟩ := ih hms hrest
        exact ⟨m', by simpa [Fields.get?, hname] using hm', hjoin⟩

theorem exists_joinFields {fs gs : Fields Trace} (hfs : fs.keys.Nodup)
    (h : ∀ key t u, fs.get? key = some t → gs.get? key = some u → ∃ m, join t u = some m) :
    ∃ ms, joinFields fs gs = some ms := by
  induction fs with
  | nil => exact ⟨[], rfl⟩
  | cons f fs ih =>
      obtain ⟨key, t⟩ := f
      simp only [Fields.keys, List.map_cons, List.nodup_cons] at hfs
      obtain ⟨ms, hms⟩ := ih hfs.2 fun key' t' u ht' hu => by
        refine h key' t' u ?_ hu
        have hne : key ≠ key' := by
          rintro rfl
          exact hfs.1 (Fields.exists_get?_iff_mem_keys.mp ⟨t', ht'⟩)
        simpa [Fields.get?, hne] using ht'
      cases hu : gs.get? key with
      | none => exact ⟨(key, t) :: ms, by simp [joinFields, hu, hms]⟩
      | some u =>
          obtain ⟨m, hm⟩ := h key t u (by simp [Fields.get?]) hu
          exact ⟨(key, m) :: ms, by simp [joinFields, hu, hm, hms]⟩

/-- How two well-formed nodes join. -/
theorem WellFormed.join_eq_some_iff {t u m : Trace} (ht : WellFormed t) (hu : WellFormed u)
    (hthole : t ≠ hole) (huhole : u ≠ hole) :
    join t u = some m ↔
      t.head = u.head ∧ t.joinedParams = u.joinedParams ∧
        ∃ p, PartsJoin t.parts u.parts p ∧ t.withParts p = m :=
  Trace.join_eq_some_iff hthole huhole ht.nodup hu.nodup

theorem ne_hole_of_withParts {t : Trace} (ht : t ≠ hole) (p : Parts) : t.withParts p ≠ hole := by
  intro h
  apply ht
  rw [← head_eq_hole_iff, ← head_withParts p t, h]
  rfl

/-- A joined node has the head, the parameters and the names of the first one, and joined
parts. -/
structure NodeJoin (t u m : Trace) : Prop where
  head : m.head = t.head
  head' : t.head = u.head
  params : m.params = t.params
  joinedParams : t.joinedParams = u.joinedParams
  parts : PartsJoin t.parts u.parts m.parts

theorem nodeJoin_of_join {t u m : Trace} (ht : WellFormed t) (hu : WellFormed u)
    (hthole : t ≠ hole) (huhole : u ≠ hole) (h : join t u = some m) : NodeJoin t u m := by
  obtain ⟨hhead, hparams, p, hparts, rfl⟩ := (ht.join_eq_some_iff hu hthole huhole).mp h
  refine ⟨by simp, hhead, by simp, hparams, ?_⟩
  rwa [parts_withParts hparts.sameShape]

theorem isBody_of_joinBody {b c d : List Trace} (hb : IsBody b) (hc : IsBody c)
    (hne : ∀ s ∈ b, ∀ u ∈ c, ∀ m, s ≠ hole → join s u = some m → m ≠ hole)
    (h : joinBody b c = some d) : IsBody d := by
  induction hb generalizing c d with
  | nil =>
      cases hc with
      | nil => simp_all [IsBody.nil]
      | openEnd =>
          obtain rfl : [] = d := by simpa [IsBody.nil] using h
          exact .nil
      | cons hu _ => simp [joinBody_nil_cons hu] at h
  | openEnd =>
      obtain rfl : c = d := by simpa using h
      exact hc
  | @cons t ts ht hts ih =>
      cases hc with
      | nil => simp [joinBody_cons_nil ht] at h
      | openEnd =>
          obtain rfl : t :: ts = d := by simpa [IsBody.cons ht hts] using h
          exact .cons ht hts
      | @cons u us hu hus =>
          rw [joinBody_cons_cons ht hu] at h
          simp only [Option.bind_eq_some_iff, Option.map_eq_some_iff] at h
          obtain ⟨m, hm, ms, hms, rfl⟩ := h
          refine .cons (hne t (by simp) u (by simp) m ht hm) (ih hus ?_ hms)
          exact fun s hs v hv => hne s (by simp [hs]) v (by simp [hv])

/-- A statement of a joined list comes from one of the two lists or is joined from both. -/
theorem mem_of_joinBody {b c d : List Trace} {m : Trace} (hb : IsBody b) (hc : IsBody c)
    (h : joinBody b c = some d) (hm : m ∈ d) :
    m ∈ b ∨ m ∈ c ∨ ∃ s ∈ b, ∃ u ∈ c, join s u = some m := by
  induction hb generalizing c d with
  | nil =>
      cases hc with
      | nil => simp_all
      | openEnd => simp_all [IsBody.nil]
      | cons hu _ => simp [joinBody_nil_cons hu] at h
  | openEnd =>
      obtain rfl : c = d := by simpa using h
      exact .inr (.inl hm)
  | @cons t ts ht hts ih =>
      cases hc with
      | nil => simp [joinBody_cons_nil ht] at h
      | openEnd =>
          obtain rfl : t :: ts = d := by simpa [IsBody.cons ht hts] using h
          exact .inl hm
      | @cons u us hu hus =>
          rw [joinBody_cons_cons ht hu] at h
          simp only [Option.bind_eq_some_iff, Option.map_eq_some_iff] at h
          obtain ⟨m', hm', ms, hms, rfl⟩ := h
          rcases List.mem_cons.mp hm with rfl | hm
          · exact .inr (.inr ⟨t, by simp, u, by simp, hm'⟩)
          · rcases ih hus hms hm with hs | hu | ⟨s, hs, v, hv, hjoin⟩
            · exact .inl (by simp [hs])
            · exact .inr (.inl (by simp [hu]))
            · exact .inr (.inr ⟨s, by simp [hs], v, by simp [hv], hjoin⟩)

/-- A trace in a joined node comes from one of the two nodes or is joined from both. -/
theorem mem_children_of_join {t u m s : Trace} (ht : WellFormed t) (hu : WellFormed u)
    (hthole : t ≠ hole) (huhole : u ≠ hole) (h : join t u = some m) (hs : s ∈ m.children) :
    s ∈ t.children ∨ s ∈ u.children ∨ ∃ t' ∈ t.children, ∃ u' ∈ u.children, join t' u' = some s := by
  obtain ⟨-, -, -, -, hparts⟩ := nodeJoin_of_join ht hu hthole huhole h
  simp only [children, List.mem_append, List.mem_flatten, List.mem_map] at hs
  rcases hs with (hs | ⟨d, hd, hs⟩) | ⟨f, hf, rfl⟩
  · obtain ⟨t', ht', u', hu', hjoin⟩ := mem_of_joinAll hparts.exps hs
    exact .inr (.inr ⟨t', mem_children_of_exps ht', u', mem_children_of_exps hu', hjoin⟩)
  · obtain ⟨b, hb, c, hc, hjoin⟩ := mem_of_joinAll hparts.bodies hd
    rcases mem_of_joinBody (ht.isBody hb) (hu.isBody hc) hjoin hs with
      hs | hs | ⟨t', ht', u', hu', hjoin⟩
    · exact .inl (mem_children_of_bodies hb hs)
    · exact .inr (.inl (mem_children_of_bodies hc hs))
    · exact .inr (.inr ⟨t', mem_children_of_bodies hb ht', u', mem_children_of_bodies hc hu', hjoin⟩)
  · have hkeys := keys_of_joinFields hparts.fields
    obtain ⟨t', ht'⟩ := Fields.exists_get?_iff_mem_keys.mpr
      (hkeys ▸ Fields.mem_keys_of_mem hf)
    obtain ⟨m', hm', hjoin⟩ := get?_joinFields hparts.fields ht'
    have hnodup : m.parts.fields.keys.Nodup := hkeys ▸ ht.nodup
    obtain rfl : f.2 = m' := Option.some.inj ((Fields.get?_of_mem hnodup hf).symm.trans hm')
    have hmem := mem_children_of_fields (Fields.mem_of_get? ht')
    cases hget : u.parts.fields.get? f.1 with
    | none =>
        obtain rfl : t' = f.2 := by simpa [hget] using hjoin
        exact .inl hmem
    | some u' =>
        exact .inr (.inr ⟨t', hmem, u', mem_children_of_fields (Fields.mem_of_get? hget),
          by simpa [hget] using hjoin⟩)

theorem ne_hole_of_join {t u m : Trace} (ht : WellFormed t) (hu : WellFormed u)
    (hthole : t ≠ hole) (h : join t u = some m) : m ≠ hole := by
  by_cases huhole : u = hole
  · subst huhole
    obtain rfl : t = m := by simpa using h
    exact hthole
  · have hhead := (nodeJoin_of_join ht hu hthole huhole h).head
    rintro rfl
    exact hthole (head_eq_hole_iff.mp hhead.symm)

theorem WellFormed.join {t u m : Trace} (ht : WellFormed t) (hu : WellFormed u)
    (h : join t u = some m) : WellFormed m := by
  induction t using induction generalizing u m with
  | node t ih =>
      by_cases hthole : t = hole
      · subst hthole
        obtain rfl : u = m := by simpa using h
        exact hu
      by_cases huhole : u = hole
      · subst huhole
        obtain rfl : t = m := by simpa using h
        exact ht
      have hparts := (nodeJoin_of_join ht hu hthole huhole h).parts
      refine wellFormed_iff.mpr ⟨?_, ?_, ?_⟩
      · rw [keys_of_joinFields hparts.fields]
        exact ht.nodup
      · intro d hd
        obtain ⟨b, hb, c, hc, hjoin⟩ := mem_of_joinAll hparts.bodies hd
        refine isBody_of_joinBody (ht.isBody hb) (hu.isBody hc) ?_ hjoin
        intro s hs v hv m' hne
        exact ne_hole_of_join (ht.of_mem (mem_children_of_bodies hb hs))
          (hu.of_mem (mem_children_of_bodies hc hv)) hne
      · intro s hs
        rcases mem_children_of_join ht hu hthole huhole h hs with
          hs | hs | ⟨t', ht', u', hu', hjoin⟩
        · exact ht.of_mem hs
        · exact hu.of_mem hs
        · exact ih t' ht' (ht.of_mem ht') (hu.of_mem hu') hjoin

/-! ## Absorption -/

theorem joinAll_eq_left {α : Type} {R : α → α → Prop} {f : α → α → Option α} {as bs : List α}
    (h : ∀ a ∈ as, ∀ b ∈ bs, R b a → f a b = some a) (hba : List.Forall₂ R bs as) :
    joinAll f as bs = some as := by
  induction hba with
  | nil => rfl
  | @cons b a bs as hhead _ ih =>
      have htail := ih fun a' ha' b' hb' => h a' (by simp [ha']) b' (by simp [hb'])
      simp [joinAll, h a (by simp) b (by simp) hhead, htail]

theorem joinBody_eq_left {b c : List Trace} (hb : IsBody b) (hc : IsBody c)
    (h : ∀ s ∈ b, ∀ u ∈ c, Below u s → join s u = some s) (hcb : agreesBody true c b = true) :
    joinBody b c = some b := by
  induction hc generalizing b with
  | nil =>
      obtain rfl := agreesBody_nil_iff.mp hcb
      rfl
  | openEnd => exact joinBody_open_right hb
  | @cons u us hu _ ih =>
      obtain ⟨s, ss, rfl, hus, htail⟩ := (agreesBody_cons_iff_of_ne hu).mp hcb
      have hs := ne_hole_of_agrees hus hu
      cases hb with
      | openEnd => exact absurd rfl hs
      | cons _ hss =>
          have htail := ih hss (fun s' hs' v hv => h s' (by simp [hs']) v (by simp [hv])) htail
          simp [joinBody_cons_cons hs hu, h s (by simp) u (by simp) hus, htail]

theorem joinFields_eq_left {fs gs : Fields Trace} (hfs : fs.keys.Nodup)
    (h : ∀ key t u, fs.get? key = some t → gs.get? key = some u → join t u = some t) :
    joinFields fs gs = some fs := by
  induction fs with
  | nil => rfl
  | cons f fs ih =>
      obtain ⟨key, t⟩ := f
      simp only [Fields.keys, List.map_cons, List.nodup_cons] at hfs
      have htail := ih hfs.2 fun key' t' u ht' hu => by
        refine h key' t' u ?_ hu
        have hne : key ≠ key' := by
          rintro rfl
          exact hfs.1 (Fields.exists_get?_iff_mem_keys.mp ⟨t', ht'⟩)
        simpa [Fields.get?, hne] using ht'
      cases hu : gs.get? key with
      | none => simp [joinFields, hu, htail]
      | some u => simp [joinFields, hu, h key t u (by simp [Fields.get?]) hu, htail]

/-- A trace absorbs what is below it. -/
theorem join_eq_left_of_below {a b : Trace} (ha : WellFormed a) (hb : WellFormed b)
    (hba : Below b a) : join a b = some a := by
  induction b using induction generalizing a with
  | node b ih =>
      by_cases hbhole : b = hole
      · simp [hbhole]
      obtain ⟨hhead, hparams, hparts⟩ := (agrees_iff hbhole).mp hba
      have hahole := ne_hole_of_agrees hba hbhole
      refine (ha.join_eq_some_iff hb hahole hbhole).mpr
        ⟨hhead.symm, by simp [joinedParams, hparams], a.parts, ⟨?_, ?_, ?_, ?_⟩, by simp⟩
      · refine joinAll_eq_left (fun s hs u hu hus => ?_) hparts.exps
        have hu' := mem_children_of_exps hu
        exact ih u hu' (ha.of_mem (mem_children_of_exps hs)) (hb.of_mem hu') hus
      · refine joinAll_eq_left (fun c hc d hd hdc => ?_) hparts.bodies
        refine joinBody_eq_left (ha.isBody hc) (hb.isBody hd) (fun s hs u hu hus => ?_) hdc
        have hu' := mem_children_of_bodies hd hu
        exact ih u hu' (ha.of_mem (mem_children_of_bodies hc hs)) (hb.of_mem hu') hus
      · refine (sameKeys_iff hb.nodup).mpr (Fields.keys_perm_of_subset hb.nodup hparts.size.symm ?_)
        intro key hkey
        obtain ⟨u, hu⟩ := Fields.exists_get?_iff_mem_keys.mpr hkey
        obtain ⟨t, ht, -⟩ := hparts.fields _ (Fields.mem_of_get? hu)
        exact Fields.exists_get?_iff_mem_keys.mp ⟨t, ht⟩
      · refine joinFields_eq_left ha.nodup fun key t u ht hu => ?_
        have hmem := Fields.mem_of_get? hu
        obtain ⟨t', ht', hut⟩ := hparts.fields _ hmem
        obtain rfl : t = t' := Option.some.inj (ht.symm.trans ht')
        have hu' := mem_children_of_fields hmem
        exact ih u hu' (ha.of_mem (mem_children_of_fields (Fields.mem_of_get? ht)))
          (hb.of_mem hu') hut

theorem join_self {a : Trace} (ha : WellFormed a) : join a a = some a :=
  join_eq_left_of_below ha ha (agrees_refl true ha.keys)

end TraceLoom.Trace
