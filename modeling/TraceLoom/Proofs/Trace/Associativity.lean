import TraceLoom.Proofs.Trace.JoinLaws

/-!
Joining is associative.  The first trace that has observed something decides how it is written, so
both bracketings give the same trace, down to the order of fields and the sign of zero.
-/

namespace TraceLoom.Trace

/-! ## Lists -/

/-- Two computations that do not depend on each other can be done in any order. -/
theorem bind_both {α β γ δ ε : Type} (x : Option α) (y : Option β) (f : α → Option γ)
    (g : β → Option δ) (k : γ → δ → ε) :
    (x.bind fun a => y.bind fun b => (f a).bind fun c => (g b).map (k c)) =
      (x.bind f).bind fun c => (y.bind g).map (k c) := by
  cases x <;> cases y <;> simp

theorem joinAll_assoc {α : Type} {f : α → α → Option α} {as bs cs : List α}
    (h : ∀ a ∈ as, ∀ b ∈ bs, ∀ c ∈ cs, (f a b).bind (f · c) = (f b c).bind (f a ·)) :
    (joinAll f as bs).bind (joinAll f · cs) = (joinAll f bs cs).bind (joinAll f as ·) := by
  by_cases hab : as.length = bs.length
  · by_cases hbc : bs.length = cs.length
    · induction as generalizing bs cs with
      | nil =>
          obtain rfl := List.length_eq_zero_iff.mp hab.symm
          obtain rfl := List.length_eq_zero_iff.mp hbc.symm
          rfl
      | cons a as ih =>
          obtain ⟨b, bs, rfl⟩ := List.exists_cons_of_length_eq_add_one hab.symm
          obtain ⟨c, cs, rfl⟩ := List.exists_cons_of_length_eq_add_one (hab.trans hbc).symm
          have hhead := h a (by simp) b (by simp) c (by simp)
          have htail : (joinAll f as bs).bind (joinAll f · cs) =
              (joinAll f bs cs).bind (joinAll f as ·) :=
            ih (fun a' ha' b' hb' c' hc' => h a' (by simp [ha']) b' (by simp [hb']) c'
              (by simp [hc'])) (by simpa using hab) (by simpa using hbc)
          simp only [joinAll, Option.bind_assoc, Option.bind_map, Function.comp_def]
          rw [bind_both (f a b) (joinAll f as bs) (f · c) (joinAll f · cs) List.cons, hhead, htail,
            bind_both (f b c) (joinAll f bs cs) (f a ·) (joinAll f as ·) List.cons]
    · rw [joinAll_eq_none hbc, Option.bind_none, Option.bind_eq_none_iff]
      intro ds hds
      exact joinAll_eq_none (by rw [← length_of_joinAll_eq hds, hab]; exact hbc)
  · rw [joinAll_eq_none hab, Option.bind_none, eq_comm, Option.bind_eq_none_iff]
    intro ds hds
    exact joinAll_eq_none (by rw [← length_of_joinAll_eq hds]; exact hab)

/-! ## Statement lists -/

/-- Joining with a list that has a statement gives a list that has one. -/
theorem exists_cons_of_joinBody {t : Trace} {ts c d : List Trace} (ht : t ≠ hole)
    (hts : IsBody ts) (hc : IsBody c) (hwt : WellFormed t) (hwc : ∀ u ∈ c, WellFormed u)
    (h : joinBody (t :: ts) c = some d) : ∃ m ms, d = m :: ms ∧ m ≠ hole := by
  cases hc with
  | nil => simp [joinBody_cons_nil ht] at h
  | openEnd =>
      obtain rfl : t :: ts = d := by simpa [IsBody.cons ht hts] using h
      exact ⟨t, ts, rfl, ht⟩
  | @cons u us hu hus =>
      rw [joinBody_cons_cons ht hu] at h
      simp only [Option.bind_eq_some_iff, Option.map_eq_some_iff] at h
      obtain ⟨m, hm, ms, -, rfl⟩ := h
      exact ⟨m, ms, rfl, ne_hole_of_join hwt (hwc u (by simp)) ht hm⟩

theorem isBody_of_joinBody_of_wellFormed {b c d : List Trace} (hb : IsBody b) (hc : IsBody c)
    (hwb : ∀ s ∈ b, WellFormed s) (hwc : ∀ s ∈ c, WellFormed s) (h : joinBody b c = some d) :
    IsBody d :=
  isBody_of_joinBody hb hc (fun s hs u hu _ => ne_hole_of_join (hwb s hs) (hwc u hu)) h

theorem joinBody_cons_bind {s t u : Trace} {ss ts us : List Trace} (hs : s ≠ hole) (ht : t ≠ hole)
    (hu : u ≠ hole) (hws : WellFormed s) (hwt : WellFormed t) :
    (joinBody (s :: ss) (t :: ts)).bind (joinBody · (u :: us)) =
      ((join s t).bind (join · u)).bind fun m =>
        ((joinBody ss ts).bind (joinBody · us)).map (m :: ·) := by
  rw [← bind_both, joinBody_cons_cons hs ht]
  cases hm : join s t with
  | none => rfl
  | some m =>
      have hne := ne_hole_of_join hws hwt hs hm
      cases joinBody ss ts with
      | none => rfl
      | some ms => exact joinBody_cons_cons hne hu

theorem bind_joinBody_cons {s t u : Trace} {ss ts us : List Trace} (hs : s ≠ hole) (ht : t ≠ hole)
    (hu : u ≠ hole) (hwt : WellFormed t) (hwu : WellFormed u) :
    (joinBody (t :: ts) (u :: us)).bind (joinBody (s :: ss) ·) =
      ((join t u).bind (join s ·)).bind fun m =>
        ((joinBody ts us).bind (joinBody ss ·)).map (m :: ·) := by
  rw [← bind_both, joinBody_cons_cons ht hu]
  cases hm : join t u with
  | none => rfl
  | some m =>
      have hne := ne_hole_of_join hwt hwu ht hm
      cases joinBody ts us with
      | none => rfl
      | some ms => exact joinBody_cons_cons hs hne

theorem joinBody_assoc {a b c : List Trace} (ha : IsBody a) (hb : IsBody b) (hc : IsBody c)
    (hwa : ∀ s ∈ a, WellFormed s) (hwb : ∀ s ∈ b, WellFormed s) (hwc : ∀ s ∈ c, WellFormed s)
    (h : ∀ s ∈ a, ∀ t ∈ b, ∀ u ∈ c, (join s t).bind (join · u) = (join t u).bind (join s ·)) :
    (joinBody a b).bind (joinBody · c) = (joinBody b c).bind (joinBody a ·) := by
  induction ha generalizing b c with
  | openEnd => simp
  | nil => cases hb with
      | openEnd => simp [IsBody.nil]
      | nil => cases hc with
          | nil => rfl
          | openEnd => simp [IsBody.nil]
          | cons hu _ => simp [joinBody_nil_cons hu]
      | @cons t ts ht hts =>
          rw [joinBody_nil_cons ht, Option.bind_none, eq_comm, Option.bind_eq_none_iff]
          intro d hd
          obtain ⟨m, ms, rfl, hm⟩ := exists_cons_of_joinBody ht hts hc (hwb t (by simp)) hwc hd
          exact joinBody_nil_cons hm
  | @cons s ss hs hss ih => cases hb with
      | openEnd => simp [IsBody.cons hs hss]
      | nil => cases hc with
          | nil => simp [joinBody_cons_nil hs]
          | openEnd => simp [joinBody_cons_nil hs, IsBody.nil]
          | cons hu _ => simp [joinBody_cons_nil hs, joinBody_nil_cons hu]
      | @cons t ts ht hts => cases hc with
          | nil =>
              rw [joinBody_cons_nil ht, Option.bind_none, Option.bind_eq_none_iff]
              intro d hd
              obtain ⟨m, ms, rfl, hm⟩ :=
                exists_cons_of_joinBody hs hss (.cons ht hts) (hwa s (by simp)) hwb hd
              exact joinBody_cons_nil hm
          | openEnd =>
              rw [joinBody_open_right (.cons ht hts), Option.bind_some]
              cases hd : joinBody (s :: ss) (t :: ts) with
              | none => rfl
              | some d =>
                  exact joinBody_open_right
                    (isBody_of_joinBody_of_wellFormed (.cons hs hss) (.cons ht hts) hwa hwb hd)
          | @cons u us hu hus =>
              have htail := ih hts hus (fun s hs => hwa s (by simp [hs]))
                (fun t ht => hwb t (by simp [ht])) (fun u hu => hwc u (by simp [hu]))
                fun s hs t ht u hu => h s (by simp [hs]) t (by simp [ht]) u (by simp [hu])
              have hws := hwa s (by simp)
              have hwt := hwb t (by simp)
              have hwu := hwc u (by simp)
              rw [joinBody_cons_bind hs ht hu hws hwt, bind_joinBody_cons hs ht hu hwt hwu, htail,
                h s (by simp) t (by simp) u (by simp)]

/-! ## Records -/

theorem fields_ext {fs gs : Fields Trace} (hfs : fs.keys.Nodup) (hkeys : fs.keys = gs.keys)
    (h : ∀ key t, fs.get? key = some t → gs.get? key = some t) : fs = gs := by
  induction fs generalizing gs with
  | nil => cases gs with
      | nil => rfl
      | cons g gs => simp [Fields.keys] at hkeys
  | cons f fs ih => cases gs with
      | nil => simp [Fields.keys] at hkeys
      | cons g gs =>
          obtain ⟨key, t⟩ := f
          obtain ⟨key', u⟩ := g
          simp only [Fields.keys, List.map_cons, List.nodup_cons, List.cons.injEq] at hfs hkeys
          obtain ⟨rfl, hkeys⟩ := hkeys
          obtain rfl : u = t := by simpa [Fields.get?] using h key t (by simp [Fields.get?])
          rw [ih hfs.2 hkeys fun name s hs => ?_]
          have hne : key ≠ name := by
            rintro rfl
            exact hfs.1 (Fields.exists_get?_iff_mem_keys.mp ⟨s, hs⟩)
          simpa [Fields.get?, hne] using h name s (by simpa [Fields.get?, hne] using hs)

/-- Joined records have the names of the first one and under each the joined trace. -/
theorem joinFields_eq_some_iff {fs gs ms : Fields Trace} (hfs : fs.keys.Nodup)
    (hperm : gs.keys.Perm fs.keys) :
    joinFields fs gs = some ms ↔
      ms.keys = fs.keys ∧ ∀ key t u, fs.get? key = some t → gs.get? key = some u →
        ∃ m, ms.get? key = some m ∧ join t u = some m := by
  constructor
  · intro h
    refine ⟨keys_of_joinFields h, fun key t u ht hu => ?_⟩
    obtain ⟨m, hm, hjoin⟩ := get?_joinFields h ht
    exact ⟨m, hm, by simpa [hu] using hjoin⟩
  · rintro ⟨hkeys, h⟩
    obtain ⟨ms', hms'⟩ := exists_joinFields hfs fun key t u ht hu =>
      let ⟨m, _, hm⟩ := h key t u ht hu
      ⟨m, hm⟩
    have hkeys' := keys_of_joinFields hms'
    rw [hms', fields_ext (hkeys' ▸ hfs) (hkeys'.trans hkeys.symm) fun key m hm => ?_]
    obtain ⟨t, ht⟩ := Fields.exists_get?_iff_mem_keys.mpr
      (hkeys' ▸ Fields.exists_get?_iff_mem_keys.mp ⟨m, hm⟩)
    obtain ⟨u, hu⟩ := Fields.exists_get?_iff_mem_keys.mpr
      (hperm.symm.subset (Fields.exists_get?_iff_mem_keys.mp ⟨t, ht⟩))
    obtain ⟨m', hm', hjoin⟩ := h key t u ht hu
    obtain ⟨m'', hm'', hjoin'⟩ := get?_joinFields hms' ht
    simp only [hu, hjoin, Option.some.injEq] at hjoin'
    rw [hm', hjoin', ← hm'', hm]

theorem exists_get?_of_perm {fs gs : Fields Trace} (hperm : gs.keys.Perm fs.keys) {key : String}
    {t : Trace} (h : fs.get? key = some t) : ∃ u, gs.get? key = some u :=
  Fields.exists_get?_iff_mem_keys.mpr
    (hperm.symm.subset (Fields.exists_get?_iff_mem_keys.mp ⟨t, h⟩))

theorem joinFields_assoc {fs gs hs : Fields Trace} (hfs : fs.keys.Nodup) (hgs : gs.keys.Nodup)
    (hgf : gs.keys.Perm fs.keys) (hhg : hs.keys.Perm gs.keys)
    (h : ∀ key s t u, fs.get? key = some s → gs.get? key = some t → hs.get? key = some u →
      (join s t).bind (join · u) = (join t u).bind (join s ·)) :
    (joinFields fs gs).bind (joinFields · hs) = (joinFields gs hs).bind (joinFields fs ·) := by
  ext ms
  simp only [Option.bind_eq_some_iff]
  constructor
  · rintro ⟨fgs, hfg, hms⟩
    have hkeys := keys_of_joinFields hfg
    rw [joinFields_eq_some_iff hfs hgf] at hfg
    rw [joinFields_eq_some_iff (hkeys ▸ hfs) (hkeys ▸ hhg.trans hgf)] at hms
    -- what the last two have under a name
    have hlast : ∀ key s t u, fs.get? key = some s → gs.get? key = some t →
        hs.get? key = some u → ∃ n, join t u = some n ∧ ∃ m, ms.get? key = some m ∧
          join s n = some m := by
      intro key s t u hsk htk huk
      obtain ⟨st, hst, hjoin⟩ := hfg.2 key s t hsk htk
      obtain ⟨m, hm, hjoin'⟩ := hms.2 key st u hst huk
      have hassoc := h key s t u hsk htk huk
      rw [hjoin, Option.bind_some, hjoin', eq_comm, Option.bind_eq_some_iff] at hassoc
      obtain ⟨n, hn, hsn⟩ := hassoc
      exact ⟨n, hn, m, hm, hsn⟩
    obtain ⟨ghs, hgh⟩ := exists_joinFields hgs fun key t u htk huk =>
      let ⟨s, hsk⟩ := exists_get?_of_perm hgf.symm htk
      let ⟨n, hn, _⟩ := hlast key s t u hsk htk huk
      ⟨n, hn⟩
    have hkeys' := keys_of_joinFields hgh
    refine ⟨ghs, hgh, (joinFields_eq_some_iff hfs (hkeys' ▸ hgf)).mpr
      ⟨hms.1.trans hkeys, fun key s n hsk hnk => ?_⟩⟩
    obtain ⟨t, htk⟩ := exists_get?_of_perm hgf hsk
    obtain ⟨u, huk⟩ := exists_get?_of_perm hhg htk
    obtain ⟨n', hn', m, hm, hsn⟩ := hlast key s t u hsk htk huk
    obtain ⟨n'', hnk', hjoin⟩ := ((joinFields_eq_some_iff hgs hhg).mp hgh).2 key t u htk huk
    obtain rfl : n = n'' := Option.some.inj (hnk.symm.trans hnk')
    obtain rfl : n = n' := Option.some.inj (hjoin.symm.trans hn')
    exact ⟨m, hm, hsn⟩
  · rintro ⟨ghs, hgh, hms⟩
    have hkeys := keys_of_joinFields hgh
    rw [joinFields_eq_some_iff hgs hhg] at hgh
    rw [joinFields_eq_some_iff hfs (hkeys ▸ hgf)] at hms
    have hfirst : ∀ key s t u, fs.get? key = some s → gs.get? key = some t →
        hs.get? key = some u → ∃ n, join s t = some n ∧ ∃ m, ms.get? key = some m ∧
          join n u = some m := by
      intro key s t u hsk htk huk
      obtain ⟨tu, htuk, hjoin⟩ := hgh.2 key t u htk huk
      obtain ⟨m, hm, hjoin'⟩ := hms.2 key s tu hsk htuk
      have hassoc := h key s t u hsk htk huk
      rw [hjoin, Option.bind_some, hjoin', Option.bind_eq_some_iff] at hassoc
      obtain ⟨n, hn, hnu⟩ := hassoc
      exact ⟨n, hn, m, hm, hnu⟩
    obtain ⟨fgs, hfg⟩ := exists_joinFields hfs fun key s t hsk htk =>
      let ⟨u, huk⟩ := exists_get?_of_perm hhg htk
      let ⟨n, hn, _⟩ := hfirst key s t u hsk htk huk
      ⟨n, hn⟩
    have hkeys' := keys_of_joinFields hfg
    refine ⟨fgs, hfg, (joinFields_eq_some_iff (hkeys' ▸ hfs) (hkeys' ▸ hhg.trans hgf)).mpr
      ⟨hms.1.trans hkeys'.symm, fun key n u hnk huk => ?_⟩⟩
    obtain ⟨t, htk⟩ := exists_get?_of_perm hhg.symm huk
    obtain ⟨s, hsk⟩ := exists_get?_of_perm hgf.symm htk
    obtain ⟨n', hn', m, hm, hnu⟩ := hfirst key s t u hsk htk huk
    obtain ⟨n'', hnk', hjoin⟩ := ((joinFields_eq_some_iff hfs hgf).mp hfg).2 key s t hsk htk
    obtain rfl : n = n'' := Option.some.inj (hnk.symm.trans hnk')
    obtain rfl : n = n' := Option.some.inj (hjoin.symm.trans hn')
    exact ⟨m, hm, hnu⟩

/-! ## Nodes -/

/-- The traces that stand in three nodes join in any bracketing. -/
structure PartsAssoc (p q r : Parts) : Prop where
  exps : (joinAll join p.exps q.exps).bind (joinAll join · r.exps) =
    (joinAll join q.exps r.exps).bind (joinAll join p.exps ·)
  bodies : (joinAll joinBody p.bodies q.bodies).bind (joinAll joinBody · r.bodies) =
    (joinAll joinBody q.bodies r.bodies).bind (joinAll joinBody p.bodies ·)
  fields : q.fields.keys.Perm p.fields.keys → r.fields.keys.Perm q.fields.keys →
    (joinFields p.fields q.fields).bind (joinFields · r.fields) =
      (joinFields q.fields r.fields).bind (joinFields p.fields ·)

theorem bind_eq_bind_some {α β γ : Type} {x : Option α} {y : Option β} {f : α → Option γ}
    {g : β → Option γ} (h : x.bind f = y.bind g) {c : γ} :
    (∃ a, x = some a ∧ f a = some c) ↔ ∃ b, y = some b ∧ g b = some c := by
  rw [← Option.bind_eq_some_iff, ← Option.bind_eq_some_iff, h]

theorem partsJoin_assoc {p q r s : Parts} (hq : q.fields.keys.Nodup) (hr : r.fields.keys.Nodup)
    (h : PartsAssoc p q r) :
    (∃ x, PartsJoin p q x ∧ PartsJoin x r s) ↔ ∃ y, PartsJoin q r y ∧ PartsJoin p y s := by
  constructor
  · rintro ⟨x, hpq, hxr⟩
    have hkeys := keys_of_joinFields hpq.fields
    have hqp := (sameKeys_iff hq).mp hpq.keys
    have hrq : r.fields.keys.Perm q.fields.keys :=
      ((sameKeys_iff hr).mp hxr.keys).trans (hkeys ▸ hqp.symm)
    obtain ⟨es, hes, hes'⟩ := (bind_eq_bind_some h.exps).mp ⟨_, hpq.exps, hxr.exps⟩
    obtain ⟨bs, hbs, hbs'⟩ := (bind_eq_bind_some h.bodies).mp ⟨_, hpq.bodies, hxr.bodies⟩
    obtain ⟨fs, hfs, hfs'⟩ :=
      (bind_eq_bind_some (h.fields hqp hrq)).mp ⟨_, hpq.fields, hxr.fields⟩
    have hkeys' := keys_of_joinFields hfs
    refine ⟨⟨es, bs, fs⟩, ⟨hes, hbs, (sameKeys_iff hr).mpr hrq, hfs⟩, hes', hbs', ?_, hfs'⟩
    exact (sameKeys_iff (hkeys' ▸ hq)).mpr (hkeys' ▸ hqp)
  · rintro ⟨y, hqr, hpy⟩
    have hkeys := keys_of_joinFields hqr.fields
    have hrq := (sameKeys_iff hr).mp hqr.keys
    have hqp : q.fields.keys.Perm p.fields.keys :=
      hkeys ▸ (sameKeys_iff (hkeys ▸ hq)).mp hpy.keys
    obtain ⟨es, hes, hes'⟩ := (bind_eq_bind_some h.exps).mpr ⟨_, hqr.exps, hpy.exps⟩
    obtain ⟨bs, hbs, hbs'⟩ := (bind_eq_bind_some h.bodies).mpr ⟨_, hqr.bodies, hpy.bodies⟩
    obtain ⟨fs, hfs, hfs'⟩ :=
      (bind_eq_bind_some (h.fields hqp hrq)).mpr ⟨_, hqr.fields, hpy.fields⟩
    have hkeys' := keys_of_joinFields hfs
    refine ⟨⟨es, bs, fs⟩, ⟨hes, hbs, (sameKeys_iff hq).mpr hqp, hfs⟩, hes', hbs', ?_, hfs'⟩
    exact (sameKeys_iff hr).mpr (hkeys' ▸ hrq.trans hqp)

/-- Joining is associative: one side succeeds if the other does, and gives the same trace, down to
the order of fields. -/
theorem join_assoc {a b c : Trace} (ha : WellFormed a) (hb : WellFormed b) (hc : WellFormed c) :
    (join a b).bind (join · c) = (join b c).bind (join a ·) := by
  induction a using induction generalizing b c with
  | node a ih =>
      by_cases hahole : a = hole
      · simp [hahole]
      by_cases hbhole : b = hole
      · simp [hbhole]
      by_cases hchole : c = hole
      · simp [hchole]
      have hparts : PartsAssoc a.parts b.parts c.parts := by
        refine ⟨?_, ?_, ?_⟩
        · refine joinAll_assoc fun s hs t ht u hu => ?_
          have hs' := mem_children_of_exps hs
          exact ih s hs' (ha.of_mem hs') (hb.of_mem (mem_children_of_exps ht))
            (hc.of_mem (mem_children_of_exps hu))
        · refine joinAll_assoc fun x hx y hy z hz => ?_
          refine joinBody_assoc (ha.isBody hx) (hb.isBody hy) (hc.isBody hz)
            (fun s hs => ha.of_mem (mem_children_of_bodies hx hs))
            (fun t ht => hb.of_mem (mem_children_of_bodies hy ht))
            (fun u hu => hc.of_mem (mem_children_of_bodies hz hu)) fun s hs t ht u hu => ?_
          have hs' := mem_children_of_bodies hx hs
          exact ih s hs' (ha.of_mem hs') (hb.of_mem (mem_children_of_bodies hy ht))
            (hc.of_mem (mem_children_of_bodies hz hu))
        · intro hba hcb
          refine joinFields_assoc ha.nodup hb.nodup hba hcb fun key s t u hs ht hu => ?_
          have hs' := mem_children_of_fields (Fields.mem_of_get? hs)
          exact ih s hs' (ha.of_mem hs')
            (hb.of_mem (mem_children_of_fields (Fields.mem_of_get? ht)))
            (hc.of_mem (mem_children_of_fields (Fields.mem_of_get? hu)))
      have hassoc := fun s => partsJoin_assoc (s := s) hb.nodup hc.nodup hparts
      ext m
      simp only [Option.bind_eq_some_iff]
      constructor
      · rintro ⟨ab, hab, hm⟩
        have hwab := ha.join hb hab
        have habhole := ne_hole_of_join ha hb hahole hab
        rw [hwab.join_eq_some_iff hc habhole hchole] at hm
        obtain ⟨hhead, hparams, s, hs, rfl⟩ := hm
        have hnode := nodeJoin_of_join ha hb hahole hbhole hab
        obtain ⟨y, hy, hs'⟩ := (hassoc s).mp ⟨ab.parts, hnode.parts, hs⟩
        obtain ⟨-, -, p, hp, rfl⟩ := (ha.join_eq_some_iff hb hahole hbhole).mp hab
        simp only [head_withParts, joinedParams_withParts] at hhead hparams
        have hbc : join b c = some (b.withParts y) :=
          (hb.join_eq_some_iff hc hbhole hchole).mpr
            ⟨hnode.head'.symm.trans hhead, hnode.joinedParams.symm.trans hparams, y, hy, rfl⟩
        have hbchole := ne_hole_of_withParts hbhole y
        refine ⟨b.withParts y, hbc, (ha.join_eq_some_iff (hb.join hc hbc) hahole hbchole).mpr ?_⟩
        refine ⟨by simpa using hnode.head', by simpa using hnode.joinedParams, s, ?_, by simp⟩
        rwa [parts_withParts hy.sameShape]
      · rintro ⟨bc, hbc, hm⟩
        have hwbc := hb.join hc hbc
        have hbchole := ne_hole_of_join hb hc hbhole hbc
        rw [ha.join_eq_some_iff hwbc hahole hbchole] at hm
        obtain ⟨hhead, hparams, s, hs, rfl⟩ := hm
        have hnode := nodeJoin_of_join hb hc hbhole hchole hbc
        obtain ⟨x, hx, hs'⟩ := (hassoc s).mpr ⟨bc.parts, hnode.parts, hs⟩
        obtain ⟨-, -, p, hp, rfl⟩ := (hb.join_eq_some_iff hc hbhole hchole).mp hbc
        simp only [head_withParts, joinedParams_withParts] at hhead hparams
        have hab : join a b = some (a.withParts x) :=
          (ha.join_eq_some_iff hb hahole hbhole).mpr ⟨hhead, hparams, x, hx, rfl⟩
        have habhole := ne_hole_of_withParts hahole x
        refine ⟨a.withParts x, hab, ((ha.join hb hab).join_eq_some_iff hc habhole hchole).mpr ?_⟩
        refine ⟨by simpa using hhead.trans hnode.head', ?_, s, ?_, by simp⟩
        · simpa using hparams.trans hnode.joinedParams
        · rwa [parts_withParts hx.sameShape]

end TraceLoom.Trace
