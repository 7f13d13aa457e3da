import TraceLoom.Proofs.Script.NameList
import TraceLoom.Proofs.Trace.Associativity

/-!
Merging gives least upper bounds.  Two traces merge if some trace says what both say, and what
comes out says no more than that; so it does not matter in which order and in which groups traces
are merged.
-/

namespace TraceLoom.Trace

open Script (isNameText)

/-- Whether the parameters of a callback are names. -/
def hasNamedParams (t : Trace) : Bool :=
  t.params.all isNameText

/-- The parameters of all callbacks are names. -/
def NamedParams (t : Trace) : Prop :=
  every hasNamedParams t = true

instance (t : Trace) : Decidable (NamedParams t) :=
  inferInstanceAs (Decidable (_ = true))

theorem NamedParams.of_mem {s t : Trace} (h : NamedParams t) (hs : s ∈ t.children) :
    NamedParams s :=
  (every_eq_true_iff.mp h).2 s hs

theorem NamedParams.isNameText {t : Trace} (h : NamedParams t) :
    ∀ p ∈ t.params, isNameText p = true :=
  List.all_eq_true.mp (every_eq_true_iff.mp h).1

theorem params_eq_of_joinedParams {t u : Trace} (ht : NamedParams t) (hu : NamedParams u)
    (h : t.joinedParams = u.joinedParams) : t.params = u.params :=
  Script.intercalate_injective ht.isNameText hu.isNameText h

theorem NamedParams.join {t u m : Trace} (ht : NamedParams t) (hu : NamedParams u)
    (htw : WellFormed t) (huw : WellFormed u) (h : join t u = some m) : NamedParams m := by
  induction t using induction generalizing u m with
  | node t ih =>
      by_cases hthole : t = hole
      · subst hthole
        obtain rfl : u = m := by simpa using h
        exact hu
      by_cases huhole : u = hole
      · subst huhole
        obtain rfl : t = m := by simpa using h
        exact ht
      have hparams := (nodeJoin_of_join htw huw hthole huhole h).params
      refine every_eq_true_iff.mpr ⟨?_, fun s hs => ?_⟩
      · simpa [hasNamedParams, hparams] using ht.isNameText
      · rcases mem_children_of_join htw huw hthole huhole h hs with
          hs | hs | ⟨t', ht', u', hu', hjoin⟩
        · exact ht.of_mem hs
        · exact hu.of_mem hs
        · exact ih t' ht' (ht.of_mem ht') (hu.of_mem hu') (htw.of_mem ht') (huw.of_mem hu') hjoin

/-! ## Upper bounds -/

theorem joinAll_bounds {α : Type} {R S : α → α → Prop} {f : α → α → Option α} {as bs cs : List α}
    (h : ∀ a ∈ as, ∀ b ∈ bs, ∀ c, f a b = some c → R a c ∧ S b c)
    (hjoin : joinAll f as bs = some cs) : List.Forall₂ R as cs ∧ List.Forall₂ S bs cs := by
  induction as generalizing bs cs with
  | nil => cases bs with
      | nil =>
          obtain rfl : [] = cs := by simpa [joinAll] using hjoin
          exact ⟨.nil, .nil⟩
      | cons b bs => simp [joinAll] at hjoin
  | cons a as ih => cases bs with
      | nil => simp [joinAll] at hjoin
      | cons b bs =>
          simp only [joinAll, Option.bind_eq_some_iff, Option.map_eq_some_iff] at hjoin
          obtain ⟨c, hc, cs', hcs, rfl⟩ := hjoin
          obtain ⟨hac, hbc⟩ := h a (by simp) b (by simp) c hc
          obtain ⟨has, hbs⟩ := ih (fun a' ha' b' hb' => h a' (by simp [ha']) b' (by simp [hb'])) hcs
          exact ⟨.cons hac has, .cons hbc hbs⟩

theorem joinBody_bounds {P : Prop} {b c d : List Trace} (hb : IsBody b) (hc : IsBody c)
    (hbrefl : ∀ s ∈ b, Below s s) (hcrefl : ∀ u ∈ c, Below u u)
    (h : ∀ s ∈ b, ∀ u ∈ c, ∀ m, join s u = some m → Below s m ∧ (P → Below u m))
    (hjoin : joinBody b c = some d) :
    agreesBody true b d = true ∧ (P → agreesBody true c d = true) := by
  induction hb generalizing c d with
  | nil => cases hc with
      | nil => simp_all
      | openEnd => simp_all [IsBody.nil, agreesBody_open_iff]
      | cons hu _ => simp [joinBody_nil_cons hu] at hjoin
  | openEnd =>
      obtain rfl : c = d := by simpa using hjoin
      exact ⟨agreesBody_open_iff.mpr (.inl rfl), fun _ => agreesBody_refl hcrefl⟩
  | @cons t ts ht hts ih => cases hc with
      | nil => simp [joinBody_cons_nil ht] at hjoin
      | openEnd =>
          obtain rfl : t :: ts = d := by simpa [IsBody.cons ht hts] using hjoin
          exact ⟨agreesBody_refl hbrefl, fun _ => agreesBody_open_iff.mpr (.inl rfl)⟩
      | @cons u us hu hus =>
          rw [joinBody_cons_cons ht hu] at hjoin
          simp only [Option.bind_eq_some_iff, Option.map_eq_some_iff] at hjoin
          obtain ⟨m, hm, ms, hms, rfl⟩ := hjoin
          obtain ⟨htm, hum⟩ := h t (by simp) u (by simp) m hm
          obtain ⟨htsms, husms⟩ := ih hus (fun s hs => hbrefl s (by simp [hs]))
            (fun v hv => hcrefl v (by simp [hv]))
            (fun s hs v hv => h s (by simp [hs]) v (by simp [hv])) hms
          exact ⟨(agreesBody_cons_iff_of_ne ht).mpr ⟨m, ms, rfl, htm, htsms⟩,
            fun hP => (agreesBody_cons_iff_of_ne hu).mpr ⟨m, ms, rfl, hum hP, husms hP⟩⟩

/-- What comes out of a merge is above the first trace, and above the second if parameters are
names: they are compared by the text of their list. -/
theorem below_of_join {a b m : Trace} (ha : WellFormed a) (hb : WellFormed b)
    (h : join a b = some m) : Below a m ∧ (NamedParams a ∧ NamedParams b → Below b m) := by
  induction a using induction generalizing b m with
  | node a ih =>
      by_cases hahole : a = hole
      · subst hahole
        obtain rfl : b = m := by simpa using h
        exact ⟨agrees_hole_iff.mpr (.inl rfl), fun _ => agrees_refl true hb.keys⟩
      by_cases hbhole : b = hole
      · subst hbhole
        obtain rfl : a = m := by simpa using h
        exact ⟨agrees_refl true ha.keys, fun _ => agrees_hole_iff.mpr (.inl rfl)⟩
      obtain ⟨hhead, hhead', hparams, hjoined, hparts⟩ := nodeJoin_of_join ha hb hahole hbhole h
      have hchild : ∀ s ∈ a.children, ∀ u ∈ b.children, ∀ n, join s u = some n →
          Below s n ∧ (NamedParams a ∧ NamedParams b → Below u n) := by
        intro s hs u hu n hn
        obtain ⟨hsn, hun⟩ := ih s hs (ha.of_mem hs) (hb.of_mem hu) hn
        exact ⟨hsn, fun ⟨hna, hnb⟩ => hun ⟨hna.of_mem hs, hnb.of_mem hu⟩⟩
      obtain ⟨hae, hbe⟩ : List.Forall₂ Below a.parts.exps m.parts.exps ∧
          List.Forall₂ (fun u n => NamedParams a ∧ NamedParams b → Below u n)
            b.parts.exps m.parts.exps :=
        joinAll_bounds (fun s hs u hu n hn =>
          hchild s (mem_children_of_exps hs) u (mem_children_of_exps hu) n hn) hparts.exps
      obtain ⟨hab, hbb⟩ :
          List.Forall₂ (fun c d => agreesBody true c d = true) a.parts.bodies m.parts.bodies ∧
          List.Forall₂ (fun c d => NamedParams a ∧ NamedParams b → agreesBody true c d = true)
            b.parts.bodies m.parts.bodies := by
        refine joinAll_bounds (fun c hc d hd n hn => ?_) hparts.bodies
        exact joinBody_bounds (ha.isBody hc) (hb.isBody hd)
          (fun s hs => agrees_refl true (ha.of_mem (mem_children_of_bodies hc hs)).keys)
          (fun u hu => agrees_refl true (hb.of_mem (mem_children_of_bodies hd hu)).keys)
          (fun s hs u hu => hchild s (mem_children_of_bodies hc hs) u
            (mem_children_of_bodies hd hu)) hn
      have hperm := (sameKeys_iff hb.nodup).mp hparts.keys
      have hkeys := keys_of_joinFields hparts.fields
      have hfields : ∀ key t u, a.parts.fields.get? key = some t →
          b.parts.fields.get? key = some u →
          ∃ n, m.parts.fields.get? key = some n ∧ Below t n ∧
            (NamedParams a ∧ NamedParams b → Below u n) := by
        intro key t u ht hu
        obtain ⟨n, hn, hjoin⟩ :=
          ((joinFields_eq_some_iff ha.nodup hperm).mp hparts.fields).2 key t u ht hu
        exact ⟨n, hn, hchild t (mem_children_of_fields (Fields.mem_of_get? ht)) u
          (mem_children_of_fields (Fields.mem_of_get? hu)) n hjoin⟩
      have hsize : ∀ {fs gs : Fields Trace}, fs.keys.Perm gs.keys → fs.length = gs.length :=
        fun hperm => by simpa [Fields.keys] using hperm.length_eq
      constructor
      · refine (agrees_iff hahole).mpr ⟨hhead.symm, hparams.symm, hae, hab,
          hsize (hkeys ▸ .refl _), ?_⟩
        rintro ⟨key, t⟩ hf
        have ht := Fields.get?_of_mem ha.nodup hf
        obtain ⟨u, hu⟩ := exists_get?_of_perm hperm ht
        obtain ⟨n, hn, htn, -⟩ := hfields key t u ht hu
        exact ⟨n, hn, htn⟩
      · intro hnames
        have hparams' := params_eq_of_joinedParams hnames.1 hnames.2 hjoined
        refine (agrees_iff hbhole).mpr ⟨hhead'.symm.trans hhead.symm,
          hparams'.symm.trans hparams.symm, hbe.imp fun _ _ h => h hnames,
          hbb.imp fun _ _ h => h hnames, hsize (hkeys ▸ hperm), ?_⟩
        rintro ⟨key, u⟩ hf
        have hu := Fields.get?_of_mem hb.nodup hf
        obtain ⟨t, ht⟩ := exists_get?_of_perm hperm.symm hu
        obtain ⟨n, hn, -, hun⟩ := hfields key t u ht hu
        exact ⟨n, hn, hun hnames⟩

/-- What comes out of a merge says all that the first trace says. -/
theorem join_eq_left_of_join {a b m : Trace} (ha : WellFormed a) (hb : WellFormed b)
    (h : join a b = some m) : join m a = some m :=
  join_eq_left_of_below (ha.join hb h) ha (below_of_join ha hb h).1

/-! ## Bounded traces merge -/

theorem exists_joinAll {α : Type} {R S T : α → α → Prop} {f : α → α → Option α}
    {as bs cs : List α}
    (h : ∀ a ∈ as, ∀ b ∈ bs, ∀ c, R a c → S b c → ∃ m, f a b = some m ∧ T m c)
    (hac : List.Forall₂ R as cs) (hbc : List.Forall₂ S bs cs) :
    ∃ ms, joinAll f as bs = some ms ∧ List.Forall₂ T ms cs := by
  induction hac generalizing bs with
  | nil =>
      cases hbc
      exact ⟨[], rfl, .nil⟩
  | @cons a c as cs ha _ ih =>
      cases hbc with
      | @cons b _ bs _ hb hbs =>
          obtain ⟨m, hm, hmc⟩ := h a (by simp) b (by simp) c ha hb
          obtain ⟨ms, hms, hmscs⟩ :=
            ih (fun a' ha' b' hb' => h a' (by simp [ha']) b' (by simp [hb'])) hbs
          exact ⟨m :: ms, by simp [joinAll, hm, hms], .cons hmc hmscs⟩

theorem exists_joinBody {b c d : List Trace} (hb : IsBody b) (hc : IsBody c)
    (h : ∀ s ∈ b, ∀ u ∈ c, ∀ v, Below s v → Below u v → ∃ m, join s u = some m ∧ Below m v)
    (hbd : agreesBody true b d = true) (hcd : agreesBody true c d = true) :
    ∃ m, joinBody b c = some m ∧ agreesBody true m d = true := by
  induction hb generalizing c d with
  | openEnd => exact ⟨c, joinBody_open_left c, hcd⟩
  | nil =>
      obtain rfl := agreesBody_nil_iff.mp hbd
      cases hc with
      | nil => exact ⟨[], rfl, hcd⟩
      | openEnd => exact ⟨[], rfl, hbd⟩
      | cons hu _ =>
          obtain ⟨v, vs, heq, -, -⟩ := (agreesBody_cons_iff_of_ne hu).mp hcd
          exact absurd heq (List.cons_ne_nil v vs).symm
  | @cons t ts ht hts ih =>
      obtain ⟨v, vs, rfl, htv, htsvs⟩ := (agreesBody_cons_iff_of_ne ht).mp hbd
      cases hc with
      | nil => exact absurd (agreesBody_nil_iff.mp hcd) (List.cons_ne_nil v vs)
      | openEnd => exact ⟨t :: ts, joinBody_open_right (.cons ht hts), hbd⟩
      | @cons u us hu hus =>
          obtain ⟨_, _, heq, huv, husvs⟩ := (agreesBody_cons_iff_of_ne hu).mp hcd
          obtain ⟨rfl, rfl⟩ := List.cons.inj heq
          obtain ⟨m, hm, hmv⟩ := h t (by simp) u (by simp) v htv huv
          obtain ⟨ms, hms, hmsvs⟩ :=
            ih hus (fun s hs w hw => h s (by simp [hs]) w (by simp [hw])) htsvs husvs
          exact ⟨m :: ms, by simp [joinBody_cons_cons ht hu, hm, hms],
            agreesBody_cons_iff.mpr (.inr ⟨v, vs, rfl, hmv, hmsvs⟩)⟩

/-- The names of a record above another are those of the other. -/
theorem keys_perm_of_partsAgree {filling : Bool} {p q : Parts} (hp : p.fields.keys.Nodup)
    (h : PartsAgree filling p q) : p.fields.keys.Perm q.fields.keys := by
  refine Fields.keys_perm_of_subset hp h.size.symm fun key hkey => ?_
  obtain ⟨t, ht⟩ := Fields.exists_get?_iff_mem_keys.mpr hkey
  obtain ⟨u, hu, -⟩ := h.fields _ (Fields.mem_of_get? ht)
  exact Fields.exists_get?_iff_mem_keys.mp ⟨u, hu⟩

/-- Traces with a common upper bound merge, and what comes out is below that bound. -/
theorem exists_join_of_below {a b c : Trace} (ha : WellFormed a) (hb : WellFormed b)
    (hac : Below a c) (hbc : Below b c) : ∃ m, join a b = some m ∧ Below m c := by
  induction a using induction generalizing b c with
  | node a ih =>
      by_cases hahole : a = hole
      · exact ⟨b, by simp [hahole], hbc⟩
      by_cases hbhole : b = hole
      · exact ⟨a, by simp [hbhole], hac⟩
      obtain ⟨hhead, hparams, hparts⟩ := (agrees_iff hahole).mp hac
      obtain ⟨hhead', hparams', hparts'⟩ := (agrees_iff hbhole).mp hbc
      obtain ⟨es, hes, hes'⟩ : ∃ es, joinAll join a.parts.exps b.parts.exps = some es ∧
          List.Forall₂ Below es c.parts.exps := by
        refine exists_joinAll (fun s hs u hu v hsv huv => ?_) hparts.exps hparts'.exps
        have hs' := mem_children_of_exps hs
        exact ih s hs' (ha.of_mem hs') (hb.of_mem (mem_children_of_exps hu)) hsv huv
      obtain ⟨bs, hbs, hbs'⟩ : ∃ bs, joinAll joinBody a.parts.bodies b.parts.bodies = some bs ∧
          List.Forall₂ (fun x y => agreesBody true x y = true) bs c.parts.bodies := by
        refine exists_joinAll (fun x hx y hy z hxz hyz => ?_) hparts.bodies hparts'.bodies
        refine exists_joinBody (ha.isBody hx) (hb.isBody hy) (fun s hs u hu v hsv huv => ?_) hxz hyz
        have hs' := mem_children_of_bodies hx hs
        exact ih s hs' (ha.of_mem hs') (hb.of_mem (mem_children_of_bodies hy hu)) hsv huv
      have hperm : b.parts.fields.keys.Perm a.parts.fields.keys :=
        (keys_perm_of_partsAgree hb.nodup hparts').trans
          (keys_perm_of_partsAgree ha.nodup hparts).symm
      have hfield : ∀ key t u, a.parts.fields.get? key = some t →
          b.parts.fields.get? key = some u → ∃ v, c.parts.fields.get? key = some v ∧
            ∃ n, join t u = some n ∧ Below n v := by
        intro key t u ht hu
        obtain ⟨v, hv, htv⟩ := hparts.fields _ (Fields.mem_of_get? ht)
        obtain ⟨v', hv', huv⟩ := hparts'.fields _ (Fields.mem_of_get? hu)
        obtain rfl : v = v' := Option.some.inj (hv.symm.trans hv')
        have ht' := mem_children_of_fields (Fields.mem_of_get? ht)
        have hu' := mem_children_of_fields (Fields.mem_of_get? hu)
        exact ⟨v, hv, ih t ht' (ha.of_mem ht') (hb.of_mem hu') htv huv⟩
      obtain ⟨fs, hfs⟩ := exists_joinFields ha.nodup fun key t u ht hu =>
        let ⟨_, _, n, hn, _⟩ := hfield key t u ht hu
        ⟨n, hn⟩
      have hjoin : PartsJoin a.parts b.parts ⟨es, bs, fs⟩ :=
        ⟨hes, hbs, (sameKeys_iff hb.nodup).mpr hperm, hfs⟩
      refine ⟨a.withParts ⟨es, bs, fs⟩, (ha.join_eq_some_iff hb hahole hbhole).mpr
        ⟨hhead.trans hhead'.symm, by simp [joinedParams, hparams, hparams'], _, hjoin, rfl⟩, ?_⟩
      refine (agrees_iff (ne_hole_of_withParts hahole _)).mpr
        ⟨by simpa using hhead, by simpa using hparams, ?_⟩
      rw [parts_withParts hjoin.sameShape]
      have hkeys := keys_of_joinFields hfs
      refine ⟨hes', hbs', ?_, ?_⟩
      · have hlength : fs.length = a.parts.fields.length := by
          simpa [Fields.keys] using congrArg List.length hkeys
        exact hlength.trans hparts.size
      · rintro ⟨key, n⟩ hf
        have hn := Fields.get?_of_mem (hkeys ▸ ha.nodup) hf
        obtain ⟨t, ht⟩ := Fields.exists_get?_iff_mem_keys.mpr (hkeys ▸ Fields.mem_keys_of_mem hf)
        obtain ⟨u, hu⟩ := exists_get?_of_perm hperm ht
        obtain ⟨v, hv, n', hn', hle⟩ := hfield key t u ht hu
        obtain ⟨n'', hn'', hjoin⟩ := ((joinFields_eq_some_iff ha.nodup hperm).mp hfs).2 key t u ht hu
        obtain rfl : n = n'' := Option.some.inj (hn.symm.trans hn'')
        obtain rfl : n = n' := Option.some.inj (hjoin.symm.trans hn')
        exact ⟨v, hv, hle⟩

/-! ## Merging many traces -/

/-- Well-formed traces whose callbacks have names as parameters. -/
structure Mergeable (t : Trace) : Prop where
  wellFormed : WellFormed t
  named : NamedParams t

/-- Traces in the groups in which they are to be merged. -/
inductive Grouping
  | one (t : Trace)
  | pair (left right : Grouping)

namespace Grouping

def traces : Grouping → List Trace
  | one t => [t]
  | pair left right => left.traces ++ right.traces

/-- Merges each group, the left one first. -/
def merged : Grouping → Except Mismatch Trace
  | one t => .ok t
  | pair left right => do merge (← left.merged) (← right.merged)

theorem merged_pair_eq_ok_iff {left right : Grouping} {m : Trace} :
    (pair left right).merged = .ok m ↔
      ∃ a b, left.merged = .ok a ∧ right.merged = .ok b ∧ join a b = some m := by
  constructor
  · intro h
    rw [merged] at h
    cases ha : left.merged with
    | error e =>
        rw [ha] at h
        cases h
    | ok a => cases hb : right.merged with
        | error e =>
            rw [ha, hb] at h
            cases h
        | ok b =>
            rw [ha, hb] at h
            exact ⟨a, b, rfl, rfl, merge_eq_ok_iff.mp h⟩
  · rintro ⟨a, b, ha, hb, hjoin⟩
    rw [merged, ha, hb]
    exact merge_eq_ok_iff.mpr hjoin

end Grouping

/-- A well-formed least upper bound of some traces. -/
structure IsMergeOf (m : Trace) (ts : List Trace) : Prop where
  mergeable : Mergeable m
  above : ∀ t ∈ ts, Below t m
  least : ∀ c, (∀ t ∈ ts, Below t c) → Below m c

theorem isMergeOf_of_join {a b m : Trace} {ts us : List Trace} (ha : IsMergeOf a ts)
    (hb : IsMergeOf b us) (hts : ∀ t ∈ ts, Mergeable t) (hus : ∀ u ∈ us, Mergeable u)
    (h : join a b = some m) : IsMergeOf m (ts ++ us) := by
  have hwa := ha.mergeable.wellFormed
  have hwb := hb.mergeable.wellFormed
  obtain ⟨ham, hbm⟩ := below_of_join hwa hwb h
  have hbm := hbm ⟨ha.mergeable.named, hb.mergeable.named⟩
  refine ⟨⟨hwa.join hwb h, ha.mergeable.named.join hb.mergeable.named hwa hwb h⟩, ?_, ?_⟩
  · intro t ht
    rcases List.mem_append.mp ht with ht | ht
    · exact agrees_trans (hts t ht).wellFormed.holes (ha.above t ht) ham
    · exact agrees_trans (hus t ht).wellFormed.holes (hb.above t ht) hbm
  · intro c hc
    have hac := ha.least c fun t ht => hc t (by simp [ht])
    have hbc := hb.least c fun u hu => hc u (by simp [hu])
    obtain ⟨m', hm', hle⟩ := exists_join_of_below hwa hwb hac hbc
    obtain rfl : m = m' := Option.some.inj (h.symm.trans hm')
    exact hle

theorem isMergeOf_one {t : Trace} (ht : Mergeable t) : IsMergeOf t [t] :=
  ⟨ht, fun _ hs => (List.mem_singleton.mp hs).symm ▸ agrees_refl true ht.wellFormed.keys,
    fun _ hc => hc t (List.mem_singleton_self t)⟩

theorem isMergeOf_merged {g : Grouping} {m : Trace} (hg : ∀ t ∈ g.traces, Mergeable t)
    (h : g.merged = .ok m) : IsMergeOf m g.traces := by
  induction g generalizing m with
  | one t =>
      obtain rfl : t = m := Except.ok.inj h
      exact isMergeOf_one (hg t (by simp [Grouping.traces]))
  | pair left right ihl ihr =>
      have hleft : ∀ t ∈ left.traces, Mergeable t := fun t ht => hg t (by simp [Grouping.traces, ht])
      have hright : ∀ t ∈ right.traces, Mergeable t :=
        fun t ht => hg t (by simp [Grouping.traces, ht])
      obtain ⟨a, b, ha, hb, hjoin⟩ := Grouping.merged_pair_eq_ok_iff.mp h
      exact isMergeOf_of_join (ihl hleft ha) (ihr hright hb) hleft hright hjoin

/-- Traces with a common upper bound merge in any groups. -/
theorem exists_merged_of_bounded {g : Grouping} {c : Trace} (hg : ∀ t ∈ g.traces, Mergeable t)
    (hc : ∀ t ∈ g.traces, Below t c) : ∃ m, g.merged = .ok m := by
  induction g with
  | one t => exact ⟨t, rfl⟩
  | pair left right ihl ihr =>
      have hleft : ∀ t ∈ left.traces, Mergeable t := fun t ht => hg t (by simp [Grouping.traces, ht])
      have hright : ∀ t ∈ right.traces, Mergeable t :=
        fun t ht => hg t (by simp [Grouping.traces, ht])
      have hleft' : ∀ t ∈ left.traces, Below t c := fun t ht => hc t (by simp [Grouping.traces, ht])
      have hright' : ∀ t ∈ right.traces, Below t c :=
        fun t ht => hc t (by simp [Grouping.traces, ht])
      obtain ⟨a, ha⟩ := ihl hleft hleft'
      obtain ⟨b, hb⟩ := ihr hright hright'
      have hma := isMergeOf_merged hleft ha
      have hmb := isMergeOf_merged hright hb
      obtain ⟨m, hm, -⟩ := exists_join_of_below hma.mergeable.wellFormed hmb.mergeable.wellFormed
        (hma.least c hleft') (hmb.least c hright')
      exact ⟨m, Grouping.merged_pair_eq_ok_iff.mpr ⟨a, b, ha, hb, hm⟩⟩

/-- Both merges fail, or what comes out is alike. -/
def SameOutcome : Except Mismatch Trace → Except Mismatch Trace → Prop
  | .ok m, .ok m' => Alike m m'
  | .error _, .error _ => True
  | _, _ => False

theorem SameOutcome.of_ok {x y : Except Mismatch Trace}
    (hxy : ∀ m, x = .ok m → ∃ m', y = .ok m' ∧ Alike m m')
    (hyx : ∀ m', y = .ok m' → ∃ m, x = .ok m) : SameOutcome x y := by
  cases x with
  | ok m =>
      obtain ⟨m', rfl, hlike⟩ := hxy m rfl
      exact hlike
  | error e => cases y with
      | ok m' =>
          obtain ⟨m, hm⟩ := hyx m' rfl
          cases hm
      | error e' => trivial

/-- Least upper bounds of the same traces are alike. -/
theorem IsMergeOf.alike {m m' : Trace} {ts us : List Trace} (hm : IsMergeOf m ts)
    (hm' : IsMergeOf m' us) (hmem : ∀ t, t ∈ ts ↔ t ∈ us) : Alike m m' :=
  alike_of_below hm.mergeable.wellFormed hm'.mergeable.wellFormed
    (hm.least m' fun t ht => hm'.above t ((hmem t).mp ht))
    (hm'.least m fun t ht => hm.above t ((hmem t).mpr ht))

theorem exists_merged_of_mem_iff {g h : Grouping} {m : Trace}
    (hg : ∀ t ∈ g.traces, Mergeable t) (hmem : ∀ t, t ∈ g.traces ↔ t ∈ h.traces)
    (hm : g.merged = .ok m) : ∃ m', h.merged = .ok m' ∧ Alike m m' := by
  have hh : ∀ t ∈ h.traces, Mergeable t := fun t ht => hg t ((hmem t).mpr ht)
  have hmerge := isMergeOf_merged hg hm
  obtain ⟨m', hm'⟩ := exists_merged_of_bounded hh fun t ht => hmerge.above t ((hmem t).mpr ht)
  exact ⟨m', hm', hmerge.alike (isMergeOf_merged hh hm') hmem⟩

/-- The order and the groups in which traces are merged do not matter, nor how often a trace
occurs. -/
theorem sameOutcome_of_mem_iff {g h : Grouping} (hg : ∀ t ∈ g.traces, Mergeable t)
    (hmem : ∀ t, t ∈ g.traces ↔ t ∈ h.traces) : SameOutcome g.merged h.merged := by
  refine .of_ok (fun m => exists_merged_of_mem_iff hg hmem) fun m' hm' => ?_
  have hh : ∀ t ∈ h.traces, Mergeable t := fun t ht => hg t ((hmem t).mpr ht)
  obtain ⟨m, hm, -⟩ := exists_merged_of_mem_iff hh (fun t => (hmem t).symm) hm'
  exact ⟨m, hm⟩

/-- Merging gives the least upper bound of two traces if they have an upper bound, and fails
otherwise.  It is idempotent, commutative and associative, so a collection of traces merges in
one order and grouping as it does in any other. -/
theorem merge_isLeastUpperBound :
    (∀ a b, Mergeable a → Mergeable b →
      ((∃ m, merge a b = .ok m) ↔ ∃ c, Below a c ∧ Below b c) ∧
      (∀ m, merge a b = .ok m → WellFormed m ∧ Below a m ∧ Below b m ∧
        ∀ c, Below a c → Below b c → Below m c) ∧
      merge a a = .ok a ∧
      SameOutcome (merge a b) (merge b a) ∧
      ∀ c, Mergeable c → ∀ m,
        (∃ ab, merge a b = .ok ab ∧ merge ab c = .ok m) ↔
          ∃ bc, merge b c = .ok bc ∧ merge a bc = .ok m) ∧
    ∀ g h : Grouping, (∀ t ∈ g.traces, Mergeable t) → g.traces.Perm h.traces →
      SameOutcome g.merged h.merged := by
  refine ⟨fun a b ha hb => ⟨⟨?_, ?_⟩, ?_, ?_, ?_, ?_⟩, fun g h hg hperm => ?_⟩
  · rintro ⟨m, hm⟩
    obtain ⟨ham, hbm⟩ := below_of_join ha.wellFormed hb.wellFormed (merge_eq_ok_iff.mp hm)
    exact ⟨m, ham, hbm ⟨ha.named, hb.named⟩⟩
  · rintro ⟨c, hac, hbc⟩
    obtain ⟨m, hm, -⟩ := exists_join_of_below ha.wellFormed hb.wellFormed hac hbc
    exact ⟨m, merge_eq_ok_iff.mpr hm⟩
  · intro m hm
    have hmerge := isMergeOf_of_join (isMergeOf_one ha) (isMergeOf_one hb) (by simpa using ha)
      (by simpa using hb) (merge_eq_ok_iff.mp hm)
    exact ⟨hmerge.mergeable.wellFormed, hmerge.above a (by simp), hmerge.above b (by simp),
      fun c hac hbc => hmerge.least c (by simp [hac, hbc])⟩
  · exact merge_eq_ok_iff.mpr (join_self ha.wellFormed)
  · have hmem : ∀ t, t ∈ (Grouping.pair (.one a) (.one b)).traces ↔
        t ∈ (Grouping.pair (.one b) (.one a)).traces := fun t => by
      simp [Grouping.traces, or_comm]
    exact sameOutcome_of_mem_iff (g := .pair (.one a) (.one b)) (h := .pair (.one b) (.one a))
      (by simp [Grouping.traces, ha, hb]) hmem
  · intro c hc m
    have hassoc := join_assoc ha.wellFormed hb.wellFormed hc.wellFormed
    simpa [merge_eq_ok_iff, Option.bind_eq_some_iff] using congrArg (· = some m) hassoc
  · exact sameOutcome_of_mem_iff hg fun t => hperm.mem_iff

/-- A block that goes on and one that has ended, with the value of their variable known in one
of them. -/
theorem merge_isLeastUpperBound_openBlock :
    let a := block [bind "x" hole, callback "click" (string "b") ["e"] (closure []) [hole], hole]
    let b := block [bind "x" (string "1"), hole]
    Mergeable a ∧ Mergeable b ∧ (∃ m, merge a b = .ok m) ∧
      ((∃ m, merge a b = .ok m) ↔ ∃ c, Below a c ∧ Below b c) ∧
      SameOutcome (Grouping.pair (.one a) (.one b)).merged
        (Grouping.pair (.one b) (.one a)).merged := by
  intro a b
  have ha : Mergeable a := ⟨⟨by decide, by decide⟩, by decide⟩
  have hb : Mergeable b := ⟨⟨by decide, by decide⟩, by decide⟩
  have hgroup : ∀ t ∈ (Grouping.pair (.one a) (.one b)).traces, Mergeable t := by
    simp [Grouping.traces, ha, hb]
  exact ⟨ha, hb, ⟨_, rfl⟩, (merge_isLeastUpperBound.1 a b ha hb).1,
    merge_isLeastUpperBound.2 _ _ hgroup (.swap ..)⟩

end TraceLoom.Trace
