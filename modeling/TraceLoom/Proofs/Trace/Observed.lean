import TraceLoom.Proofs.Trace.LeastUpperBound

/-!
Merging traces that are observed in full.  Where nothing is open, nothing can be filled, and two
traces merge only if they are the same trace.
-/

namespace TraceLoom.Trace

open Numeric

/-- There is no hole in the trace. -/
def Observed (t : Trace) : Prop :=
  every (fun s => !s.isHole) t = true

instance (t : Trace) : Decidable (Observed t) :=
  inferInstanceAs (Decidable (_ = true))

namespace Observed

variable {s t : Trace}

theorem ne_hole (h : Observed t) : t ≠ hole := by
  rintro rfl
  exact Bool.false_ne_true h

theorem of_mem (h : Observed t) (hs : s ∈ t.children) : Observed s :=
  (every_eq_true_iff.mp h).2 s hs

end Observed

theorem agreesBody_of_observed {b c : List Trace} (hb : ∀ s ∈ b, Observed s)
    (h : ∀ s ∈ b, ∀ u, Below s u → Alike s u) (hbc : agreesBody true b c = true) :
    agreesBody false b c = true := by
  induction b generalizing c with
  | nil => simpa using hbc
  | cons t ts ih =>
      have ht := (hb t List.mem_cons_self).ne_hole
      obtain ⟨u, us, rfl, htu, hts⟩ := (agreesBody_cons_iff_of_ne ht).mp hbc
      refine (agreesBody_cons_iff_of_ne ht).mpr ⟨u, us, rfl, h t List.mem_cons_self u htu, ?_⟩
      exact ih (fun s hs => hb s (List.mem_cons_of_mem _ hs))
        (fun s hs => h s (List.mem_cons_of_mem _ hs)) hts

/-- Above a trace without holes there is only that trace. -/
theorem Observed.alike_of_below {a m : Trace} (ha : Observed a) (h : Below a m) : Alike a m := by
  induction a using induction generalizing m with
  | node a ih =>
      obtain ⟨hhead, hparams, hparts⟩ := (agrees_iff ha.ne_hole).mp h
      refine (agrees_iff ha.ne_hole).mpr ⟨hhead, hparams, ?_, ?_, hparts.size, fun f hf => ?_⟩
      · refine forall₂_imp_of_mem (fun s hs u _ hsu => ?_) hparts.exps
        exact ih s (mem_children_of_exps hs) (ha.of_mem (mem_children_of_exps hs)) hsu
      · refine forall₂_imp_of_mem (fun c hc d _ hcd => ?_) hparts.bodies
        refine agreesBody_of_observed (fun s hs => ?_) (fun s hs u hsu => ?_) hcd
        · exact ha.of_mem (mem_children_of_bodies hc hs)
        · have hs' := mem_children_of_bodies hc hs
          exact ih s hs' (ha.of_mem hs') hsu
      · obtain ⟨u, hu, hfu⟩ := hparts.fields f hf
        have hf' := mem_children_of_fields hf
        exact ⟨u, hu, ih f.2 hf' (ha.of_mem hf') hfu⟩

/-! ## Laws of likeness -/

theorem agreesBody_of_alike {b c : List Trace} (h : ∀ s ∈ b, ∀ u, Alike s u → Below s u)
    (hbc : agreesBody false b c = true) : agreesBody true b c = true := by
  induction b generalizing c with
  | nil => simpa using hbc
  | cons t ts ih =>
      obtain ⟨hfill, -⟩ | ⟨u, us, rfl, htu, hts⟩ := agreesBody_cons_iff.mp hbc
      · exact absurd hfill Bool.false_ne_true
      · refine agreesBody_cons_iff.mpr (.inr ⟨u, us, rfl, h t List.mem_cons_self u htu, ?_⟩)
        exact ih (fun s hs => h s (List.mem_cons_of_mem _ hs)) hts

theorem below_of_alike {a b : Trace} (h : Alike a b) : Below a b := by
  induction a using induction generalizing b with
  | node a ih =>
      by_cases hhole : a = hole
      · exact hhole ▸ agrees_hole_iff.mpr (.inl rfl)
      obtain ⟨hhead, hparams, hparts⟩ := (agrees_iff hhole).mp h
      refine (agrees_iff hhole).mpr ⟨hhead, hparams, ?_, ?_, hparts.size, fun f hf => ?_⟩
      · exact forall₂_imp_of_mem (fun s hs u _ => ih s (mem_children_of_exps hs)) hparts.exps
      · refine forall₂_imp_of_mem (fun c hc d _ => agreesBody_of_alike fun s hs u => ?_)
          hparts.bodies
        exact ih s (mem_children_of_bodies hc hs)
      · obtain ⟨u, hu, hfu⟩ := hparts.fields f hf
        exact ⟨u, hu, ih f.2 (mem_children_of_fields hf) hfu⟩

theorem agreesBody_symm {b c : List Trace} (h : ∀ s ∈ b, ∀ u, Alike s u → Alike u s)
    (hbc : agreesBody false b c = true) : agreesBody false c b = true := by
  induction b generalizing c with
  | nil =>
      obtain rfl := agreesBody_nil_iff.mp hbc
      exact hbc
  | cons t ts ih =>
      obtain ⟨hfill, -⟩ | ⟨u, us, rfl, htu, hts⟩ := agreesBody_cons_iff.mp hbc
      · exact absurd hfill Bool.false_ne_true
      · refine agreesBody_cons_iff.mpr (.inr ⟨t, ts, rfl, h t List.mem_cons_self u htu, ?_⟩)
        exact ih (fun s hs => h s (List.mem_cons_of_mem _ hs)) hts

/-- A record like one with distinct names has the same names, and in either the like of every field
of the other. -/
theorem exists_get?_of_alike_parts {p q : Parts} (hp : p.fields.keys.Nodup)
    (h : PartsAgree false p q) {g : String × Trace} (hg : g ∈ q.fields) :
    ∃ t, p.fields.get? g.1 = some t ∧ Alike t g.2 := by
  have hperm := keys_perm_of_partsAgree hp h
  obtain ⟨t, ht⟩ := exists_get?_of_perm hperm (Fields.get?_of_mem (hperm.nodup hp) hg)
  obtain ⟨u, hu, htu⟩ := h.fields _ (Fields.mem_of_get? ht)
  obtain rfl : g.2 = u :=
    Option.some.inj ((Fields.get?_of_mem (hperm.nodup hp) hg).symm.trans hu)
  exact ⟨t, ht, htu⟩

theorem alike_symm {a b : Trace} (ha : every hasDistinctKeys a = true) (h : Alike a b) :
    Alike b a := by
  induction a using induction generalizing b with
  | node a ih =>
      obtain ⟨hkeys, hchildren⟩ := every_eq_true_iff.mp ha
      have hchild : ∀ s ∈ a.children, ∀ u, Alike s u → Alike u s := fun s hs u =>
        ih s hs (hchildren s hs)
      by_cases hhole : a = hole
      · subst hhole
        obtain hfill | rfl := agrees_hole_iff.mp h
        · exact absurd hfill Bool.false_ne_true
        · exact h
      obtain ⟨hhead, hparams, hparts⟩ := (agrees_iff hhole).mp h
      refine (agrees_iff (ne_hole_of_agrees h hhole)).mpr
        ⟨hhead.symm, hparams.symm, ?_, ?_, hparts.size.symm, fun g hg => ?_⟩
      · refine (forall₂_imp_of_mem (fun s hs u _ => ?_) hparts.exps).flip
        exact hchild s (mem_children_of_exps hs) u
      · refine (forall₂_imp_of_mem (fun c hc d _ => ?_) hparts.bodies).flip
        exact agreesBody_symm fun s hs u => hchild s (mem_children_of_bodies hc hs) u
      · have hnodup : a.parts.fields.keys.Nodup := by simpa [hasDistinctKeys] using hkeys
        obtain ⟨t, ht, htg⟩ := exists_get?_of_alike_parts hnodup hparts hg
        exact ⟨t, ht, hchild t (mem_children_of_fields (Fields.mem_of_get? ht)) g.2 htg⟩

/-! ## Merging -/

/-- Merging traces without holes is a test of likeness: any difference between them makes it
fail. -/
theorem merge_eq_ok_iff_alike {a b : Trace} (ha : Mergeable a) (hb : Mergeable b)
    (hoa : Observed a) (hob : Observed b) : (∃ m, merge a b = .ok m) ↔ Alike a b := by
  constructor
  · rintro ⟨m, hm⟩
    obtain ⟨ham, hbm⟩ := below_of_join ha.wellFormed hb.wellFormed (merge_eq_ok_iff.mp hm)
    have hbm := hbm ⟨ha.named, hb.named⟩
    have hmb := alike_symm hb.wellFormed.keys (hob.alike_of_below hbm)
    exact agrees_trans ha.wellFormed.holes (hoa.alike_of_below ham) hmb
  · intro h
    obtain ⟨m, hm, -⟩ := exists_join_of_below ha.wellFormed hb.wellFormed (below_of_alike h)
      (agrees_refl true hb.wellFormed.keys)
    exact ⟨m, merge_eq_ok_iff.mpr hm⟩

/-- The parameters have to be names, since they are compared as one text. -/
example :
    let t := callback "listen" undefined ["a, b"] undefined []
    let u := callback "listen" undefined ["a", "b"] undefined []
    merge t u = .ok t ∧ ¬ Alike t u :=
  ⟨rfl, by decide⟩

end TraceLoom.Trace
