import TraceLoom.Proofs.Trace.LeastUpperBound
import TraceLoom.Proofs.Trace.Tidy

/-!
A statement list covers another if merging the other into it changes nothing.  Merging a change
made at the end of a path into a list that covered the old one comes down to merging at the end
of that path.
-/

namespace TraceLoom.Trace

/-- Merging the second list into the first changes nothing. -/
def Covers (b c : List Trace) : Prop :=
  joinBody b c = some b

theorem join_block (b c : List Trace) : join (block b) (block c) = (joinBody b c).map block := by
  simp [join, mergeIn, toOption_mergeBody]

theorem Covers.refl {b : List Trace} (hb : WellFormed (block b)) : Covers b b := by
  simpa [join_block, Covers] using join_self hb

theorem joinBody_assoc_of_wellFormed {b c d : List Trace} (hb : WellFormed (block b)) (hc : WellFormed (block c))
    (hd : WellFormed (block d)) :
    (joinBody b c).bind (joinBody · d) = (joinBody c d).bind (joinBody b ·) := by
  refine Option.map_injective (f := block) (fun _ _ => block.inj) ?_
  simpa [join_block, Option.map_bind, Option.bind_map, Function.comp_def] using
    join_assoc hb hc hd

/-- What was merged into a list is covered by the outcome. -/
theorem covers_of_joinBody {b c d : List Trace} (hb : WellFormed (block b))
    (hc : WellFormed (block c)) (h : joinBody b c = some d) : Covers d c := by
  have hassoc := joinBody_assoc_of_wellFormed hb hc hc
  have hself : joinBody c c = some c := Covers.refl hc
  rwa [h, hself, Option.bind_some, Option.bind_some, h] at hassoc

theorem covers_left_of_joinBody {b c d : List Trace} (hb : WellFormed (block b))
    (hc : WellFormed (block c)) (h : joinBody b c = some d) : Covers d b := by
  have hjoin : join (block b) (block c) = some (block d) := by rw [join_block, h, Option.map_some]
  simpa [join_block, Covers] using join_eq_left_of_join hb hc hjoin

/-- A list that merges with a later one of two, the earlier of which merges into the later, merges
with the earlier first. -/
theorem joinBody_trans {b c d : List Trace} (hb : WellFormed (block b)) (hc : WellFormed (block c))
    (hd : WellFormed (block d)) (h : joinBody c d = some d) :
    joinBody b d = (joinBody b c).bind (joinBody · d) := by
  rw [joinBody_assoc_of_wellFormed hb hc hd, h, Option.bind_some]

theorem Tidy.isBody {b : List Trace} (h : Tidy (block b)) : IsBody b :=
  h.wellFormed.isBody List.mem_cons_self

theorem Covers.exists_cons {b us : List Trace} {u : Trace} (hb : IsBody b) (hu : u ≠ hole)
    (h : Covers b (u :: us)) :
    ∃ t ts, b = t :: ts ∧ t ≠ hole ∧ IsBody ts ∧ join t u = some t ∧ Covers ts us := by
  cases hb with
  | nil => simp [Covers, joinBody_nil_cons hu] at h
  | openEnd =>
      obtain ⟨rfl, -⟩ : u = hole ∧ us = [] := by simpa [Covers] using h
      exact absurd rfl hu
  | @cons t ts ht hts =>
      rw [Covers, joinBody_cons_cons ht hu] at h
      simp only [Option.bind_eq_some_iff, Option.map_eq_some_iff, List.cons.injEq] at h
      obtain ⟨_, hjoin, _, hrest, rfl, rfl⟩ := h
      exact ⟨_, _, rfl, ht, hts, hjoin, hrest⟩

/-- Merging after a statement of the covered list was replaced. -/
theorem Covers.joinBody_set {b d : List Trace} {i : Nat} {u : Trace} (hb : IsBody b)
    (hd : IsBody d) (h : Covers b d) (hu : d[i]? = some u) (hne : u ≠ hole) :
    ∃ t, b[i]? = some t ∧ t ≠ hole ∧ join t u = some t ∧
      ∀ u', u' ≠ hole → joinBody b (d.set i u') = (join t u').map (b.set i ·) := by
  induction hd generalizing b i with
  | nil => simp at hu
  | openEnd =>
      obtain rfl : u = hole := by
        cases i <;> simp_all
      exact absurd rfl hne
  | @cons v vs hv hvs ih =>
      obtain ⟨t, ts, rfl, ht, hts, hjoin, hrest⟩ := h.exists_cons hb hv
      cases i with
      | zero =>
          obtain rfl : v = u := by simpa using hu
          refine ⟨t, rfl, ht, hjoin, fun u' hu' => ?_⟩
          have hrest' : joinBody ts vs = some ts := hrest
          simp [joinBody_cons_cons ht hu', hrest', Option.map_eq_bind, Function.comp_def]
      | succ i =>
          obtain ⟨s, hs, hshole, hsjoin, hset⟩ := ih hts hrest (by simpa using hu)
          refine ⟨s, by simpa using hs, hshole, hsjoin, fun u' hu' => ?_⟩
          simp [joinBody_cons_cons ht hv, hjoin, hset u' hu', Function.comp_def]

theorem Covers.joinBody_append {b c : List Trace} (hb : IsBody b) (hc : ∀ s ∈ c, s ≠ hole)
    (h : Covers b (c ++ [hole])) :
    ∃ d e, b = d ++ e ∧ d.length = c.length ∧ (∀ s ∈ d, s ≠ hole) ∧ IsBody e ∧
      ∀ x, joinBody b (c ++ x) = (joinBody e x).map (d ++ ·) := by
  induction c generalizing b with
  | nil => exact ⟨[], b, rfl, rfl, by simp, hb, by simp⟩
  | cons u us ih =>
      have hu : u ≠ hole := hc u List.mem_cons_self
      obtain ⟨t, ts, rfl, ht, hts, hjoin, hrest⟩ := h.exists_cons hb hu
      obtain ⟨d, e, rfl, hlength, hd, he, happend⟩ :=
        ih hts (fun s hs => hc s (by simp [hs])) hrest
      refine ⟨t :: d, e, rfl, by simp [hlength], by simpa [ht] using hd, he, fun x => ?_⟩
      simp [joinBody_cons_cons ht hu, hjoin, happend, Function.comp_def]

/-- Merging into a node after a part of the other was replaced. -/
theorem join_setPart {part : Part} {t u : Trace} {c : List Trace} (hc : u.part? part = some c)
    (h : join t u = some t) :
    ∃ b, t.part? part = some b ∧ Covers b c ∧
      ∀ c', join t (u.setPart part c') = (joinBody b c').map (t.setPart part ·) := by
  fun_cases part? part u with
  | case7 => simp [part?] at hc
  | case6 n body =>
      obtain rfl : body = c := by simpa [part?] using hc
      cases t <;> (try simp [join, mergeIn] at h; done)
      rename_i m value
      cases value <;> (try simp [join, mergeIn] at h; done)
      simp [join, mergeIn, toOption_mergeBody] at h
      refine ⟨_, rfl, h.2, fun c' => ?_⟩
      simp [setPart, join, mergeIn, toOption_mergeBody, h, Function.comp_def]
  | _ =>
      obtain rfl := Option.some.inj hc
      cases t <;> (try simp [join, mergeIn] at h; done)
      simp [join, mergeIn, toOption_mergeBody, Option.bind_eq_some_iff] at h
      refine ⟨_, rfl, ?_, fun c' => ?_⟩
      · simp [Covers, h]
      · simp [setPart, join, mergeIn, toOption_mergeBody, h, Option.map_eq_bind,
          Option.bind_assoc, Function.comp_def]

/-- Merging into a list after the list at a path in the covered one was replaced. -/
theorem Covers.joinBody_replaceAt {path : Path} {b c d : List Trace} (hb : Tidy (block b))
    (hc : Tidy (block c)) (h : Covers b c) (hd : blockAt? path c = some d) :
    ∃ e, blockAt? path b = some e ∧ Covers e d ∧
      ∀ d', joinBody b (replaceAt path d' c) = (joinBody e d').map (replaceAt path · b) := by
  induction path generalizing b c with
  | nil =>
      obtain rfl : c = d := Option.some.inj hd
      exact ⟨b, rfl, h, by simp [replaceAt]⟩
  | cons step path ih =>
      obtain ⟨u, c', hu, hc', hd⟩ := blockAt?_cons_eq_some_iff.mp hd
      obtain ⟨t, ht, -, hjoin, hset⟩ :=
        h.joinBody_set hb.isBody hc.isBody hu (ne_hole_of_part? hc')
      obtain ⟨b', hb', hcovers, hpart⟩ := join_setPart hc' hjoin
      have htidy : Tidy (block b') :=
        isLocal_isTidy.every_part? ((tidy_block_iff.mp hb).2 t (List.mem_of_getElem? ht)) hb'
      have hutidy : Tidy (block c') :=
        isLocal_isTidy.every_part? ((tidy_block_iff.mp hc).2 u (List.mem_of_getElem? hu)) hc'
      obtain ⟨e, he, hcovers', hreplace⟩ := ih htidy hutidy hcovers hd
      refine ⟨e, blockAt?_cons_eq_some_iff.mpr ⟨t, b', ht, hb', he⟩, hcovers', fun d' => ?_⟩
      have hne : u.setPart step.part (replaceAt path d' c') ≠ hole :=
        ne_hole_of_head_eq (head_setPart ..) (ne_hole_of_part? hc')
      rw [replaceAt_cons hu hc', hset _ hne, hpart, hreplace]
      simp [Function.comp_def, replaceAt_cons ht hb']

/-- A statement that has just begun fits where merging it changes nothing. -/
theorem join_eq_left_iff {t u : Trace} (ht : Tidy t) (hne : t ≠ hole)
    (hu : every hasOpenBodies u = true) :
    join t u = some t ↔ (mergeIn t u).mismatch = none := by
  have hresult := result_mergeIn ht hne hu
  simp only [join, Merged.toOption]
  split <;> simp_all

end TraceLoom.Trace
