import TraceLoom.Proofs.Recorder.Invariant

/-!
Operations on a trace that covers another.  Where the change of an operation can be made in the
covered trace, making it in the covering one amounts to merging the changed trace into it.
-/

namespace TraceLoom

open Trace

/-! ## Changes of a list -/

namespace Trace

/-- A list that covers one without holes is as long. -/
theorem Covers.length_eq {b c : List Trace} (hb : IsBody b) (hc : ∀ s ∈ c, s ≠ hole)
    (h : Covers b c) : b.length = c.length := by
  induction c generalizing b with
  | nil => cases hb with
      | nil => rfl
      | openEnd => simp [Covers] at h
      | cons ht _ => simp [Covers, joinBody_cons_nil ht] at h
  | cons u us ih =>
      obtain ⟨t, ts, rfl, -, hts, -, hrest⟩ := h.exists_cons hb (hc u List.mem_cons_self)
      simp [ih hts (fun s hs => hc s (List.mem_cons_of_mem u hs)) hrest]

end Trace

namespace Edit

variable {b a a' : List Trace} {k : Nat} {t : Trace}

/-- Recording a statement where the list it covers goes on is merging what is left with it.  The
list may have ended there, may go on as well, or may have a statement there already. -/
theorem toOption_record_append {x y : List Trace} (hb : Tidy (block (x ++ y))) (hy : IsBody y)
    (ht : t.Begun) : ((record t t.followers).apply x.length (x ++ y)).toOption =
      (joinBody y (t :: t.followers)).map (x ++ ·) := by
  rw [apply, List.getElem?_append_right (Nat.le_refl _), Nat.sub_self]
  cases hy with
  | nil => simp [joinBody_nil_cons ht.ne_hole, Except.toOption]
  | openEnd => simp [isHole, Except.toOption]
  | @cons s ss hs hss =>
      have hs' : Tidy s := (tidy_block_iff.mp hb).2 s (by simp)
      have hjoin := join_eq_left_iff hs' hs ht.openBodies
      cases hmerge : (mergeIn s t).mismatch with
      | some m =>
          have hnone : join s t = none := by simp [join, Merged.toOption, hmerge]
          simp [joinBody_cons_cons hs ht.ne_hole, hs, hmerge, hnone, Except.toOption]
      | none =>
          have hrest : joinBody ss t.followers = some ss := by
            unfold followers
            split
            · -- a break fits breaks only, and those are last
              rename_i hbreak
              have hsbreak := Operation.isBreak_of_mergeIn hmerge hs hbreak
              have hlast := length_of_isEnding (tidy_block_iff.mp hb).1
                (i := x.length) (t := s) (by simp) (by simp [isEnding, hsbreak])
              obtain rfl : ss = [] := by simpa using hlast
              rfl
            · exact joinBody_open_right hss
          simp [joinBody_cons_cons hs ht.ne_hole, hs, hmerge, hjoin.mpr hmerge, hrest,
            Except.toOption]

/-- Recording a statement in a list that covers another amounts to merging with that other list
after the statement was recorded there. -/
theorem toOption_record (hb : Tidy (block b)) (ha : Tidy (block a)) (h : Covers b a)
    (ht : t.Begun) (hrecord : (record t t.followers).apply k a = .ok a') :
    ((record t t.followers).apply k b).toOption = joinBody b a' := by
  rcases cases_of_record ha hrecord with ⟨d, rfl, rfl, rfl⟩ | ⟨old, hold, hhole, hmerge, rfl⟩
  · obtain ⟨x, y, rfl, hlength, -, hy, happend⟩ :=
      h.joinBody_append hb.isBody ha.ne_hole_of_append
    rw [happend, ← hlength, toOption_record_append hb hy ht]
  · -- both have a statement there, and the covering one says at least as much
    obtain ⟨s, hs, hshole, hcover, -⟩ := h.joinBody_set hb.isBody ha.isBody hold hhole
    have hs' : Tidy s := (tidy_block_iff.mp hb).2 s (List.mem_of_getElem? hs)
    have hold' : Tidy old := (tidy_block_iff.mp ha).2 old (List.mem_of_getElem? hold)
    have hjoin : join s t = some s := by
      have hassoc := join_assoc hs'.wellFormed hold'.wellFormed ht.tidy.wellFormed
      rw [hcover, (join_eq_left_iff hold' hhole ht.openBodies).mpr hmerge] at hassoc
      exact hassoc.trans hcover
    have hfits := (join_eq_left_iff hs' hshole ht.openBodies).mp hjoin
    simpa [apply, hs, hshole, hfits, Except.toOption] using Eq.symm h

theorem toOption_close_append {x y : List Trace} (hy : IsBody y) :
    (close.apply x.length (x ++ y)).toOption = (joinBody y []).map (x ++ ·) := by
  rw [apply, List.getElem?_append_right (Nat.le_refl _), Nat.sub_self]
  cases hy with
  | nil => simp [Except.toOption]
  | openEnd => simp [Except.toOption]
  | @cons s ss hs hss =>
      simp only [joinBody_cons_nil hs, List.length_append, List.length_cons]
      rw [if_neg (by omega)]
      cases s <;> first | exact absurd rfl hs | rfl

/-- Ending a list that covers another amounts to merging with that other list after it ended. -/
theorem toOption_close (hb : Tidy (block b)) (ha : Tidy (block a)) (h : Covers b a)
    (hk : StandsIn k a) (hclose : close.apply k a = .ok a') :
    (close.apply k b).toOption = joinBody b a' := by
  rcases cases_of_close ha hclose with ⟨rfl, rfl⟩ | ⟨d, rfl, rfl, rfl⟩
  · have hlength : b.length = a'.length := by
      refine h.length_eq hb.isBody fun s hs => ?_
      obtain ⟨i, hi, rfl⟩ := List.mem_iff_getElem.mp hs
      exact fun heq => hk.noHole i hi (by simp [hi, heq])
    simpa [apply, hlength, Except.toOption] using Eq.symm h
  · obtain ⟨x, y, rfl, hlength, -, hy, happend⟩ :=
      h.joinBody_append hb.isBody ha.ne_hole_of_append
    have hd := happend []
    rw [List.append_nil] at hd
    rw [hd, ← hlength, toOption_close_append hy]

end Edit

/-! ## Plans -/

/-- The change of a plan is made to an open list and records a certain statement, and its result
names no context. -/
structure Plan.Fits (p : Plan) (frames : List Frame) (statement? : Option Trace) : Prop where
  edit : ∀ f e, p.edit = some (f, e) →
    f ∈ frames ∧ (e = .close ∨ ∃ t, statement? = some t ∧ e = .record t t.followers)
  give : ∀ id, p.finish ≠ .give (.context id)

namespace Plan

variable {p : Plan} {c : Context} {frames : List Frame} {statement? : Option Trace}

theorem fits_of_edit_eq_none (h : p.edit = none) (hgive : ∀ id, p.finish ≠ .give (.context id)) :
    p.Fits frames statement? := by
  refine ⟨fun f e he => ?_, hgive⟩
  rw [h] at he
  cases he

theorem fits_of_close {f : Frame} (hf : f ∈ frames) (h : p.edit = some (f, .close))
    (hgive : ∀ id, p.finish ≠ .give (.context id)) : p.Fits frames statement? := by
  refine ⟨fun g e he => ?_, hgive⟩
  obtain ⟨rfl, rfl⟩ : f = g ∧ Edit.close = e := by simpa [h] using he
  exact ⟨hf, .inl rfl⟩

theorem fits_statement {t : Trace} {pending : List (List Trace)}
    {frames : Frame → List Frame → List Frame} {finish : Frame → List Frame → Finish}
    (hfinish : ∀ f fs id, finish f fs ≠ .give (.context id)) :
    (statement c t pending frames finish).Fits c.frames (some t) := by
  unfold statement
  cases hopen : c.frames with
  | nil => exact fits_of_edit_eq_none rfl nofun
  | cons f fs =>
      refine ⟨fun g e he => ?_, hfinish f fs⟩
      obtain ⟨rfl, rfl⟩ : f = g ∧ Edit.record t t.followers = e := by simpa using he
      exact ⟨List.mem_cons_self, .inr ⟨t, rfl, rfl⟩⟩

theorem fits_iterate : (iterate c).Fits c.frames none := by
  unfold iterate
  cases hopen : c.frames with
  | nil => exact fits_of_edit_eq_none rfl nofun
  | cons f fs =>
      dsimp only
      cases f.scope with
      | loop iterating =>
          cases iterating with
          | false => exact fits_of_edit_eq_none rfl nofun
          | true => exact fits_of_close List.mem_cons_self rfl nofun
      | _ => exact fits_of_edit_eq_none rfl nofun

theorem fits_breakTo (n : String) (t : Trace) :
    (breakTo c n t).Fits c.frames (some (.breakTo n t)) := by
  refine fits_statement fun f fs id => ?_
  split <;> nofun

theorem fits_enterBody (n : String) (arity : Nat) :
    (enterBody c n arity).Fits c.frames (some (.label n [hole])) := by
  unfold enterBody
  split
  · exact fits_of_edit_eq_none rfl nofun
  · split
    · exact fits_of_edit_eq_none rfl nofun
    · exact fits_statement fun _ _ _ => nofun

theorem fits_exit : (exit c).Fits c.frames none := by
  unfold exit
  cases hopen : c.frames with
  | nil => exact fits_of_edit_eq_none rfl nofun
  | cons f fs =>
      by_cases hscope : f.scope = .loop false
      · exact fits_of_edit_eq_none (by simp [hscope]) nofun
      · exact fits_of_close (f := f) List.mem_cons_self (by simp [hscope]) nofun

end Plan

theorem Operation.fits_of_plan? {op : Operation} {p : Plan} {c : Context}
    (hp : op.plan? c = some p) : p.Fits c.frames op.statement? := by
  cases op <;> cases hp
  case restart | pushArgs => exact Plan.fits_of_edit_eq_none rfl nofun
  case bind | assign | primitive | branch | loop | label | call | callback =>
    exact Plan.fits_statement nofun
  case iterate => exact Plan.fits_iterate
  case breakTo => exact Plan.fits_breakTo _ _
  case enterBody => exact Plan.fits_enterBody _ _
  case popArgs =>
    unfold Plan.popArgs
    split <;> exact Plan.fits_of_edit_eq_none rfl nofun
  case exit => exact Plan.fits_exit

/-- Making the change of a plan in a trace that covers another amounts to merging with that other
trace after the change was made there. -/
theorem Plan.toOption_edited {p : Plan} {frames : List Frame} {statement? : Option Trace}
    {a a' b : List Trace} (hfits : p.Fits frames statement?)
    (ht : ∀ {t}, statement? = some t → t.Begun) (hb : Tidy (block b)) (ha : Tidy (block a)) (hcovers : Covers b a)
    (hstands : ∀ f ∈ frames, f.Stands a) (h : p.edited a = .ok a') :
    (p.edited b).toOption = joinBody b a' := by
  unfold edited at h ⊢
  cases hedit : p.edit with
  | none =>
      obtain rfl : a = a' := by simpa [hedit] using h
      exact Eq.symm hcovers
  | some edit =>
      obtain ⟨f, e⟩ := edit
      obtain ⟨hf, he⟩ := hfits.edit f e hedit
      obtain ⟨d, hd, hstands⟩ := hstands f hf
      obtain ⟨d', hd', hcovers', hreplace⟩ := hcovers.joinBody_replaceAt hb ha hd
      have hdtidy := isLocal_isTidy.every_blockAt? ha hd
      have hdtidy' := isLocal_isTidy.every_blockAt? hb hd'
      simp only [hedit, hd] at h
      cases happly : e.apply f.cursor d with
      | error err => simp [happly, Except.map] at h
      | ok x =>
          obtain rfl : replaceAt f.path x a = a' := by simpa [happly, Except.map] using h
          have hlist : (e.apply f.cursor d').toOption = joinBody d' x := by
            rcases he with rfl | ⟨t, hstatement, rfl⟩
            · exact Edit.toOption_close hdtidy' hdtidy hcovers' hstands happly
            · exact Edit.toOption_record hdtidy' hdtidy hcovers' (ht hstatement) happly
          simp only [hd']
          rw [hreplace, ← hlist]
          cases e.apply f.cursor d' <;> rfl

end TraceLoom
