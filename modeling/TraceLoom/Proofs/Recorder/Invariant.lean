import TraceLoom.Proofs.Recorder.Plan
import TraceLoom.Proofs.Trace.Covers

/-!
Operations keep recorders sound, whether they go through or fail.  A change makes the innermost
open list longer at its end or drops the hole there; either way the frames and bases of all
contexts stay good.
-/

namespace TraceLoom

open Trace

/-! ## Changes of a list -/

namespace Edit

variable {b b' : List Trace} {k : Nat} {t : Trace}

theorem exists_eq_append_of_hole (hb : Tidy (block b)) (hhole : b[k]? = some hole) :
    ∃ c, b = c ++ [hole] ∧ k = c.length := by
  refine ⟨b.take k, Recording.eq_take_append_of_hole hb hhole, ?_⟩
  have hlt := (List.getElem?_eq_some_iff.mp hhole).1
  simp [Nat.min_eq_left (Nat.le_of_lt hlt)]

/-- A statement fills the hole that ends a list, or fits what is there. -/
theorem cases_of_record {rest : List Trace} (hb : Tidy (block b))
    (h : (record t rest).apply k b = .ok b') :
    (∃ c, b = c ++ [hole] ∧ k = c.length ∧ b' = c ++ t :: rest) ∨
      ∃ old, b[k]? = some old ∧ old ≠ hole ∧ (mergeIn old t).mismatch = none ∧ b' = b := by
  rw [apply] at h
  cases hold : b[k]? with
  | none => simp [hold] at h
  | some old =>
      simp only [hold] at h
      by_cases hhole : old = hole
      · subst hhole
        obtain ⟨c, rfl, rfl⟩ := exists_eq_append_of_hole hb hold
        exact .inl ⟨c, rfl, rfl, by simpa [isHole] using h.symm⟩
      · simp only [isHole_eq_true_iff, hhole, if_false] at h
        cases hmerge : (mergeIn old t).mismatch with
        | some m => simp [hmerge] at h
        | none => exact .inr ⟨old, rfl, hhole, hmerge, by simpa [hmerge] using h.symm⟩

/-- A list ends where it had ended before, or at its hole. -/
theorem cases_of_close (hb : Tidy (block b)) (h : close.apply k b = .ok b') :
    (k = b.length ∧ b' = b) ∨ ∃ c, b = c ++ [hole] ∧ k = c.length ∧ b' = c := by
  rw [apply] at h
  split at h
  · rename_i hend
    exact .inl ⟨hend, by simpa using h.symm⟩
  · split at h
    · rename_i hhole
      obtain ⟨c, rfl, rfl⟩ := exists_eq_append_of_hole hb hhole
      exact .inr ⟨c, rfl, rfl, by simpa using h.symm⟩
    · cases h

/-- A list that goes on in place of the hole at its end has all it had. -/
theorem extends_append {c rest : List Trace} (hc : Tidy (block (c ++ [hole]))) :
    Extends (c ++ [hole]) (c ++ rest) := by
  have hne := hc.ne_hole_of_append
  refine ⟨fun i s hs hshole => ?_, fun j hj => ?_⟩
  · rw [List.getElem?_append] at hs ⊢
    split at hs
    · rename_i hi
      rw [if_pos hi, hs]
    · have hmem : s ∈ [hole] := List.mem_of_getElem? hs
      exact absurd (List.mem_singleton.mp hmem) hshole
  · have hle : j ≤ c.length := by
      by_contra hgt
      exact hj.noHole c.length (by omega) (by simp)
    refine ⟨by simp only [List.length_append]; omega, fun i hi heq => ?_⟩
    rw [List.getElem?_append_left (by omega)] at heq
    exact hne hole (List.mem_of_getElem? heq) rfl

theorem tidy_append_record {c : List Trace} (hc : Tidy (block (c ++ [hole]))) (ht : t.Begun) :
    Tidy (block (c ++ t :: t.followers)) := by
  obtain ⟨hends, hitems⟩ := tidy_block_iff.mp hc
  have hbefore := endingsLast_append_iff.mp hends
  refine tidy_block_iff.mpr ⟨?_, fun s hs => ?_⟩
  · unfold followers
    split
    · exact endingsLast_append_iff.mpr hbefore
    · rename_i hbreak
      have hend : t.isEnding = false := by
        simpa [isEnding, ht.ne_hole] using hbreak
      rw [List.append_cons]
      refine endingsLast_append_iff.mpr fun s hs => ?_
      rcases List.mem_append.mp hs with hs | hs
      · exact hbefore s hs
      · rw [List.mem_singleton.mp hs, hend]
  · rcases List.mem_append.mp hs with hs | hs
    · exact hitems s (by simp [hs])
    · rcases List.mem_cons.mp hs with rfl | hs
      · exact ht.tidy
      · rw [eq_hole_of_mem_followers hs]
        decide

theorem tidy_of_append {c : List Trace} (hc : Tidy (block (c ++ [hole]))) : Tidy (block c) := by
  obtain ⟨hends, hitems⟩ := tidy_block_iff.mp hc
  have hbefore := endingsLast_append_iff.mp hends
  refine tidy_block_iff.mpr ⟨List.all_eq_true.mpr ?_, fun s hs => hitems s (by simp [hs])⟩
  intro s hs
  simp [hbefore s ((List.dropLast_sublist c).subset hs)]

/-- A cursor moves past a statement that is no hole. -/
theorem standsIn_succ {s : Trace} (hk : StandsIn k b) (hs : b[k]? = some s) (hne : s ≠ hole) :
    StandsIn (k + 1) b := by
  refine ⟨(List.getElem?_eq_some_iff.mp hs).1, fun i hi heq => ?_⟩
  rcases Nat.lt_succ_iff_lt_or_eq.mp hi with hlt | rfl
  · exact hk.noHole i hlt heq
  · exact hne (Option.some.inj (hs.symm.trans heq))

/-- Where a statement was recorded, all earlier statements stay, and what stands there now has
the parts of the statement. -/
theorem extends_of_record (htidy : Tidy (block b)) (ht : t.Begun) (hk : StandsIn k b)
    (h : (record t t.followers).apply k b = .ok b') :
    Extends b b' ∧ Tidy (block b') ∧ StandsIn (k + 1) b' ∧
      ∃ s, b'[k]? = some s ∧ ∀ part c, t.part? part = some c → ∃ d, s.part? part = some d := by
  rcases cases_of_record htidy h with ⟨c, rfl, rfl, rfl⟩ | ⟨old, hold, hhole, hmerge, rfl⟩
  · have hext : Extends (c ++ [hole]) (c ++ t :: t.followers) := extends_append htidy
    have hget : (c ++ t :: t.followers)[c.length]? = some t := by simp
    exact ⟨hext, tidy_append_record htidy ht, standsIn_succ (hext.stands _ hk) hget ht.ne_hole,
      t, hget, fun part d hd => ⟨d, hd⟩⟩
  · have hold' : Tidy old := (tidy_block_iff.mp htidy).2 old (List.mem_of_getElem? hold)
    have hjoin := (join_eq_left_iff hold' hhole ht.openBodies).mpr hmerge
    refine ⟨.refl b', htidy, standsIn_succ hk hold hhole, old, hold, fun part c hc => ?_⟩
    obtain ⟨d, hd, -⟩ := join_setPart hc hjoin
    exact ⟨d, hd⟩

theorem ne_danglingPath_of_apply {e : Edit} {error : TraceError} (h : e.apply k b = .error error) :
    error ≠ .danglingPath := by
  rintro rfl
  cases e <;> simp only [apply] at h <;> repeat' split at h
  all_goals simp at h

theorem extends_of_close (htidy : Tidy (block b)) (h : close.apply k b = .ok b') :
    Extends b b' ∧ Tidy (block b') := by
  rcases cases_of_close htidy h with ⟨-, rfl⟩ | ⟨c, rfl, rfl, rfl⟩
  · exact ⟨.refl b', htidy⟩
  · have hext : Extends (b' ++ [hole]) (b' ++ []) := extends_append htidy
    rw [List.append_nil] at hext
    exact ⟨hext, tidy_of_append htidy⟩

end Edit

theorem Context.Sound.replaceAt {path : Path} {root b b' : List Trace} {c : Context}
    (h : c.Sound root) (hb : blockAt? path root = some b) (hext : Extends b b') :
    c.Sound (replaceAt path b' root) := by
  obtain ⟨d, hd⟩ := h.base
  obtain ⟨d', hd', -⟩ := exists_blockAt?_replaceAt hb hext hd
  refine ⟨⟨d', hd'⟩, fun f hf => ?_, h.nested⟩
  obtain ⟨e, he, hstands⟩ := h.stands f hf
  obtain ⟨e', he', hstands'⟩ := exists_blockAt?_replaceAt hb hext he
  exact ⟨e', he', hstands' _ hstands⟩

namespace Recorder.Sound

variable {r : Recorder} {c : Context}

theorem fail (h : r.Sound) {e : TraceError} (he : e ≠ .danglingPath) :
    { r with failure := some e }.Sound :=
  ⟨h.tidy, h.contexts, h.fresh, h.distinct, h.root, h.active, fun heq => he (Option.some.inj heq)⟩

/-- A new context with a base that leads to a statement list. -/
theorem register (h : r.Sound) {base : Path} (hbase : ∃ b, blockAt? base r.root = some b) :
    { r with
      nextContext := r.nextContext + 1
      contexts := r.contexts ++ [(r.nextContext, Context.idle base)] }.Sound := by
  have hlive : ∀ {id c}, r.context? id = some c →
      ({ r with
        nextContext := r.nextContext + 1
        contexts := r.contexts ++ [(r.nextContext, Context.idle base)] } : Recorder).context? id =
        some c := by
    intro id c hc
    have hc' : r.contexts.lookup id = some c := hc
    simp [context?, List.lookup_append, hc']
  obtain ⟨c, hc, hcbase⟩ := h.root
  obtain ⟨d, hd⟩ := h.active
  refine ⟨h.tidy, ?_, ?_, ?_, ⟨c, hlive hc, hcbase⟩, ⟨d, hlive hd⟩, h.failure⟩
  · intro entry hentry
    rcases List.mem_append.mp hentry with hold | hnew
    · exact h.contexts entry hold
    · rw [List.mem_singleton.mp hnew]
      exact ⟨hbase, by simp [Context.idle], .nil⟩
  · intro entry hentry
    rcases List.mem_append.mp hentry with hold | hnew
    · exact Nat.lt_succ_of_lt (h.fresh entry hold)
    · rw [List.mem_singleton.mp hnew]
      exact Nat.lt_succ_self _
  · rw [List.map_append, List.map_singleton, ← List.concat_eq_append, List.nodup_concat]
    refine ⟨fun hmem => ?_, h.distinct⟩
    obtain ⟨entry, hentry, heq⟩ := List.mem_map.mp hmem
    exact absurd heq (Nat.ne_of_lt (h.fresh entry hentry))

end Recorder.Sound

/-! ## Plans -/

/-- What an operation leaves is sound, and it does not fail because of a path. -/
structure KeepsSound (result : Except TraceError Operation.Outcome × Recorder) : Prop where
  sound : result.2.Sound
  path : result.1 ≠ .error .danglingPath

theorem KeepsSound.ok {out : Operation.Outcome} {r : Recorder} (h : r.Sound) :
    KeepsSound (.ok out, r) :=
  ⟨h, by simp⟩

namespace Plan

open Recorder

variable {r : Recorder} {c : Context}

theorem keepsSound_refuse (hr : r.Sound) (hc : r.context? r.active = some c) {e : TraceError}
    (he : e ≠ .danglingPath) : KeepsSound ((refuse c e).carryOut r) := by
  rw [carryOut_refuse hr hc]
  exact ⟨hr.fail he, by simpa using he⟩

theorem keepsSound_pass (hr : r.Sound) (hc : r.context? r.active = some c) {d : Context}
    {out : Operation.Outcome} (hd : d.Sound r.root) (hbase : d.base = c.base) :
    KeepsSound ((pass c d out).carryOut r) :=
  .ok (hr.continueWith hc hr.tidy hr.contexts hd hbase)

/-- Ending the list of an open frame. -/
theorem keepsSound_close (hr : r.Sound) (hc : r.context? r.active = some c) {f : Frame}
    (hf : f ∈ c.frames) {refused d : Context} {out : Operation.Outcome}
    (hrefused : refused.Sound r.root) (hrefusedBase : refused.base = c.base)
    (hd : d.Sound r.root) (hbase : d.base = c.base) :
    KeepsSound (carryOut ⟨some (f, .close), refused, d, .give out⟩ r) := by
  obtain ⟨b, hb, htidy⟩ := Operation.exists_block hr hc hf
  simp only [carryOut, edited, hb]
  cases hclose : Edit.close.apply f.cursor b with
  | error e =>
      have he := Edit.ne_danglingPath_of_apply hclose
      exact ⟨(hr.continueWith hc hr.tidy hr.contexts hrefused hrefusedBase).fail he,
        by simpa [Except.map] using he⟩
  | ok b' =>
      obtain ⟨hext, htidy'⟩ := Edit.extends_of_close htidy hclose
      exact .ok (hr.continueWith hc (isLocal_isTidy.every_replaceAt hr.tidy hb htidy')
        (fun entry hentry => (hr.contexts entry hentry).replaceAt hb hext)
        (hd.replaceAt hb hext) hbase)

/-- Recording a statement, if the frames that are left are good wherever the frame and those
around it are. -/
theorem keepsSound_statement (hr : r.Sound) (hc : r.context? r.active = some c) {t : Trace}
    (ht : t.Begun) {pending : List (List Trace)} {frames : Frame → List Frame → List Frame}
    {finish : Frame → List Frame → Finish}
    (hframes : ∀ f fs root, (∀ g ∈ f.next :: fs, g.Stands root) → Nested c.base (f.next :: fs) →
      (∀ part b, t.part? part = some b →
        ∃ d, blockAt? (f.path ++ [⟨f.cursor, part⟩]) root = some d) →
      (∀ g ∈ frames f fs, g.Stands root) ∧ Nested c.base (frames f fs))
    (hfinish : ∀ f fs, match finish f fs with
      | .give _ => True
      | .register base => ∃ part b, t.part? part = some b ∧ base = f.path ++ [⟨f.cursor, part⟩]
      | .fail e => e ≠ .danglingPath) :
    KeepsSound ((statement c t pending frames finish).carryOut r) := by
  have hcontext := hr.contexts _ (mem_of_context? hc)
  unfold statement
  cases hopen : c.frames with
  | nil => exact keepsSound_refuse hr hc (by simp)
  | cons f fs =>
      have hmem : f ∈ c.frames := by simp [hopen]
      obtain ⟨b, hb, htidy⟩ := Operation.exists_block hr hc hmem
      obtain ⟨_, hb', hstands⟩ := hcontext.stands f hmem
      obtain rfl := Option.some.inj (hb.symm.trans hb')
      simp only [carryOut, edited, hb]
      cases hrecord : (Edit.record t t.followers).apply f.cursor b with
      | error e =>
          have he := Edit.ne_danglingPath_of_apply hrecord
          exact ⟨(hr.continueWith hc hr.tidy hr.contexts hcontext rfl).fail he,
            by simpa [Except.map] using he⟩
      | ok b' =>
          obtain ⟨hext, htidy', hstands', s, hs, hparts⟩ :=
            Edit.extends_of_record htidy ht hstands hrecord
          have hget := blockAt?_replaceAt hb b'
          have hinside : ∀ part c, t.part? part = some c →
              ∃ d, blockAt? (f.path ++ [⟨f.cursor, part⟩]) (replaceAt f.path b' r.root) = some d := by
            intro part c hpart
            obtain ⟨d, hd⟩ := hparts part c hpart
            exact ⟨d, by simp [blockAt?_append, hget, blockAt?, hs, hd]⟩
          have hold := hcontext.replaceAt hb hext
          obtain ⟨hgood, hnested⟩ := hframes f fs (replaceAt f.path b' r.root)
            (fun g hg => by
              rcases List.mem_cons.mp hg with rfl | hg
              · exact ⟨b', hget, hstands'⟩
              · exact hold.stands g (by simp [hopen, hg]))
            ((hopen ▸ hcontext.nested).replace_head rfl) hinside
          have hsound := hr.continueWith hc (isLocal_isTidy.every_replaceAt hr.tidy hb htidy')
            (fun entry hentry => (hr.contexts entry hentry).replaceAt hb hext)
            (d := ⟨c.base, frames f fs, pending⟩) ⟨hold.base, hgood, hnested⟩ rfl
          have hend := hfinish f fs
          dsimp only [Except.map]
          cases hfin : finish f fs with
          | give out => exact .ok hsound
          | register base =>
              rw [hfin] at hend
              obtain ⟨part, c, hpart, rfl⟩ := hend
              exact .ok (hsound.register (hinside part c hpart))
          | fail e =>
              rw [hfin] at hend
              exact ⟨hsound.fail hend, by simpa [finished] using hend⟩

end Plan

/-! ## Operations -/

theorem Recording.suffix_of_unwind {n : String} {frames rest : List Frame}
    (h : unwind n frames = some rest) : rest <:+ frames := by
  induction frames with
  | nil => simp [unwind] at h
  | cons f fs ih =>
      rw [unwind] at h
      split at h
      · obtain rfl : fs = rest := by simpa using h
        exact List.suffix_cons f fs
      · exact (ih h).trans (List.suffix_cons f fs)

namespace Plan

open Recorder Recording

variable {r : Recorder} {c : Context}

theorem keepsSound_passed (hr : r.Sound) (hc : r.context? r.active = some c) {t : Trace}
    (ht : t.Begun) {pending : List (List Trace)} {out : Operation.Outcome} :
    KeepsSound ((statement c t pending passed fun _ _ => .give out).carryOut r) :=
  keepsSound_statement hr hc ht (fun _ _ _ hgood hnested _ => ⟨hgood, hnested⟩) fun _ _ => trivial

theorem keepsSound_entered (hr : r.Sound) (hc : r.context? r.active = some c) {t : Trace}
    (ht : t.Begun) {part : Part} {b : List Trace} (hb : t.part? part = some b) {scope : Scope}
    {pending : List (List Trace)} {out : Operation.Outcome} :
    KeepsSound ((statement c t pending (entered part scope) fun _ _ => .give out).carryOut r) := by
  refine keepsSound_statement hr hc ht (fun f fs root hgood hnested hinside => ⟨fun g hg => ?_, ?_⟩)
    fun _ _ => trivial
  · rcases List.mem_cons.mp hg with rfl | hg
    · obtain ⟨d, hd⟩ := hinside part b hb
      exact ⟨d, hd, standsIn_zero d⟩
    · exact hgood g hg
  · exact .inside (Nat.succ_pos _) rfl hnested

theorem keepsSound_iterate (hr : r.Sound) (hc : r.context? r.active = some c) :
    KeepsSound ((iterate c).carryOut r) := by
  have hcontext := hr.contexts _ (mem_of_context? hc)
  unfold iterate
  cases hopen : c.frames with
  | nil => exact keepsSound_refuse hr hc (by simp)
  | cons f fs =>
      have hagain : Context.Sound r.root
          { c with frames := { f with cursor := 0, scope := .loop true } :: fs } := by
        refine ⟨hcontext.base, fun g hg => ?_, (hopen ▸ hcontext.nested).replace_head rfl⟩
        rcases List.mem_cons.mp hg with rfl | hg
        · obtain ⟨b, hb, -⟩ := hcontext.stands f (by simp [hopen])
          exact ⟨b, hb, standsIn_zero b⟩
        · exact hcontext.stands g (by simp [hopen, hg])
      dsimp only
      cases f.scope with
      | loop iterating =>
          cases iterating with
          | false => exact keepsSound_pass hr hc hagain rfl
          | true =>
              exact keepsSound_close hr hc (by simp [hopen]) hcontext rfl hagain rfl
      | _ => exact keepsSound_refuse hr hc (by simp)

theorem keepsSound_breakTo (hr : r.Sound) (hc : r.context? r.active = some c) {n : String}
    {t : Trace} (ht : (Trace.breakTo n t).Begun) : KeepsSound ((breakTo c n t).carryOut r) := by
  refine keepsSound_statement hr hc ht (fun f fs root hgood hnested _ => ?_) fun f fs => ?_
  · cases hunwind : unwind n (f.next :: fs) with
    | none => exact ⟨by simp, .nil⟩
    | some rest =>
        have hsuffix := suffix_of_unwind hunwind
        exact ⟨fun g hg => hgood g (hsuffix.subset hg), hnested.of_suffix hsuffix⟩
  · by_cases hunwind : (unwind n (f.next :: fs)).isSome <;> simp [hunwind]

theorem keepsSound_enterBody (hr : r.Sound) (hc : r.context? r.active = some c) {n : String}
    {arity : Nat} (ht : (Trace.label n [hole]).Begun) :
    KeepsSound ((enterBody c n arity).carryOut r) := by
  unfold enterBody
  by_cases harity : arity > maxArity
  · rw [if_pos harity]
    exact keepsSound_refuse hr hc (by simp)
  · rw [if_neg harity]
    cases c.pending with
    | nil => exact keepsSound_refuse hr hc (by simp)
    | cons args rest =>
        have hcontext := hr.contexts _ (mem_of_context? hc)
        have hr' : (r.continueWith r.root { c with pending := rest }).Sound :=
          hr.continueWith hc hr.tidy hr.contexts ⟨hcontext.base, hcontext.stands, hcontext.nested⟩
            rfl
        dsimp only
        rw [← carryOut_continueWith _ r { c with pending := rest }]
        exact keepsSound_entered hr' (context?_active_continueWith hc _ _) ht rfl

theorem keepsSound_exit (hr : r.Sound) (hc : r.context? r.active = some c) :
    KeepsSound ((exit c).carryOut r) := by
  have hcontext := hr.contexts _ (mem_of_context? hc)
  unfold exit
  cases hopen : c.frames with
  | nil => exact keepsSound_refuse hr hc (by simp)
  | cons f fs =>
      have hrest : Context.Sound r.root { c with frames := fs } :=
        ⟨hcontext.base, fun g hg => hcontext.stands g (by simp [hopen, hg]),
          (hopen ▸ hcontext.nested).tail⟩
      by_cases hscope : f.scope = .loop false
      · simp only [hscope, if_true]
        exact .ok (hr.continueWith hc hr.tidy hr.contexts hrest rfl)
      · simp only [hscope, if_false]
        exact keepsSound_close hr hc (by simp [hopen]) hrest rfl hrest rfl

end Plan

namespace Operation

open Recorder Plan Recording

variable {r : Recorder} {c : Context}

theorem keepsSound_plan {op : Operation} {p : Plan} (hr : r.Sound)
    (hc : r.context? r.active = some c) (hop : op.Plain) (hp : op.plan? c = some p) :
    KeepsSound (p.carryOut r) := by
  have hcontext := hr.contexts _ (mem_of_context? hc)
  have hbegun : ∀ {t : Trace}, op.statement? = some t → t.Begun := hop.begun
  cases op <;> cases hp
  case restart =>
    obtain ⟨b, hb⟩ := hcontext.base
    refine keepsSound_pass hr hc ⟨hcontext.base, fun f hf => ?_, .outermost rfl⟩ rfl
    obtain rfl := List.mem_singleton.mp hf
    exact ⟨b, hb, standsIn_zero b⟩
  case bind | assign | primitive => exact keepsSound_passed hr hc (hbegun rfl)
  case branch taken test =>
    cases taken
    · exact keepsSound_entered hr hc (hbegun rfl) rfl
    · exact keepsSound_entered hr hc (hbegun rfl) rfl
  case loop | label | call => exact keepsSound_entered hr hc (hbegun rfl) rfl
  case iterate => exact keepsSound_iterate hr hc
  case breakTo => exact keepsSound_breakTo hr hc (hbegun rfl)
  case enterBody => exact keepsSound_enterBody hr hc (hbegun rfl)
  case pushArgs =>
    exact keepsSound_pass hr hc ⟨hcontext.base, hcontext.stands, hcontext.nested⟩ rfl
  case popArgs =>
    unfold Plan.popArgs
    split
    · exact keepsSound_refuse hr hc (by simp)
    · exact keepsSound_pass hr hc ⟨hcontext.base, hcontext.stands, hcontext.nested⟩ rfl
  case callback =>
    exact keepsSound_statement hr hc (hbegun rfl)
      (fun _ _ _ hgood hnested _ => ⟨hgood, hnested⟩) fun _ _ => ⟨.body, _, rfl, rfl⟩
  case exit => exact keepsSound_exit hr hc

theorem run_switchTo (id : ContextId) (r : Recorder) :
    run (switchTo id).perform r =
      match r.context? id with
      | none => (.error (.unknownContext id), r)
      | some _ => (.ok (.context r.active), { r with active := id }) := by
  rw [perform, run_bind, Recorder.switchTo, run_bind, run_get]
  dsimp only
  cases r.context? id <;> rfl

theorem run_release (id : ContextId) (r : Recorder) :
    run (release id).perform r =
      (.ok .done, if id = rootContext ∨ id = r.active then r
        else { r with contexts := r.contexts.filter fun entry => entry.1 ≠ id }) := rfl

theorem keepsSound_switchTo (hr : r.Sound) (id : ContextId) :
    KeepsSound (run (switchTo id).perform r) := by
  rw [run_switchTo]
  cases hc : r.context? id with
  | none => exact ⟨hr, by simp⟩
  | some c =>
      exact .ok ⟨hr.tidy, hr.contexts, hr.fresh, hr.distinct, hr.root, ⟨c, hc⟩, hr.failure⟩

theorem keepsSound_release (hr : r.Sound) (id : ContextId) :
    KeepsSound (run (release id).perform r) := by
  rw [run_release]
  refine .ok ?_
  split
  · exact hr
  · rename_i hid
    simp only [not_or] at hid
    obtain ⟨c, hc, hbase⟩ := hr.root
    obtain ⟨d, hd⟩ := hr.active
    have hlive : ∀ {other}, other ≠ id →
        (r.contexts.filter fun entry => entry.1 ≠ id).lookup other = r.context? other := by
      intro other hother
      rw [lookup_filter_ne, if_neg hother]
      rfl
    exact ⟨hr.tidy, fun entry hentry => hr.contexts entry (List.mem_of_mem_filter hentry),
      fun entry hentry => hr.fresh entry (List.mem_of_mem_filter hentry),
      hr.distinct.sublist (List.filter_sublist.map _), ⟨c, (hlive (Ne.symm hid.1)).trans hc, hbase⟩,
      ⟨d, (hlive (Ne.symm hid.2)).trans hd⟩, hr.failure⟩

/-- Once a recorder is unusable, operations that record leave it alone. -/
theorem run_perform_of_failure {op : Operation} {p : Plan} {cause : TraceError}
    (hp : op.plan? c = some p) (hfailure : r.failure = some cause) :
    run op.perform r = (.error (.poisoned cause), r) := by
  have hguarded : ∀ {α : Type} (m : Recording α) (out : α → Outcome),
      run (do return out (← guarded m)) r = (.error (.poisoned cause), r) := by
    intro α m out
    rw [run_bind, run_guarded, hfailure]
  cases op <;> cases hp <;> exact hguarded _ _

/-- Operations keep recorders sound, whether they go through or fail. -/
theorem keepsSound_perform (hr : r.Sound) {op : Operation} (hop : op.Plain) :
    KeepsSound (run op.perform r) := by
  obtain ⟨c, hc⟩ := hr.active
  cases hp : op.plan? c with
  | some p =>
      cases hfailure : r.failure with
      | none =>
          rw [run_perform hr hop hfailure hc hp]
          exact keepsSound_plan hr hc hop hp
      | some cause =>
          rw [run_perform_of_failure hp hfailure]
          exact ⟨hr, by simp⟩
  | none =>
      cases op <;> cases hp
      · exact keepsSound_switchTo hr _
      · exact keepsSound_release hr _

end Operation

theorem Recorder.sound_new : Recorder.new.Sound where
  tidy := by decide
  contexts entry hentry := by
    obtain rfl := List.mem_singleton.mp hentry
    refine ⟨⟨[.hole], rfl⟩, fun f hf => ?_, .outermost rfl⟩
    obtain rfl := List.mem_singleton.mp hf
    exact ⟨[.hole], rfl, standsIn_zero _⟩
  fresh entry hentry := by
    obtain rfl := List.mem_singleton.mp hentry
    exact Nat.zero_lt_one
  distinct := List.nodup_singleton _
  root := ⟨_, rfl, rfl⟩
  active := ⟨_, rfl⟩
  failure := nofun

end TraceLoom
