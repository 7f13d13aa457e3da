import TraceLoom.Proofs.Recorder.Scopes

/-!
A context is confined to the list at its base.  Whatever it does, the statements outside of that
list and the other contexts stay as they are.  The body of a callback changes only while a context
is active that is based there or further inside.
-/

namespace TraceLoom

open Trace

namespace Nested

variable {base p : Path} {f : Frame} {fs : List Frame}

theorem base_isPrefix (h : Nested base fs) (hf : f ∈ fs) : base <+: f.path := by
  induction h generalizing f with
  | nil => cases hf
  | outermost hpath =>
      obtain rfl := List.mem_singleton.mp hf
      exact hpath ▸ List.prefix_refl _
  | @inside f' g _ part _ hpath _ ih =>
      rcases List.mem_cons.mp hf with rfl | hf
      · exact hpath ▸ (ih List.mem_cons_self).trans (List.prefix_append ..)
      · exact ih hf

/-- The way from the base to the innermost list leads through open lists only. -/
theorem exists_mem_path_eq (h : Nested base (f :: fs)) (hp : p <+: f.path)
    (hbase : ¬ p <+: base) : ∃ g ∈ f :: fs, g.path = p := by
  induction fs generalizing f with
  | nil =>
      cases h with
      | outermost hpath => exact absurd (hpath ▸ hp) hbase
  | cons g fs ih =>
      cases h with
      | inside _ hpath h =>
          rcases List.prefix_concat_iff.mp (hpath ▸ hp) with heq | hp
          · exact ⟨f, List.mem_cons_self, hpath.trans heq.symm⟩
          · obtain ⟨g', hg', heq⟩ := ih h hp
            exact ⟨g', List.mem_cons_of_mem _ hg', heq⟩

end Nested

/-- No open list of a context is the body of a callback, unless it is the base of the context. -/
theorem Context.Housed.path_ne_callback {root : List Trace} {c : Context} (h : c.Housed root)
    {f : Frame} (hf : f ∈ c.frames) {p : Path} {i : Nat} {t : Trace} {event : String}
    (hnode : nodeAt? p i root = some t) (hhead : t.head = .callback event)
    (hbase : ¬ p ++ [⟨i, .body⟩] <+: c.base) : f.path ≠ p ++ [⟨i, .body⟩] := by
  intro hpath
  cases h.frames f hf with
  | base hpath' _ =>
      have heq : p ++ [⟨i, .body⟩] = c.base := hpath.symm.trans hpath'
      exact hbase (heq ▸ List.prefix_refl _)
  | inside hpath' hnode' hfits =>
      obtain ⟨rfl, hstep⟩ := List.append_inj' (hpath.symm.trans hpath') rfl
      simp only [List.cons.injEq, Step.mk.injEq, and_true] at hstep
      obtain ⟨rfl, rfl⟩ := hstep
      obtain rfl := Option.some.inj (hnode.symm.trans hnode')
      rw [hhead] at hfits
      exact Scope.not_fits_callback hfits

theorem Edit.extends_of_apply {op : Operation} {e : Edit} {f : Frame} {b b' : List Trace}
    (hop : op.Plain) (hedit : op.editAt f = some e) (hb : Tidy (block b))
    (hcursor : StandsIn f.cursor b) (h : e.apply f.cursor b = .ok b') : Extends b b' := by
  cases e with
  | record t rest =>
      obtain ⟨ht, rfl⟩ := Operation.statement?_of_editAt hedit
      exact (extends_of_record hb (hop.begun ht) hcursor h).1
  | close => exact (extends_of_close hb h).1

namespace Changes

variable {op : Operation} {c : Context} {root root' : List Trace}

/-- A change lies in the list at the base of the context. -/
theorem confinedTo (h : Changes op c.frames root root') (hc : c.Sound root) :
    ConfinedTo c.base root root' := by
  cases h with
  | same => exact .refl c.base root
  | @edit f fs e b b' hframes hedit hb happly =>
      obtain ⟨q, hq⟩ := hc.nested.base_isPrefix (f := f) (by simp [hframes])
      obtain ⟨d, hd⟩ := hc.base
      rw [← hq, replaceAt_append hd]
      exact confinedTo_replaceAt hd _

/-- A change leaves the bodies of callbacks alone in which the context is not based. -/
theorem blockAt?_callback (h : Changes op c.frames root root') (hop : op.Plain)
    (hroot : Tidy (block root)) (hc : c.Sound root) (hhoused : c.Housed root) {p : Path} {i : Nat}
    {t : Trace} {event : String} (hnode : nodeAt? p i root = some t)
    (hhead : t.head = .callback event) (hbase : ¬ p ++ [⟨i, .body⟩] <+: c.base) :
    blockAt? (p ++ [⟨i, .body⟩]) root' = blockAt? (p ++ [⟨i, .body⟩]) root := by
  cases h with
  | same => rfl
  | @edit f fs e b b' hframes hedit hb happly =>
      have hf : f ∈ c.frames := by simp [hframes]
      have houtside : ¬ p ++ [⟨i, .body⟩] <+: f.path := by
        intro hp
        obtain ⟨g, hg, hpath⟩ := (hframes ▸ hc.nested).exists_mem_path_eq hp hbase
        exact hhoused.path_ne_callback (hframes ▸ hg) hnode hhead hbase hpath
      obtain ⟨d, hd, hcursor⟩ := hc.stands f hf
      obtain rfl := Option.some.inj (hb.symm.trans hd)
      have hext : Extends b b' :=
        Edit.extends_of_apply hop hedit (isLocal_isTidy.every_blockAt? hroot hb) hcursor happly
      obtain ⟨arg, params, record, d, rfl⟩ := exists_of_head_eq_callback hhead
      have hd : blockAt? (p ++ [⟨i, .body⟩]) root = some d :=
        blockAt?_append_singleton_eq_some_iff.mpr ⟨_, hnode, rfl⟩
      rw [hd]
      exact blockAt?_replaceAt_of_extends hb hext houtside hd

end Changes

namespace Operation

open Recorder Recording

/-- The moments of a run: every operation with the recorder it was performed on. -/
def moments : List Operation → Recorder → List (Recorder × Operation)
  | [], _ => []
  | op :: ops, r => (r, op) :: moments ops (run op.perform r).2

variable {r : Recorder} {c : Context} {op : Operation} {ops : List Operation}

theorem context?_carryOut (p : Plan) {id : ContextId} (hid : id ≠ r.active)
    (hfresh : id < r.nextContext) : (p.carryOut r).2.context? id = r.context? id := by
  have hcontinue : ∀ root d, (r.continueWith root d).context? id = r.context? id := by
    intro root d
    rw [context?_continueWith, if_neg hid]
  unfold Plan.carryOut
  split
  · exact hcontinue r.root p.refused
  · rename_i root _
    cases p.finish with
    | give out => exact hcontinue root p.context
    | fail e => exact hcontinue root p.context
    | register base =>
        rw [← hcontinue root p.context]
        have hne : (id == r.nextContext) = false := by simp [Nat.ne_of_lt hfresh]
        simp [Plan.finished, context?, List.lookup_append, List.lookup_cons, hne]

/-- An operation other than a release leaves the contexts alone that are not active. -/
theorem context?_perform (hr : r.Sound) (hop : op.Plain) (hrelease : ∀ id, op ≠ release id)
    {id : ContextId} (hid : id ≠ r.active) (hfresh : id < r.nextContext) :
    (run op.perform r).2.context? id = r.context? id := by
  obtain ⟨c, hc⟩ := hr.active
  cases hp : op.plan? c with
  | none =>
      cases op <;> cases hp
      · rw [run_switchTo]
        split <;> rfl
      · exact absurd rfl (hrelease _)
  | some p =>
      cases hfailure : r.failure with
      | some cause => rw [run_perform_of_failure hp hfailure]
      | none =>
          rw [run_perform hr hop hfailure hc hp]
          exact context?_carryOut p hid hfresh

end Operation

namespace Recorder

open Operation Recording

/-- An operation that is performed while a context is active leaves alone what is not of this
context: the statements outside of the list at its base, the other contexts, and the bodies of
callbacks in which it is not based. -/
structure Confined (r : Recorder) (c : Context) (op : Operation) (r' : Recorder) : Prop where
  trace : ConfinedTo c.base r.root r'.root
  others : (∀ id, op ≠ .release id) → ∀ {id : ContextId}, id ≠ r.active → id < r.nextContext →
    r'.context? id = r.context? id
  bodies : ∀ {p : Path} {i : Nat} {t : Trace} {event : String}, nodeAt? p i r.root = some t →
    t.head = .callback event → ¬ p ++ [(⟨i, .body⟩ : Step)] <+: c.base →
      blockAt? (p ++ [⟨i, .body⟩]) r'.root = blockAt? (p ++ [⟨i, .body⟩]) r.root
  program : r.active = rootContext → c.base = []

variable {r : Recorder} {c : Context} {op : Operation} {ops : List Operation}

theorem confined_perform (hr : r.Sound) (hhoused : r.Housed) (hop : op.Plain)
    (hc : r.context? r.active = some c) : r.Confined c op (run op.perform r).2 := by
  have hchanges := changes_perform hr hop hc
  have hcontext := hr.contexts _ (mem_of_context? hc)
  refine ⟨hchanges.confinedTo hcontext, fun hrelease => context?_perform hr hop hrelease,
    fun hnode hhead hbase => ?_, fun hactive => ?_⟩
  · exact hchanges.blockAt?_callback hop hr.tidy hcontext (hhoused _ (mem_of_context? hc)) hnode
      hhead hbase
  · obtain ⟨d, hd, hbase⟩ := hr.root
    obtain rfl := Option.some.inj (hc.symm.trans (hactive ▸ hd))
    exact hbase

/-- The body of a callback is left alone by a run in which no context is active that is based
there or further inside. -/
theorem blockAt?_callback_performAll (hr : r.Sound) (hhoused : r.Housed)
    (hops : ∀ op ∈ ops, op.Plain) {p : Path} {i : Nat} {t : Trace} {event : String}
    (hnode : nodeAt? p i r.root = some t) (hhead : t.head = .callback event)
    (houtside : ∀ m ∈ moments ops r, ∀ c, m.1.context? m.1.active = some c →
      ¬ p ++ [(⟨i, .body⟩ : Step)] <+: c.base) :
    blockAt? (p ++ [⟨i, .body⟩]) (performAll ops r).2.root =
      blockAt? (p ++ [⟨i, .body⟩]) r.root := by
  induction ops generalizing r t with
  | nil => rfl
  | cons op ops ih =>
      obtain ⟨hop, hops'⟩ := List.forall_mem_cons.mp hops
      obtain ⟨houtside, houtside'⟩ := List.forall_mem_cons.mp houtside
      obtain ⟨c, hc⟩ := hr.active
      have hne : t ≠ hole := by
        rintro rfl
        cases hhead
      obtain ⟨t', hnode', hshell⟩ := (grows_step hr hop).1.kept hnode hne
      rw [performAll_cons, ih (keepsSound_perform hr hop).sound (housed_perform hr hhoused hop)
        hops' hnode' ((head_eq_of_shell_eq hshell).trans hhead) houtside']
      exact (confined_perform hr hhoused hop hc).bodies hnode hhead (houtside c hc)

/-- Whatever was done with a recorder, the next operation is confined to the list at the base of
the active context, and the body of a callback stays as it is however contexts take turns, until
one is active that is based in it. -/
theorem confined_of_run (hr : r.Reachable) (hops : ∀ op ∈ ops, op.Plain) :
    (∀ m ∈ moments ops r, ∀ c, m.1.context? m.1.active = some c →
      m.1.Confined c m.2 (run m.2.perform m.1).2) ∧
    ∀ {p : Path} {i : Nat} {t : Trace} {event : String}, nodeAt? p i r.root = some t →
      t.head = .callback event →
      (∀ m ∈ moments ops r, ∀ c, m.1.context? m.1.active = some c →
        ¬ p ++ [(⟨i, .body⟩ : Step)] <+: c.base) →
      blockAt? (p ++ [⟨i, .body⟩]) (performAll ops r).2.root =
        blockAt? (p ++ [⟨i, .body⟩]) r.root := by
  have hsound := hr.sound
  have hhoused := hr.housed
  refine ⟨?_, blockAt?_callback_performAll hsound hhoused hops⟩
  clear hr
  induction ops generalizing r with
  | nil => exact nofun
  | cons op ops ih =>
      obtain ⟨hop, hops'⟩ := List.forall_mem_cons.mp hops
      refine List.forall_mem_cons.mpr ⟨fun c hc => confined_perform hsound hhoused hop hc, ?_⟩
      exact ih hops' (keepsSound_perform hsound hop).sound (housed_perform hsound hhoused hop)

/-- The program registers a callback again and goes on behind it while the callback, active before,
has its own callback registered. -/
theorem confined_of_run_callback :
    let click : Operation := .callback "click" (.string "b") ["e"] (.closure [])
    let before : List Operation := [click, .switchTo 1, .restart, click, .bind "x" .undefined]
    let ops : List Operation :=
      [.switchTo 0, .restart, click, .bind "y" .undefined, .release 1, .breakTo "out" .undefined]
    let r := (performAll before .new).2
    (r.Reachable ∧ ∀ op ∈ ops, op.Plain) ∧
    (∀ m ∈ moments ops r, ∀ c, m.1.context? m.1.active = some c →
      m.1.Confined c m.2 (run m.2.perform m.1).2) ∧
    ∀ {p : Path} {i : Nat} {t : Trace} {event : String}, nodeAt? p i r.root = some t →
      t.head = .callback event →
      (∀ m ∈ moments ops r, ∀ c, m.1.context? m.1.active = some c →
        ¬ p ++ [(⟨i, .body⟩ : Step)] <+: c.base) →
      blockAt? (p ++ [⟨i, .body⟩]) (performAll ops r).2.root =
        blockAt? (p ++ [⟨i, .body⟩]) r.root := by
  intro click before ops r
  have hr : r.Reachable := ⟨before, by decide, rfl⟩
  have hops : ∀ op ∈ ops, op.Plain := by decide
  exact ⟨⟨hr, hops⟩, confined_of_run hr hops⟩

end Recorder

end TraceLoom
