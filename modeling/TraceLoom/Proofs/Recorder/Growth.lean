import TraceLoom.Proofs.Recorder.Replay
import TraceLoom.Proofs.Trace.Growth

/-!
The trace only grows.  An operation changes at most the innermost open list of the active context,
by recording a statement in place of the hole there or by dropping the hole; so whatever is done
with a recorder, whether it goes through or fails, fills holes and leaves everything else alone.
-/

namespace TraceLoom

open Trace

/-! ## The change of one operation -/

/-- The change that an operation makes to the innermost open list, unless it is refused. -/
def Operation.editAt (f : Frame) : Operation → Option Edit
  | iterate => if f.scope = .loop true then some .close else none
  | exit => if f.scope = .loop false then none else some .close
  | op => op.statement?.map fun t => .record t t.followers

/-- What becomes of the trace: it stays, or the innermost open list is changed. -/
inductive Changes (op : Operation) (frames : List Frame) (root : List Trace) : List Trace → Prop
  | same : Changes op frames root root
  | edit {f : Frame} {fs : List Frame} {e : Edit} {b b' : List Trace} (hframes : frames = f :: fs)
      (hedit : op.editAt f = some e) (hb : blockAt? f.path root = some b)
      (happly : e.apply f.cursor b = .ok b') : Changes op frames root (replaceAt f.path b' root)

namespace Operation

open Recorder Recording

variable {r : Recorder} {c : Context} {op : Operation} {p : Plan}

theorem edit_statement {t : Trace} {pending : List (List Trace)}
    {frames : Frame → List Frame → List Frame} {finish : Frame → List Frame → Finish}
    (ht : op.statement? = some t) (hscope : ∀ f, op.editAt f = op.statement?.map fun t =>
      .record t t.followers) :
    (c.frames = [] ∧ (Plan.statement c t pending frames finish).edit = none) ∨
      ∃ f fs, c.frames = f :: fs ∧
        (Plan.statement c t pending frames finish).edit = (op.editAt f).map (f, ·) := by
  unfold Plan.statement
  cases c.frames with
  | nil => exact .inl ⟨rfl, rfl⟩
  | cons f fs => exact .inr ⟨f, fs, rfl, by rw [hscope, ht]; rfl⟩

/-- What a plan changes is known from the operation and the innermost open list. -/
theorem edit_of_plan? (hp : op.plan? c = some p) :
    (∃ e, p = .refuse c e) ∨ (c.frames = [] ∧ p.edit = none) ∨
      ∃ f fs, c.frames = f :: fs ∧ p.edit = (op.editAt f).map (f, ·) := by
  have hpass : ∀ d out, (∀ f, op.editAt f = none) →
      (c.frames = [] ∧ (Plan.pass c d out).edit = none) ∨
        ∃ f fs, c.frames = f :: fs ∧ (Plan.pass c d out).edit = (op.editAt f).map (f, ·) := by
    intro d out hedit
    cases c.frames with
    | nil => exact .inl ⟨rfl, rfl⟩
    | cons f fs => exact .inr ⟨f, fs, rfl, by rw [hedit f]; rfl⟩
  cases op <;> cases hp
  case restart | pushArgs => exact .inr (hpass _ _ fun _ => rfl)
  case bind | assign | primitive | branch | loop | label | call | callback | breakTo =>
    exact .inr (edit_statement rfl fun _ => rfl)
  case iterate =>
    unfold Plan.iterate
    cases hframes : c.frames with
    | nil => exact .inl ⟨_, rfl⟩
    | cons f fs =>
        dsimp only
        cases hscope : f.scope with
        | loop iterating =>
            refine .inr (.inr ⟨f, fs, rfl, ?_⟩)
            cases iterating <;> simp [editAt, hscope]
        | _ => exact .inl ⟨_, rfl⟩
  case enterBody n arity =>
    unfold Plan.enterBody
    split
    · exact .inl ⟨_, rfl⟩
    · split
      · exact .inl ⟨_, rfl⟩
      · rename_i rest _
        exact .inr (edit_statement (c := { c with pending := rest }) rfl fun _ => rfl)
  case popArgs =>
    unfold Plan.popArgs
    split
    · exact .inl ⟨_, rfl⟩
    · exact .inr (hpass _ _ fun _ => rfl)
  case exit =>
    unfold Plan.exit
    cases hframes : c.frames with
    | nil => exact .inl ⟨_, rfl⟩
    | cons f fs =>
        refine .inr (.inr ⟨f, fs, rfl, ?_⟩)
        by_cases hscope : f.scope = .loop false <;> simp [editAt, hscope]

/-- A change that can be made is made to the innermost open list. -/
theorem changes_edited (hp : op.plan? c = some p) {root root' : List Trace}
    (h : p.edited root = .ok root') : Changes op c.frames root root' := by
  have hnone : p.edit = none → Changes op c.frames root root' := by
    intro hedit
    simp only [Plan.edited, hedit, Except.ok.injEq] at h
    exact h ▸ .same
  rcases edit_of_plan? hp with ⟨e, rfl⟩ | ⟨-, hedit⟩ | ⟨f, fs, hframes, hedit⟩
  · exact hnone rfl
  · exact hnone hedit
  · cases hchange : op.editAt f with
    | none => exact hnone (by rw [hedit, hchange]; rfl)
    | some e =>
        rw [hchange, Option.map_some] at hedit
        cases hb : blockAt? f.path root with
        | none => simp [Plan.edited, hedit, hb] at h
        | some b => cases happly : e.apply f.cursor b with
            | error error => simp [Plan.edited, hedit, hb, happly, Except.map] at h
            | ok b' =>
                obtain rfl : replaceAt f.path b' root = root' := by
                  simpa [Plan.edited, hedit, hb, happly, Except.map] using h
                exact .edit hframes hchange hb happly

/-- The trace after any operation: the change was made, or it stays. -/
theorem changes_perform (hr : r.Sound) (hop : op.Plain) (hc : r.context? r.active = some c) :
    Changes op c.frames r.root (run op.perform r).2.root := by
  cases hp : op.plan? c with
  | none =>
      cases op <;> cases hp
      · rw [run_switchTo]
        split <;> exact .same
      · rw [root_release]
        exact .same
  | some p =>
      cases hfailure : r.failure with
      | some cause =>
          rw [run_perform_of_failure hp hfailure]
          exact .same
      | none =>
          rw [run_perform hr hop hfailure hc hp, Plan.carryOut]
          cases hedited : p.edited r.root with
          | error e => exact .same
          | ok root =>
              rw [Plan.root_finished]
              exact changes_edited hp hedited

theorem statement?_of_editAt {f : Frame} {t : Trace} {rest : List Trace}
    (h : op.editAt f = some (.record t rest)) : op.statement? = some t ∧ rest = t.followers := by
  unfold editAt at h
  split at h
  · split at h <;> cases h
  · split at h <;> cases h
  · obtain ⟨u, hu, heq⟩ := Option.map_eq_some_iff.mp h
    cases heq
    exact ⟨hu, rfl⟩

end Operation

/-! ## Growth -/

namespace Edit

variable {b b' : List Trace} {k : Nat} {e : Edit}

theorem grown_of_apply (hb : Tidy (block b)) (h : e.apply k b = .ok b') : Grown b b' := by
  cases e with
  | record t rest =>
      rcases cases_of_record hb h with ⟨c, rfl, -, rfl⟩ | ⟨-, -, -, -, rfl⟩
      · exact .append c (t :: rest)
      · exact .refl b'
  | close =>
      rcases cases_of_close hb h with ⟨-, rfl⟩ | ⟨c, rfl, -, rfl⟩
      · exact .refl b'
      · simpa using Grown.append b' []

end Edit

namespace Changes

variable {op : Operation} {frames : List Frame} {root root' : List Trace}

theorem grown (h : Changes op frames root root') (hroot : Tidy (block root)) :
    Grown root root' := by
  cases h with
  | same => exact .refl root
  | edit _ _ hb happly =>
      exact (Edit.grown_of_apply (isLocal_isTidy.every_blockAt? hroot hb) happly).replaceAt hb

/-- Merging the new trace into the old one gives the new one. -/
theorem joinBody_eq (h : Changes op frames root root') (hop : op.Plain)
    (hroot : Tidy (block root)) (hstands : ∀ f ∈ frames, f.Stands root) :
    joinBody root root' = some root' := by
  have hrefl : Covers root root := .refl hroot.wellFormed
  cases h with
  | same => exact hrefl
  | @edit f fs e b b' hframes hedit hb happly =>
      have htidy : Tidy (block b) := isLocal_isTidy.every_blockAt? hroot hb
      have hcovers : Covers b b := .refl htidy.wellFormed
      obtain ⟨d, hd, -, hreplace⟩ := hrefl.joinBody_replaceAt hroot hroot hb
      obtain rfl : b = d := Option.some.inj (hb.symm.trans hd)
      have hlist : (e.apply f.cursor b).toOption = joinBody b b' := by
        cases e with
        | record t rest =>
            obtain ⟨ht, rfl⟩ := Operation.statement?_of_editAt hedit
            exact Edit.toOption_record htidy htidy hcovers (hop.begun ht) happly
        | close =>
            obtain ⟨d, hd, hcursor⟩ := hstands f (by simp [hframes])
            obtain rfl : b = d := Option.some.inj (hb.symm.trans hd)
            exact Edit.toOption_close htidy htidy hcovers hcursor happly
      rw [hreplace, ← hlist, happly]
      rfl

end Changes

/-- The second trace arises from the first by filling holes: merging it into the first gives it,
all recorded statements stay, and a list that has ended keeps its length. -/
structure Recorder.GrowsTo (r r' : Recorder) : Prop where
  merge : r.trace.merge r'.trace = .ok r'.trace
  grown : Grown r.root r'.root

namespace Operation

open Recorder Recording

variable {r : Recorder} {op : Operation}

theorem grows_step (hr : r.Sound) (hop : op.Plain) :
    Grown r.root (run op.perform r).2.root ∧
      joinBody r.root (run op.perform r).2.root = some (run op.perform r).2.root := by
  obtain ⟨c, hc⟩ := hr.active
  have hchanges := changes_perform hr hop hc
  exact ⟨hchanges.grown hr.tidy,
    hchanges.joinBody_eq hop hr.tidy (hr.contexts _ (mem_of_context? hc)).stands⟩

theorem grows_run (hr : r.Sound) {ops : List Operation} (hops : ∀ op ∈ ops, op.Plain) :
    Grown r.root (performAll ops r).2.root ∧
      joinBody r.root (performAll ops r).2.root = some (performAll ops r).2.root := by
  induction ops generalizing r with
  | nil => exact ⟨.refl r.root, Covers.refl hr.tidy.wellFormed⟩
  | cons op ops ih =>
      obtain ⟨hop, hops'⟩ := List.forall_mem_cons.mp hops
      have hsound := (keepsSound_perform hr hop).sound
      obtain ⟨hgrown, hjoin⟩ := grows_step hr hop
      obtain ⟨hgrown', hjoin'⟩ := ih hsound hops'
      refine ⟨hgrown.trans hgrown', ?_⟩
      have htrans := joinBody_trans hr.tidy.wellFormed hsound.tidy.wellFormed
        (sound_performAll hsound hops').tidy.wellFormed hjoin'
      rw [performAll_cons]
      dsimp only
      rw [htrans, hjoin, Option.bind_some, hjoin']

end Operation

namespace Recorder

open Operation

/-- Whatever is done with a recorder, also where it fails and where it makes the recorder
unusable, only fills holes of its trace. -/
theorem growsTo_of_run {r : Recorder} (hr : r.Reachable) {ops : List Operation}
    (hops : ∀ op ∈ ops, op.Plain) : r.GrowsTo (performAll ops r).2 := by
  obtain ⟨hgrown, hjoin⟩ := grows_run hr.sound hops
  refine ⟨merge_eq_ok_iff.mpr ?_, hgrown⟩
  rw [trace, trace, join_block, hjoin, Option.map_some]

/-- A callback goes on in its own context; then the program takes the other branch of a choice and
fails at a statement that does not fit. -/
theorem growsTo_of_run_callback :
    let before : List Operation :=
      [.callback "click" (.string "b") ["e"] (.closure []), .branch true (.name "c"),
        .bind "x" (.number 1), .exit, .exit]
    let ops : List Operation :=
      [.switchTo 1, .restart, .bind "y" .undefined, .switchTo 0, .restart,
        .callback "click" (.string "b") ["e"] (.closure []), .branch false (.name "c"), .exit,
        .bind "z" .undefined, .popArgs]
    let r := (performAll before .new).2
    (r.Reachable ∧ ∀ op ∈ ops, op.Plain) ∧ r.GrowsTo (performAll ops r).2 := by
  intro before ops r
  have hr : r.Reachable := ⟨before, by decide, rfl⟩
  have hops : ∀ op ∈ ops, op.Plain := by decide
  exact ⟨⟨hr, hops⟩, growsTo_of_run hr hops⟩

end Recorder

end TraceLoom
