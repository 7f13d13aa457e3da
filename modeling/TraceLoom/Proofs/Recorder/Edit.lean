import TraceLoom.Proofs.Recorder.Sound

/-!
What the parts of operations do on a sound recorder.  A statement list changes in two ways only:
a statement is recorded at the cursor, or the list ends there.
-/

namespace TraceLoom

open Trace

/-! ## Changes of a list -/

/-- A change of the innermost open list. -/
inductive Edit where
  /-- Records a statement, which `rest` follows where it fills a hole. -/
  | record (t : Trace) (rest : List Trace)
  /-- Ends the list. -/
  | close

/-- The list after a change at a cursor.  What has been recorded in it stays as it is. -/
def Edit.apply (cursor : Nat) (b : List Trace) : Edit → Except TraceError (List Trace)
  | .record t rest =>
      match b[cursor]? with
      | none => .error (.overrun b.length)
      | some old =>
          if old.isHole then .ok (b.take cursor ++ t :: rest)
          else match (mergeIn old t).mismatch with
            | some m => .error (.mismatch m)
            | none => .ok b
  | .close =>
      if cursor = b.length then .ok b
      else match b[cursor]? with
        | some .hole => .ok (b.take cursor)
        | next => .error (.prematureExit cursor b.length ((next.map Trace.kind).getD ""))

namespace Recording

variable {α β : Type}

@[simp] theorem run_pure (a : α) (r : Recorder) : run (pure a) r = (.ok a, r) := rfl

@[simp] theorem run_throw (e : TraceError) (r : Recorder) :
    run (throw e : Recording α) r = (.error e, r) := rfl

@[simp] theorem run_get (r : Recorder) : run get r = (.ok r, r) := rfl

@[simp] theorem run_set (s r : Recorder) : run (set s) r = (.ok ⟨⟩, s) := rfl

@[simp] theorem run_modify (f : Recorder → Recorder) (r : Recorder) :
    run (modify f) r = (.ok ⟨⟩, f r) := rfl

theorem run_bind (m : Recording α) (f : α → Recording β) (r : Recorder) :
    run (m >>= f) r =
      match run m r with
      | (.ok a, r') => run (f a) r'
      | (.error e, r') => (.error e, r') := by
  simp only [run, ExceptT.run_bind, StateT.run_bind]
  change (match StateT.run (ExceptT.run m) r with | (x, r') => _) = _
  rcases StateT.run (ExceptT.run m) r with ⟨x, r'⟩
  cases x <;> rfl

theorem run_tryCatch (m : Recording α) (handle : TraceError → Recording α) (r : Recorder) :
    run (tryCatch m handle) r =
      match run m r with
      | (.ok a, r') => (.ok a, r')
      | (.error e, r') => run (handle e) r' := by
  rcases h : run m r with ⟨x, r'⟩
  change StateT.run (ExceptT.run (ExceptT.tryCatch m handle)) r = _
  simp only [ExceptT.tryCatch, ExceptT.run_mk, StateT.run_bind]
  rw [show StateT.run m r = (x, r') from h]
  cases x <;> rfl

theorem run_guarded (m : Recording α) (r : Recorder) :
    run (guarded m) r =
      match r.failure with
      | some cause => (.error (.poisoned cause), r)
      | none =>
          match run m r with
          | (.ok a, r') => (.ok a, r')
          | (.error e, r') => (.error e, { r' with failure := some e }) := by
  rw [guarded, run_bind, run_get]
  dsimp only
  cases r.failure with
  | some cause => rfl
  | none =>
      dsimp only
      rw [run_tryCatch]
      rcases run m r with ⟨x, r'⟩
      cases x <;> rfl

variable {r : Recorder} {c : Context} {f : Frame} {fs : List Frame} {b : List Trace}

theorem run_context (hc : r.context? r.active = some c) : run context r = (.ok c, r) := by
  rw [context, run_bind, run_get]
  simp [hc]

theorem run_setContext (d : Context) (r : Recorder) :
    run (setContext d) r = (.ok ⟨⟩, r.continueWith r.root d) := rfl

theorem run_topFrame (hc : r.context? r.active = some c) (hf : c.frames = f :: fs) :
    run topFrame r = (.ok f, r) := by
  rw [topFrame, run_bind, run_context hc]
  simp [hf]

theorem run_topFrame_nil (hc : r.context? r.active = some c) (hf : c.frames = []) :
    run topFrame r = (.error .noOpenBlock, r) := by
  rw [topFrame, run_bind, run_context hc]
  simp [hf]

theorem run_blockAt {path : Path} (hb : blockAt? path r.root = some b) :
    run (blockAt path) r = (.ok b, r) := by
  rw [blockAt, run_bind, run_get]
  simp [hb]

theorem run_setBlock (path : Path) (b : List Trace) (r : Recorder) :
    run (setBlock path b) r = (.ok ⟨⟩, { r with root := replaceAt path b r.root }) := rfl

theorem run_setBlock_continueWith (path : Path) (b root : List Trace) (d : Context)
    (r : Recorder) : run (setBlock path b) (r.continueWith root d) =
      (.ok ⟨⟩, r.continueWith (replaceAt path b root) d) := rfl

theorem run_push (hc : r.context? r.active = some c) (f : Frame) :
    run (push f) r =
      (.ok ⟨⟩, r.continueWith r.root { c with frames := f :: c.frames }) := by
  rw [push, run_bind, run_context hc]
  rfl

theorem run_setTop (hc : r.context? r.active = some c) (f : Frame) :
    run (setTop f) r =
      (.ok ⟨⟩, r.continueWith r.root { c with frames := f :: c.frames.tail }) := by
  rw [setTop, run_bind, run_context hc]
  rfl

theorem run_popPending (hc : r.context? r.active = some c) :
    run popPending r =
      match c.pending with
      | args :: rest => (.ok args, r.continueWith r.root { c with pending := rest })
      | [] => (.error .noPendingArgs, r) := by
  rw [popPending, run_bind, run_context hc]
  dsimp only
  cases c.pending <;> rfl

theorem eq_take_append_of_hole {k : Nat} (hb : Tidy (block b)) (hhole : b[k]? = some hole) :
    b = b.take k ++ [hole] := by
  have hlength : b.length = k + 1 := length_of_isEnding (tidy_block_iff.mp hb).1 hhole rfl
  obtain ⟨hlt, hget⟩ := List.getElem?_eq_some_iff.mp hhole
  conv_lhs => rw [← List.take_append_drop k b]
  rw [List.drop_eq_getElem_cons hlt, hget, List.drop_eq_nil_of_le (by omega)]

theorem run_step {t : Trace} (hc : r.context? r.active = some c) (hf : c.frames = f :: fs)
    (hb : blockAt? f.path r.root = some b) (htidy : Tidy (block b))
    (ht : every hasOpenBodies t = true) :
    run (step t) r =
      match (Edit.record t [.hole]).apply f.cursor b with
      | .error e => (.error e, r)
      | .ok b' => (.ok (f.path, f.cursor),
          r.continueWith (replaceAt f.path b' r.root) { c with frames := f.next :: fs }) := by
  have hnext (root : List Trace) : run (do setTop f.next; return (f.path, f.cursor))
      { r with root } = (.ok (f.path, f.cursor),
        r.continueWith root { c with frames := f.next :: fs }) := by
    rw [run_bind, run_setTop (r := { r with root }) hc, hf]
    rfl
  rw [step, run_bind, run_topFrame hc hf]
  dsimp only
  rw [run_bind, run_blockAt hb]
  dsimp only [Edit.apply]
  cases hold : b[f.cursor]? with
  | none => rfl
  | some old =>
      by_cases hhole : old = hole
      · subst hhole
        obtain ⟨hlt, -⟩ := List.getElem?_eq_some_iff.mp hold
        have hfilled : b.set f.cursor t ++ [hole] = b.take f.cursor ++ t :: [hole] := by
          conv_lhs => rw [eq_take_append_of_hole htidy hold]
          rw [List.set_append_right _ _ (List.length_take_le ..)]
          simp [Nat.min_eq_left (Nat.le_of_lt hlt)]
        simp only [isHole, if_true]
        rw [run_bind, run_setBlock, hfilled]
        exact hnext _
      · simp only [isHole_eq_true_iff, hhole, if_false]
        have hold' : Tidy old := (tidy_block_iff.mp htidy).2 old (List.mem_of_getElem? hold)
        obtain ⟨hlt, hget⟩ := List.getElem?_eq_some_iff.mp hold
        rw [run_bind, run_setBlock, result_mergeIn hold' hhole ht, ← hget, List.set_getElem_self,
          replaceAt_self hb]
        dsimp only
        cases (mergeIn b[f.cursor] t).mismatch with
        | some m => rfl
        | none =>
            dsimp only
            rw [replaceAt_self hb]
            exact hnext _

theorem run_step_nil (hc : r.context? r.active = some c) (hf : c.frames = []) (t : Trace) :
    run (step t) r = (.error .noOpenBlock, r) := by
  rw [step, run_bind, run_topFrame_nil hc hf]

theorem run_enter {t : Trace} {part : Part} {scope : Scope} (hc : r.context? r.active = some c)
    (hf : c.frames = f :: fs) (hb : blockAt? f.path r.root = some b) (htidy : Tidy (block b))
    (ht : every hasOpenBodies t = true) :
    run (enter t part scope) r =
      match (Edit.record t [.hole]).apply f.cursor b with
      | .error e => (.error e, r)
      | .ok b' => (.ok ⟨⟩, r.continueWith (replaceAt f.path b' r.root)
          { c with frames := f.inside part scope :: f.next :: fs }) := by
  rw [enter, run_bind, run_step hc hf hb htidy ht]
  cases (Edit.record t [.hole]).apply f.cursor b with
  | error e => rfl
  | ok b' =>
      dsimp only
      rw [run_push (Recorder.context?_active_continueWith hc _ _)]
      simp only [Recorder.continueWith_continueWith, Recorder.root_continueWith]
      rfl

theorem run_close (hb : blockAt? f.path r.root = some b) (htidy : Tidy (block b)) :
    run (close f) r =
      match Edit.close.apply f.cursor b with
      | .error e => (.error e, r)
      | .ok b' => (.ok ⟨⟩, { r with root := replaceAt f.path b' r.root }) := by
  rw [close, run_bind, run_blockAt hb]
  dsimp only [Edit.apply]
  by_cases hend : f.cursor = b.length
  · rw [if_pos hend, if_pos hend, run_pure]
    dsimp only
    rw [replaceAt_self hb]
  · rw [if_neg hend, if_neg hend]
    cases hold : b[f.cursor]? with
    | none => rfl
    | some old =>
        by_cases hhole : old = hole
        · subst hhole
          have hlength := length_of_isEnding (tidy_block_iff.mp htidy).1 hold rfl
          simp [hlength, run_setBlock]
        · cases old <;> first | exact absurd rfl hhole | rfl

end Recording

end TraceLoom
