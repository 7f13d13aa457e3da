import TraceLoom.Trace.Basic

/-!
Paths from the root of a trace to one of its statement lists.  A step goes into a part of the
statement at an index; since lists only change at their end, a path stays good.
-/

namespace TraceLoom.Trace

/-- Into a part of the statement at an index. -/
structure Step where
  index : Nat
  part : Part
  deriving DecidableEq, Repr

/-- Steps from the root inwards. -/
abbrev Path := List Step

/-- The statement list at the end of a path. -/
def blockAt? : Path → List Trace → Option (List Trace)
  | [], stmts => some stmts
  | step :: path, stmts =>
    match stmts[step.index]? with
    | none => none
    | some t =>
      match t.part? step.part with
      | none => none
      | some inner => blockAt? path inner

/-- Replaces the statement list at the end of a path; nothing changes if there is none. -/
def replaceAt : Path → List Trace → List Trace → List Trace
  | [], new, _ => new
  | step :: path, new, stmts =>
    match stmts[step.index]? with
    | none => stmts
    | some t =>
      match t.part? step.part with
      | none => stmts
      | some inner => stmts.set step.index (t.setPart step.part (replaceAt path new inner))

/-- What was put at the end of a path is found there. -/
theorem blockAt?_replaceAt {path : Path} {stmts old : List Trace}
    (h : blockAt? path stmts = some old) (new : List Trace) :
    blockAt? path (replaceAt path new stmts) = some new := by
  induction path generalizing stmts with
  | nil => rfl
  | cons step path ih =>
    unfold blockAt? at h
    split at h
    · cases h
    · rename_i t ht
      split at h
      · cases h
      · rename_i inner hpart
        obtain ⟨hlt, rfl⟩ := List.getElem?_eq_some_iff.1 ht
        have hset : replaceAt (step :: path) new stmts = stmts.set step.index
            (stmts[step.index].setPart step.part (replaceAt path new inner)) := by
          simp [replaceAt, hlt, hpart]
        rw [hset]
        simp [blockAt?, hlt, part?_setPart hpart, ih h]

end TraceLoom.Trace
