import TraceLoom.Proofs.Trace.Tidy
import TraceLoom.Trace.Operation

/-!
What holds of a recorder at any time: the trace is tidy, every path leads to a statement list,
and the open lists of a context lie in one another, each in the statement before the cursor of
the next.
-/

namespace TraceLoom

open Trace

namespace Frame

/-- The frame leads to a statement list in which its cursor stands. -/
def Stands (root : List Trace) (f : Frame) : Prop :=
  ∃ b, blockAt? f.path root = some b ∧ StandsIn f.cursor b

def next (f : Frame) : Frame :=
  { f with cursor := f.cursor + 1 }

/-- A part of the next statement of the frame, at its start. -/
def inside (f : Frame) (part : Part) (scope : Scope) : Frame :=
  ⟨f.path ++ [⟨f.cursor, part⟩], 0, scope⟩

end Frame

/-- The outermost frame is at the base, and every other in a part of the statement before the
cursor of the frame around it. -/
inductive Nested (base : Path) : List Frame → Prop
  | nil : Nested base []
  | outermost {f : Frame} (h : f.path = base) : Nested base [f]
  | inside {f g : Frame} {frames : List Frame} {part : Part} (hcursor : 0 < g.cursor)
      (hpath : f.path = g.path ++ [⟨g.cursor - 1, part⟩]) (h : Nested base (g :: frames)) :
      Nested base (f :: g :: frames)

namespace Nested

variable {base : Path} {f : Frame} {frames : List Frame}

theorem tail (h : Nested base (f :: frames)) : Nested base frames := by
  cases h with
  | outermost _ => exact .nil
  | inside _ _ h => exact h

/-- Only the place of the innermost frame matters. -/
theorem replace_head {g : Frame} (h : Nested base (f :: frames)) (hpath : g.path = f.path) :
    Nested base (g :: frames) := by
  cases h with
  | outermost h => exact .outermost (hpath.trans h)
  | inside hcursor h rest => exact .inside hcursor (hpath.trans h) rest

theorem of_suffix {rest : List Frame} (h : Nested base frames) (hrest : rest <:+ frames) :
    Nested base rest := by
  induction frames with
  | nil =>
      obtain rfl := List.suffix_nil.mp hrest
      exact .nil
  | cons f frames ih =>
      rcases List.suffix_cons_iff.mp hrest with rfl | hrest
      · exact h
      · exact ih h.tail hrest

end Nested

/-- The base and the frames of a context lead to statement lists, and the frames lie in one
another. -/
structure Context.Sound (root : List Trace) (c : Context) : Prop where
  base : ∃ b, blockAt? c.base root = some b
  stands : ∀ f ∈ c.frames, f.Stands root
  nested : Nested c.base c.frames

structure Recorder.Sound (r : Recorder) : Prop where
  tidy : Tidy r.trace
  contexts : ∀ entry ∈ r.contexts, entry.2.Sound r.root
  fresh : ∀ entry ∈ r.contexts, entry.1 < r.nextContext
  distinct : (r.contexts.map (·.1)).Nodup
  root : ∃ c, r.context? Recorder.rootContext = some c ∧ c.base = []
  active : ∃ c, r.context? r.active = some c
  failure : r.failure ≠ some .danglingPath

namespace Recorder

variable {r : Recorder} {id : ContextId} {c : Context}

/-! ## Contexts -/

theorem mem_of_context? (h : r.context? id = some c) : (id, c) ∈ r.contexts := by
  obtain ⟨before, after, heq, -⟩ := List.lookup_eq_some_iff.mp h
  simp [heq]

theorem context?_replaceContext (r : Recorder) (id other : ContextId) (c : Context) :
    (r.replaceContext id c).context? other =
      if other = id then (r.context? id).map fun _ => c else r.context? other := by
  unfold context? replaceContext
  induction r.contexts with
  | nil => simp
  | cons entry entries ih =>
      obtain ⟨key, d⟩ := entry
      by_cases hkey : key = id
      · subst hkey
        by_cases hother : other = key <;> simp_all [List.lookup_cons, beq_eq_decide]
      · by_cases hother : other = key <;> simp_all [List.lookup_cons, beq_eq_decide, Ne.symm hkey]

theorem lookup_filter_ne {α : Type} (contexts : List (Nat × α)) (id other : Nat) :
    (contexts.filter fun entry => entry.1 ≠ id).lookup other =
      if other = id then none else contexts.lookup other := by
  induction contexts with
  | nil => simp
  | cons entry entries ih =>
      obtain ⟨key, d⟩ := entry
      by_cases hkey : key = id
      · subst hkey
        have hdrop : ((key, d) :: entries).filter (fun entry => entry.1 ≠ key) =
            entries.filter fun entry => entry.1 ≠ key := by simp
        rw [hdrop, ih]
        by_cases hother : other = key <;> simp [List.lookup_cons, beq_eq_decide, hother]
      · by_cases hother : other = key <;> simp_all [List.lookup_cons, beq_eq_decide]

@[simp] theorem replaceContext_replaceContext (r : Recorder) (id : ContextId) (c d : Context) :
    (r.replaceContext id c).replaceContext id d = r.replaceContext id d := by
  simp only [replaceContext, List.map_map, Function.comp_def, mk.injEq, true_and, and_true]
  refine List.map_congr_left fun entry _ => ?_
  by_cases hentry : entry.1 = id <;> simp [hentry]

theorem replaceContext_self (hr : (r.contexts.map (·.1)).Nodup) (h : r.context? id = some c) :
    r.replaceContext id c = r := by
  have hmem := mem_of_context? h
  obtain ⟨root, contexts, active, nextContext, failure⟩ := r
  simp only [replaceContext, mk.injEq, true_and, and_true]
  refine (List.map_congr_left fun entry hentry => ?_).trans (List.map_id contexts)
  by_cases hid : entry.1 = id
  · have heq : entry = (id, c) := List.inj_on_of_nodup_map hr hentry hmem hid
    simp [heq]
  · simp [hid]

/-- The recorder after the active context went on. -/
def continueWith (r : Recorder) (root : List Trace) (c : Context) : Recorder :=
  { r with root }.replaceContext r.active c

section

variable (r : Recorder) (root root' : List Trace) (c d : Context)

@[simp] theorem root_continueWith : (r.continueWith root c).root = root := rfl

@[simp] theorem active_continueWith : (r.continueWith root c).active = r.active := rfl

@[simp] theorem nextContext_continueWith :
    (r.continueWith root c).nextContext = r.nextContext := rfl

@[simp] theorem failure_continueWith : (r.continueWith root c).failure = r.failure := rfl

@[simp] theorem continueWith_continueWith :
    (r.continueWith root c).continueWith root' d = r.continueWith root' d :=
  replaceContext_replaceContext { r with root := root' } r.active c d

theorem context?_continueWith (other : ContextId) :
    (r.continueWith root c).context? other =
      if other = r.active then (r.context? r.active).map fun _ => c else r.context? other :=
  context?_replaceContext { r with root } r.active other c

theorem ids_continueWith :
    (r.continueWith root c).contexts.map (·.1) = r.contexts.map (·.1) := by
  simp only [continueWith, replaceContext, List.map_map]
  refine List.map_congr_left fun entry _ => ?_
  by_cases hentry : entry.1 = r.active <;> simp [hentry]

end

theorem context?_active_continueWith (h : r.context? r.active = some c) (root : List Trace)
    (d : Context) : (r.continueWith root d).context? r.active = some d := by
  simp [context?_continueWith, h]

theorem continueWith_self (hr : (r.contexts.map (·.1)).Nodup) (h : r.context? r.active = some c) :
    r.continueWith r.root c = r :=
  replaceContext_self hr h

/-- The active context may go on as it likes in a trace in which the others are still sound. -/
theorem Sound.continueWith {root : List Trace} {d : Context} (h : r.Sound)
    (hc : r.context? r.active = some c) (hroot : Tidy (.block root))
    (hcontexts : ∀ entry ∈ r.contexts, entry.2.Sound root) (hd : d.Sound root)
    (hbase : d.base = c.base) : (r.continueWith root d).Sound := by
  have hmem : ∀ entry ∈ (r.continueWith root d).contexts,
      entry ∈ r.contexts ∨ entry = (r.active, d) := by
    intro entry hentry
    simp only [Recorder.continueWith, replaceContext, List.mem_map] at hentry
    obtain ⟨old, hold, rfl⟩ := hentry
    split
    · exact .inr rfl
    · exact .inl hold
  refine ⟨hroot, fun entry hentry => ?_, fun entry hentry => ?_, ?_, ?_, ?_, h.failure⟩
  · rcases hmem entry hentry with hold | rfl
    · exact hcontexts entry hold
    · exact hd
  · rcases hmem entry hentry with hold | rfl
    · exact h.fresh entry hold
    · exact h.fresh (r.active, c) (mem_of_context? hc)
  · rw [ids_continueWith]
    exact h.distinct
  · obtain ⟨e, he, hebase⟩ := h.root
    by_cases hactive : rootContext = r.active
    · refine ⟨d, by simp [context?_continueWith, hactive, hc], ?_⟩
      obtain rfl : e = c := Option.some.inj (he.symm.trans (hactive ▸ hc))
      exact hbase.trans hebase
    · exact ⟨e, by simp [context?_continueWith, hactive, he], hebase⟩
  · exact ⟨d, context?_active_continueWith hc root d⟩

end Recorder

end TraceLoom
