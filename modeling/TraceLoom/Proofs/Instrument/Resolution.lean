import TraceLoom.Proofs.Instrument.Names

/-!
Scopes and branches as sequences of uses.  After a scope is left, the names are those that come
out when what the scope uses and does not bind is resolved outside of it; after two branches they
are those of one branch followed by the other.  Not only the bindings are the same but the order
of the names, which becomes the order of fields in closure records, and the places of first use.
-/

namespace TraceLoom.Names

open Script (Position)

variable {ν inner joined : Names} {n : String} {pos : Position}
  {bound used more : List (String × Position)}

/-- Binds names one after another. -/
def bindAll (ν : Names) (bound : List (String × Position)) : Names :=
  bound.foldl (fun ν entry => ν.bind entry.1 entry.2) ν

/-- Resolves names one after another. -/
def resolveAll (ν : Names) (used : List (String × Position)) : Names :=
  used.foldl (fun ν entry => (ν.resolve entry.1 entry.2).2) ν

/-- What a scope uses of the names around it if it binds others. -/
def outside (bound used : List (String × Position)) : List (String × Position) :=
  used.filter fun entry => entry.1 ∉ bound.map (·.1)

/-- The names after a scope that binds some names and then uses others. -/
def afterScope (ν : Names) (bound used : List (String × Position)) : Names :=
  ((ν.bindAll bound).resolveAll used).leave ν

/-! ## Sequences of uses -/

@[simp] theorem resolveAll_nil (ν : Names) : ν.resolveAll [] = ν := rfl

@[simp] theorem resolveAll_singleton (ν : Names) (n : String) (pos : Position) :
    ν.resolveAll [(n, pos)] = (ν.resolve n pos).2 := rfl

theorem resolveAll_append (ν : Names) (used more : List (String × Position)) :
    ν.resolveAll (used ++ more) = (ν.resolveAll used).resolveAll more :=
  List.foldl_append

theorem bindAll_append (ν : Names) (bound more : List (String × Position)) :
    ν.bindAll (bound ++ more) = (ν.bindAll bound).bindAll more :=
  List.foldl_append

theorem binds_bindAll (ν : Names) (bound : List (String × Position)) :
    ν.Binds (bound.map (·.1)) (ν.bindAll bound) := by
  induction bound generalizing ν with
  | nil => exact .refl ν
  | cons entry bound ih => exact (binds_bind ν entry.1 entry.2).trans (ih _)

theorem uses_resolveAll (ν : Names) (used : List (String × Position)) :
    ν.Uses (used.map (·.1)) (ν.resolveAll used) := by
  induction used generalizing ν with
  | nil => exact .refl ν
  | cons entry used ih => exact (uses_resolve ν entry.1 entry.2).trans (ih _)

theorem resolve_of_lookup {b : Binding} (h : ν.lookup n = some b) : (ν.resolve n pos).2 = ν := by
  simp [resolve, h]

theorem resolve_of_unknown (h : ν.lookup n = Option.none) :
    (ν.resolve n pos).2 = ν ++ [(n, ⟨.captured, pos⟩)] := by
  simp [resolve, h]

/-! ## Leaving a scope -/

theorem addCaptures_append (ν inner more : Names) :
    ν.addCaptures (inner ++ more) = (ν.addCaptures inner).addCaptures more := by
  induction inner generalizing ν with
  | nil => rfl
  | cons entry inner ih =>
      simp only [List.cons_append, addCaptures, ih]
      split <;> rfl

theorem addCaptures_eq_self (h : ∀ entry ∈ inner,
    entry.2.binding = .captured → ν.lookup entry.1 ≠ Option.none) : ν.addCaptures inner = ν := by
  induction inner with
  | nil => rfl
  | cons entry inner ih =>
      obtain ⟨hentry, hinner⟩ := List.forall_mem_cons.mp h
      rw [addCaptures, if_neg fun hadd => hentry hadd.1 hadd.2, ih hinner]

/-- Binding makes no captures. -/
theorem mem_of_mem_bind {entry : String × Sighting} (h : entry ∈ ν.bind n pos)
    (hcaptured : entry.2.binding = .captured) : entry ∈ ν := by
  unfold bind at h
  split at h
  · exact h
  · have hown : Binding.own ≠ .captured := by decide
    exact Fields.forall_insert_named (p := fun name sighting =>
      sighting.binding = .captured → (name, sighting) ∈ ν) (fun howned => absurd howned hown)
      (fun _ hmem _ => hmem) entry h hcaptured

theorem mem_of_mem_bindAll {entry : String × Sighting} (h : entry ∈ ν.bindAll bound)
    (hcaptured : entry.2.binding = .captured) : entry ∈ ν := by
  induction bound generalizing ν with
  | nil => exact h
  | cons first bound ih => exact mem_of_mem_bind (ih h) hcaptured

/-- Leaving a scope that only bound names forgets them all. -/
theorem leave_bindAll (ν : Names) (bound : List (String × Position)) :
    (ν.bindAll bound).leave ν = ν := by
  refine addCaptures_eq_self fun entry hentry hcaptured hnone => ?_
  exact lookup_eq_none_iff.mp hnone (Fields.mem_keys_of_mem (mem_of_mem_bindAll hentry hcaptured))

/-- What is used in a scope for the first time is used outside of it. -/
theorem leave_resolve (h : inner.lookup n = Option.none) :
    (inner.resolve n pos).2.leave ν = ((inner.leave ν).resolve n pos).2 := by
  rw [resolve_of_unknown h, leave, leave, addCaptures_append]
  cases hν : (ν.addCaptures inner).lookup n with
  | some b => simp [addCaptures, hν, resolve_of_lookup hν]
  | none => simp [addCaptures, hν, resolve_of_unknown hν]

theorem outside_append_singleton (bound used : List (String × Position)) (n : String)
    (pos : Position) :
    outside bound (used ++ [(n, pos)]) =
      outside bound used ++ if n ∈ bound.map (·.1) then [] else [(n, pos)] := by
  by_cases hn : n ∈ bound.map (·.1)
  · rw [if_pos hn, outside, List.filter_append, List.filter_cons_of_neg (by simpa using hn)]
    rfl
  · rw [if_neg hn, outside, List.filter_append, List.filter_cons_of_pos (by simpa using hn)]
    rfl

theorem mem_outside_iff (hn : n ∉ bound.map (·.1)) :
    n ∈ (outside bound used).map (·.1) ↔ n ∈ used.map (·.1) := by
  simp only [outside, List.mem_map, List.mem_filter]
  constructor
  · rintro ⟨entry, ⟨hentry, -⟩, rfl⟩
    exact ⟨entry, hentry, rfl⟩
  · rintro ⟨entry, hentry, rfl⟩
    exact ⟨entry, ⟨hentry, by simpa using hn⟩, rfl⟩

/-- A name that a scope does not bind is seen alike inside and outside of it. -/
theorem lookup_inside (ν : Names) (used : List (String × Position)) (hn : n ∉ bound.map (·.1)) :
    ((ν.bindAll bound).resolveAll used).lookup n = (ν.resolveAll (outside bound used)).lookup n := by
  have hinside := uses_resolveAll (ν.bindAll bound) used
  have houtside := uses_resolveAll ν (outside bound used)
  have hlookup := (binds_bindAll ν bound).lookup n
  rw [if_neg hn] at hlookup
  cases hν : ν.lookup n with
  | some b => rw [hinside.keeps (hlookup.trans hν), houtside.keeps hν]
  | none =>
      rw [hinside.adds (hlookup.trans hν), houtside.adds hν, if_congr (mem_outside_iff hn) rfl rfl]

/-- A scope does to the names around it what its uses of them do. -/
theorem afterScope_eq (ν : Names) (bound used : List (String × Position)) :
    ν.afterScope bound used = ν.resolveAll (outside bound used) := by
  induction used using List.reverseRecOn with
  | nil => exact leave_bindAll ν bound
  | append_singleton used entry ih =>
      obtain ⟨n, pos⟩ := entry
      rw [afterScope] at ih ⊢
      rw [resolveAll_append, resolveAll_singleton, outside_append_singleton]
      by_cases hn : n ∈ bound.map (·.1)
      · have hown := (binds_bindAll ν bound).lookup n
        rw [if_pos hn] at hown
        rw [resolve_of_lookup ((uses_resolveAll _ used).keeps hown), ih, if_pos hn,
          List.append_nil]
      · rw [if_neg hn, resolveAll_append, resolveAll_singleton]
        have hlookup := lookup_inside ν used hn
        cases hinner : ((ν.bindAll bound).resolveAll used).lookup n with
        | none => rw [leave_resolve hinner, ih]
        | some b => rw [resolve_of_lookup hinner, resolve_of_lookup (hlookup.symm.trans hinner), ih]

/-! ## Joining branches -/

theorem join_append_of_ok {other more : Names} (h : ν.join other = .ok joined) :
    ν.join (other ++ more) = joined.join more := by
  induction other generalizing ν with
  | nil =>
      obtain rfl : ν = joined := by simpa [join] using h
      rfl
  | cons entry other ih =>
      simp only [join] at h
      simp only [List.cons_append, join]
      cases hentry : ν.lookup entry.1 with
      | none =>
          simp only [hentry] at h
          exact ih h
      | some b =>
          simp only [hentry] at h
          split at h
          · rename_i hb
            simp only [if_pos hb]
            exact ih h
          · cases h

theorem join_eq_self {other : Names}
    (h : ∀ entry ∈ other, ν.lookup entry.1 = some entry.2.binding) : ν.join other = .ok ν := by
  induction other with
  | nil => rfl
  | cons entry other ih =>
      obtain ⟨hentry, hother⟩ := List.forall_mem_cons.mp h
      rw [join, hentry]
      exact (if_pos rfl).trans (ih hother)

/-- A use at the end of the second branch is one after both, unless the first branch bound the
name. -/
theorem join_resolve {other : Names} (h : ν.join other = .ok joined)
    (hagree : ∀ b, ν.lookup n = some b → other.lookup n = Option.none → b = .captured) :
    ν.join (other.resolve n pos).2 = .ok (joined.resolve n pos).2 := by
  have hlookup := lookup_of_join h n
  cases hother : other.lookup n with
  | some b =>
      rw [resolve_of_lookup hother, h]
      rw [hother] at hlookup
      obtain ⟨b', hjoined⟩ : ∃ b', joined.lookup n = some b' := by
        rw [hlookup]
        cases ν.lookup n with
        | some b' => exact ⟨b', rfl⟩
        | none => exact ⟨b, rfl⟩
      rw [resolve_of_lookup hjoined]
  | none =>
      rw [hother, Option.or_none] at hlookup
      rw [resolve_of_unknown hother, join_append_of_ok h, join]
      cases hν : ν.lookup n with
      | none =>
          rw [hν] at hlookup
          simp [hlookup, resolve_of_unknown hlookup, join]
      | some b =>
          obtain rfl := hagree b hν hother
          rw [hν] at hlookup
          simp [hlookup, resolve_of_lookup hlookup, join]

/-- Two branches that only use names come to what the one does after the other. -/
theorem join_resolveAll (hν : (Fields.keys ν).Nodup) (used more : List (String × Position)) :
    (ν.resolveAll used).join (ν.resolveAll more) = .ok ((ν.resolveAll used).resolveAll more) := by
  have husesYes := uses_resolveAll ν used
  induction more using List.reverseRecOn with
  | nil =>
      refine join_eq_self fun entry hentry => ?_
      exact husesYes.keeps ((lookup_eq_some_iff hν).mpr ⟨entry.2.pos, hentry⟩)
  | append_singleton more entry ih =>
      rw [resolveAll_append, resolveAll_append]
      refine join_resolve ih fun b hyes hno => ?_
      have hunknown : ν.lookup entry.1 = Option.none := by
        by_contra hknown
        obtain ⟨b, hb⟩ := Option.ne_none_iff_exists'.mp hknown
        rw [(uses_resolveAll ν more).keeps hb] at hno
        cases hno
      rw [husesYes.adds hunknown] at hyes
      split at hyes
      · exact (Option.some.inj hyes).symm
      · cases hyes

/-- Leaving a scope is the same as resolving, in the names around it and in order, what the scope
uses and does not bind.  Joining what two scopes leave never fails, and comes to the uses of the
first followed by those of the second. -/
theorem afterScope_and_join_eq_resolveAll (hν : (Fields.keys ν).Nodup)
    (bound used bound' used' : List (String × Position)) :
    ν.afterScope bound used = ν.resolveAll (outside bound used) ∧
      (ν.afterScope bound used).join (ν.afterScope bound' used') =
        .ok ((ν.resolveAll (outside bound used)).resolveAll (outside bound' used')) := by
  rw [afterScope_eq, afterScope_eq]
  exact ⟨rfl, join_resolveAll hν _ _⟩

/-- `{ let a; let b; b; c; a; }` and `{ d; c; let e; e; }` where `a` is captured and `d` is bound
already: the first scope leaves only `c`, and the second adds nothing to it. -/
theorem afterScope_and_join_shadowed :
    let ν : Names := [("a", ⟨.captured, ⟨1, 1⟩⟩), ("d", ⟨.own, ⟨2, 1⟩⟩)]
    let joined : Names := ν ++ [("c", ⟨.captured, ⟨3, 3⟩⟩)]
    (Fields.keys ν).Nodup ∧
      ν.afterScope [("a", ⟨3, 1⟩), ("b", ⟨3, 1⟩)] [("b", ⟨3, 2⟩), ("c", ⟨3, 3⟩), ("a", ⟨3, 4⟩)] =
        joined ∧
      (ν.afterScope [("a", ⟨3, 1⟩), ("b", ⟨3, 1⟩)]
          [("b", ⟨3, 2⟩), ("c", ⟨3, 3⟩), ("a", ⟨3, 4⟩)]).join
        (ν.afterScope [("e", ⟨4, 1⟩)] [("d", ⟨4, 2⟩), ("c", ⟨4, 3⟩), ("e", ⟨4, 4⟩)]) =
        .ok joined :=
  ⟨by decide, (afterScope_and_join_eq_resolveAll (by decide) _ _ [] []).1.trans (by rfl),
    (afterScope_and_join_eq_resolveAll (by decide) _ _ _ _).2.trans (by rfl)⟩

end TraceLoom.Names
