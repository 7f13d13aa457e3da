import TraceLoom.Proofs.Trace.Order
import TraceLoom.Trace.Path

/-!
Statement lists at the end of paths.  When a list only changes at its end, every other path leads
where it led before, and a cursor that stood in a list still stands in it.
-/

namespace TraceLoom.Trace

/-! ## Parts of a node -/

theorem ne_hole_of_part? {part : Part} {t : Trace} {b : List Trace} (h : t.part? part = some b) :
    t ≠ hole := by
  rintro rfl
  simp [part?] at h

@[simp] theorem head_setPart (part : Part) (b : List Trace) (t : Trace) :
    (t.setPart part b).head = t.head := by
  fun_cases setPart part b t <;> rfl

@[simp] theorem params_setPart (part : Part) (b : List Trace) (t : Trace) :
    (t.setPart part b).params = t.params := by
  fun_cases setPart part b t <;> rfl

theorem ne_hole_of_head_eq {t u : Trace} (h : t.head = u.head) (hu : u ≠ hole) : t ≠ hole :=
  fun ht => hu (head_eq_hole_iff.mp (h.symm.trans (head_eq_hole_iff.mpr ht)))

theorem setPart_self {part : Part} {t : Trace} {b : List Trace} (h : t.part? part = some b) :
    t.setPart part b = t := by
  fun_cases part? part t <;> simp_all [part?, setPart]

@[simp] theorem setPart_setPart (part : Part) (b c : List Trace) (t : Trace) :
    (t.setPart part b).setPart part c = t.setPart part c := by
  fun_cases setPart part b t <;> simp_all [setPart]

theorem part?_setPart_of_ne {part other : Part} {t : Trace} {b : List Trace}
    (h : t.part? part = some b) (hne : other ≠ part) (c : List Trace) :
    (t.setPart part c).part? other = t.part? other := by
  fun_cases part? part t <;> cases other <;> simp_all [part?, setPart]

/-- A part is one of the statement lists of the node, or the list of a call. -/
theorem mem_bodies_of_part? {part : Part} {t : Trace} {b : List Trace}
    (h : t.part? part = some b) : b ∈ t.parts.bodies ∨ ∃ n, t = bind n (block b) := by
  fun_cases part? part t <;> simp_all [part?, parts]

/-! ## Paths -/

theorem blockAt?_cons_eq_some_iff {step : Step} {path : Path} {root b : List Trace} :
    blockAt? (step :: path) root = some b ↔
      ∃ t inner, root[step.index]? = some t ∧ t.part? step.part = some inner ∧
        blockAt? path inner = some b := by
  rw [blockAt?]
  cases root[step.index]? with
  | none => simp
  | some t => cases h : t.part? step.part <;> simp [h]

theorem replaceAt_cons {step : Step} {path : Path} {root inner : List Trace} {t : Trace}
    (ht : root[step.index]? = some t) (hinner : t.part? step.part = some inner)
    (new : List Trace) :
    replaceAt (step :: path) new root =
      root.set step.index (t.setPart step.part (replaceAt path new inner)) := by
  simp [replaceAt, ht, hinner]

theorem blockAt?_append (p q : Path) (root : List Trace) :
    blockAt? (p ++ q) root = (blockAt? p root).bind (blockAt? q) := by
  induction p generalizing root with
  | nil => rfl
  | cons step p ih =>
      simp only [List.cons_append, blockAt?]
      cases root[step.index]? with
      | none => rfl
      | some t =>
          dsimp only
          cases t.part? step.part with
          | none => rfl
          | some inner => exact ih inner

theorem replaceAt_self {path : Path} {root b : List Trace} (h : blockAt? path root = some b) :
    replaceAt path b root = root := by
  induction path generalizing root with
  | nil => exact (Option.some.inj h).symm
  | cons step path ih =>
      obtain ⟨t, inner, ht, hinner, hb⟩ := blockAt?_cons_eq_some_iff.mp h
      obtain ⟨hlt, rfl⟩ := List.getElem?_eq_some_iff.mp ht
      rw [replaceAt_cons ht hinner, ih hb, setPart_self hinner, List.set_getElem_self]

theorem replaceAt_replaceAt {path : Path} {root b : List Trace} (h : blockAt? path root = some b)
    (c d : List Trace) : replaceAt path d (replaceAt path c root) = replaceAt path d root := by
  induction path generalizing root with
  | nil => rfl
  | cons step path ih =>
      obtain ⟨t, inner, ht, hinner, hb⟩ := blockAt?_cons_eq_some_iff.mp h
      have hset : (root.set step.index (t.setPart step.part (replaceAt path c inner)))[step.index]? =
          some (t.setPart step.part (replaceAt path c inner)) :=
        List.getElem?_set_self (List.getElem?_eq_some_iff.mp ht).1
      rw [replaceAt_cons ht hinner, replaceAt_cons hset (part?_setPart hinner _), ih hb,
        replaceAt_cons ht hinner, List.set_set, setPart_setPart]

/-! ## Cursors -/

/-- A cursor stands in a list if it is not behind its end and no hole is before it. -/
structure StandsIn (cursor : Nat) (b : List Trace) : Prop where
  le : cursor ≤ b.length
  noHole : ∀ i < cursor, b[i]? ≠ some hole

theorem standsIn_zero (b : List Trace) : StandsIn 0 b :=
  ⟨Nat.zero_le _, fun _ hi => absurd hi (Nat.not_lt_zero _)⟩

theorem StandsIn.set {k i : Nat} {b : List Trace} {t u : Trace} (h : StandsIn k b)
    (ht : b[i]? = some t) (hu : u ≠ hole) : StandsIn k (b.set i u) := by
  refine ⟨by simpa using h.le, fun j hj => ?_⟩
  by_cases hij : i = j
  · subst hij
    have hlt : i < b.length := (List.getElem?_eq_some_iff.mp ht).1
    simpa [List.getElem?_set_self hlt] using hu
  · rw [List.getElem?_set_ne hij]
    exact h.noHole j hj

/-- The second list has all statements of the first in their places, and cursors that stand in
the first stand in it. -/
structure Extends (b b' : List Trace) : Prop where
  kept : ∀ (i : Nat) (t : Trace), b[i]? = some t → t ≠ hole → b'[i]? = some t
  stands : ∀ k, StandsIn k b → StandsIn k b'

theorem Extends.refl (b : List Trace) : Extends b b :=
  ⟨fun _ _ h _ => h, fun _ h => h⟩

theorem Extends.blockAt?_cons {b c d : List Trace} {step : Step} {path : Path}
    (h : Extends b c) (hd : blockAt? (step :: path) b = some d) :
    blockAt? (step :: path) c = some d := by
  obtain ⟨t, inner, ht, hinner, hd⟩ := blockAt?_cons_eq_some_iff.mp hd
  exact blockAt?_cons_eq_some_iff.mpr
    ⟨t, inner, h.kept _ t ht (ne_hole_of_part? hinner), hinner, hd⟩

/-- Extending the list at one path leaves all paths good. -/
theorem exists_blockAt?_replaceAt {p q : Path} {root b c d : List Trace}
    (hb : blockAt? p root = some b) (hext : Extends b c) (hd : blockAt? q root = some d) :
    ∃ d', blockAt? q (replaceAt p c root) = some d' ∧ ∀ k, StandsIn k d → StandsIn k d' := by
  induction p generalizing root q with
  | nil =>
      obtain rfl : root = b := Option.some.inj hb
      cases q with
      | nil =>
          obtain rfl : root = d := Option.some.inj hd
          exact ⟨c, rfl, hext.stands⟩
      | cons step q => exact ⟨d, hext.blockAt?_cons hd, fun _ h => h⟩
  | cons step p ih =>
      obtain ⟨i, part⟩ := step
      obtain ⟨t, inner, ht, hinner, hb'⟩ := blockAt?_cons_eq_some_iff.mp hb
      have hset : (root.set i (t.setPart part (replaceAt p c inner)))[i]? =
          some (t.setPart part (replaceAt p c inner)) :=
        List.getElem?_set_self (List.getElem?_eq_some_iff.mp ht).1
      rw [replaceAt_cons ht hinner]
      cases q with
      | nil =>
          obtain rfl : root = d := Option.some.inj hd
          have hne : t.setPart part (replaceAt p c inner) ≠ hole :=
            ne_hole_of_head_eq (head_setPart ..) (ne_hole_of_part? hinner)
          exact ⟨_, rfl, fun k hk => hk.set ht hne⟩
      | cons step q =>
          obtain ⟨i', part'⟩ := step
          obtain ⟨u, inner', hu, hinner', hd'⟩ := blockAt?_cons_eq_some_iff.mp hd
          by_cases hindex : i' = i
          · subst hindex
            obtain rfl : t = u := Option.some.inj (ht.symm.trans hu)
            by_cases hpart : part' = part
            · subst hpart
              obtain rfl : inner = inner' := Option.some.inj (hinner.symm.trans hinner')
              obtain ⟨d', hd'', hstands⟩ := ih hb' hd'
              exact ⟨d', blockAt?_cons_eq_some_iff.mpr
                ⟨_, _, hset, part?_setPart hinner _, hd''⟩, hstands⟩
            · have hkept := (part?_setPart_of_ne hinner hpart (replaceAt p c inner)).trans hinner'
              exact ⟨d, blockAt?_cons_eq_some_iff.mpr ⟨_, _, hset, hkept, hd'⟩, fun _ h => h⟩
          · have hkept : (root.set i (t.setPart part (replaceAt p c inner)))[i']? = some u :=
              (List.getElem?_set_ne (Ne.symm hindex)).trans hu
            exact ⟨d, blockAt?_cons_eq_some_iff.mpr ⟨_, _, hkept, hinner', hd'⟩, fun _ h => h⟩

/-! ## Tests that survive a change -/

/-- A test of nodes that looks at statement lists one by one, and at their statements only by
their heads. -/
structure IsLocal (p : Trace → Bool) : Prop where
  body : ∀ {t b}, p t = true → b ∈ t.parts.bodies → p (block b) = true
  setPart : ∀ {part t b c}, t.part? part = some b → p t = true → p (block c) = true →
    p (t.setPart part c) = true
  set : ∀ {b : List Trace} {i : Nat} {t u}, p (block b) = true → b[i]? = some t →
    u.head = t.head → p (block (b.set i u)) = true

theorem mem_children_of_setPart {part : Part} {t s : Trace} {b c : List Trace}
    (hb : t.part? part = some b) (hs : s ∈ (t.setPart part c).children) :
    s ∈ t.children ∨ s ∈ c ∨ s = block c := by
  fun_cases part? part t <;> simp_all [part?, setPart, children, parts] <;> grind

theorem every_block_iff {p : Trace → Bool} {b : List Trace} :
    every p (block b) = true ↔ p (block b) = true ∧ ∀ s ∈ b, every p s = true := by
  rw [every_eq_true_iff]
  simp [children, parts]

namespace IsLocal

variable {p : Trace → Bool}

theorem every_part? (hp : IsLocal p) {part : Part} {t : Trace} {b : List Trace}
    (ht : every p t = true) (hb : t.part? part = some b) : every p (block b) = true := by
  obtain ⟨hnode, hchildren⟩ := every_eq_true_iff.mp ht
  rcases mem_bodies_of_part? hb with hmem | ⟨n, rfl⟩
  · exact every_block_iff.mpr ⟨hp.body hnode hmem,
      fun s hs => hchildren s (mem_children_of_bodies hmem hs)⟩
  · exact hchildren _ (by simp [children, parts])

theorem every_setPart (hp : IsLocal p) {part : Part} {t : Trace} {b c : List Trace}
    (ht : every p t = true) (hb : t.part? part = some b) (hc : every p (block c) = true) :
    every p (t.setPart part c) = true := by
  obtain ⟨hnode, hchildren⟩ := every_eq_true_iff.mp ht
  obtain ⟨hlist, hitems⟩ := every_block_iff.mp hc
  refine every_eq_true_iff.mpr ⟨hp.setPart hb hnode hlist, fun s hs => ?_⟩
  rcases mem_children_of_setPart hb hs with hs | hs | rfl
  · exact hchildren s hs
  · exact hitems s hs
  · exact hc

theorem every_blockAt? (hp : IsLocal p) {path : Path} {root b : List Trace}
    (hroot : every p (block root) = true) (hb : blockAt? path root = some b) :
    every p (block b) = true := by
  induction path generalizing root with
  | nil => exact Option.some.inj hb ▸ hroot
  | cons step path ih =>
      obtain ⟨t, inner, ht, hinner, hb⟩ := blockAt?_cons_eq_some_iff.mp hb
      have hmem : t ∈ root := List.mem_of_getElem? ht
      exact ih (hp.every_part? ((every_block_iff.mp hroot).2 t hmem) hinner) hb

theorem every_replaceAt (hp : IsLocal p) {path : Path} {root b c : List Trace}
    (hroot : every p (block root) = true) (hb : blockAt? path root = some b)
    (hc : every p (block c) = true) : every p (block (replaceAt path c root)) = true := by
  induction path generalizing root with
  | nil => exact hc
  | cons step path ih =>
      obtain ⟨t, inner, ht, hinner, hb⟩ := blockAt?_cons_eq_some_iff.mp hb
      obtain ⟨hlist, hitems⟩ := every_block_iff.mp hroot
      have ht' := hitems t (List.mem_of_getElem? ht)
      have hnew := hp.every_setPart ht' hinner (ih (hp.every_part? ht' hinner) hb)
      rw [replaceAt_cons ht hinner]
      refine every_block_iff.mpr ⟨hp.set hlist ht (head_setPart ..), fun s hs => ?_⟩
      rcases List.mem_or_eq_of_mem_set hs with hs | rfl
      · exact hitems s hs
      · exact hnew

end IsLocal

end TraceLoom.Trace
