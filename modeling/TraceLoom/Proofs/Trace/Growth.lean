import TraceLoom.Proofs.Trace.Path

/-!
What stays of a trace while it grows.  The shell of a statement is all of it but its statement
lists.  A trace that has grown has every statement in its place with the shell it had, and the
lists that had ended are as long as they were.
-/

namespace TraceLoom.Trace

/-! ## Statements and their shells -/

/-- The statement at an index of the list at the end of a path. -/
def nodeAt? (p : Path) (i : Nat) (root : List Trace) : Option Trace :=
  (blockAt? p root).bind (·[i]?)

/-- The statement without what stands in its statement lists. -/
def shell : Trace → Trace
  | ifElse test _ _ => ifElse test [] []
  | whileDo test _ => whileDo test []
  | callback event arg params record _ => callback event arg params record []
  | label n _ => label n []
  | bind n (block _) => bind n (block [])
  | t => t

/-- Whether a list may go on. -/
def GoesOn (b : List Trace) : Prop :=
  b.getLast? = some hole

@[simp] theorem shell_setPart (part : Part) (b : List Trace) (t : Trace) :
    (t.setPart part b).shell = t.shell := by
  fun_cases setPart part b t <;> simp_all [shell]

@[simp] theorem head_shell (t : Trace) : t.shell.head = t.head := by
  fun_cases shell t <;> rfl

theorem head_eq_of_shell_eq {t u : Trace} (h : t.shell = u.shell) : t.head = u.head := by
  rw [← head_shell t, h, head_shell]

theorem ne_hole_of_shell_eq {t u : Trace} (h : t.shell = u.shell) (hu : u ≠ hole) : t ≠ hole :=
  ne_hole_of_head_eq (head_eq_of_shell_eq h) hu

theorem exists_of_head_eq_callback {t : Trace} {event : String} (h : t.head = .callback event) :
    ∃ arg params record b, t = callback event arg params record b := by
  fun_cases head t <;> cases h
  exact ⟨_, _, _, _, rfl⟩

theorem goesOn_append_singleton {b : List Trace} {t : Trace} : GoesOn (b ++ [t]) ↔ t = hole := by
  simp [GoesOn]

theorem nodeAt?_eq_some_iff {p : Path} {i : Nat} {root : List Trace} {t : Trace} :
    nodeAt? p i root = some t ↔ ∃ b, blockAt? p root = some b ∧ b[i]? = some t :=
  Option.bind_eq_some_iff

@[simp] theorem nodeAt?_nil (i : Nat) (root : List Trace) : nodeAt? [] i root = root[i]? := rfl

/-- A list that is part of a statement. -/
theorem blockAt?_append_singleton_eq_some_iff {p : Path} {i : Nat} {part : Part}
    {root b : List Trace} :
    blockAt? (p ++ [⟨i, part⟩]) root = some b ↔
      ∃ t, nodeAt? p i root = some t ∧ t.part? part = some b := by
  rw [blockAt?_append, Option.bind_eq_some_iff]
  simp only [blockAt?_cons_eq_some_iff, nodeAt?_eq_some_iff]
  constructor
  · rintro ⟨c, hc, t, inner, ht, hinner, hb⟩
    exact ⟨t, ⟨c, hc, ht⟩, hinner.trans hb⟩
  · rintro ⟨t, ⟨c, hc, ht⟩, hb⟩
    exact ⟨c, hc, t, b, ht, hb, rfl⟩

section

variable {root inner : List Trace} {i : Nat} {part : Part} {t : Trace}

/-- Where a part of one statement was replaced, paths through this part lead into the new list and
all other paths where they led. -/
theorem blockAt?_cons_set (ht : root[i]? = some t) (hinner : t.part? part = some inner)
    (new : List Trace) (step : Step) (p : Path) :
    blockAt? (step :: p) (root.set i (t.setPart part new)) =
      if step = ⟨i, part⟩ then blockAt? p new else blockAt? (step :: p) root := by
  obtain ⟨j, other⟩ := step
  have hlt := (List.getElem?_eq_some_iff.mp ht).1
  by_cases hindex : j = i
  · subst hindex
    by_cases hpart : other = part
    · subst hpart
      simp [blockAt?, hlt, part?_setPart hinner]
    · simp [blockAt?, List.getElem?_set_self hlt, ht, part?_setPart_of_ne hinner hpart, hpart]
  · simp [blockAt?, List.getElem?_set_ne (Ne.symm hindex), hindex]

theorem nodeAt?_cons_set (ht : root[i]? = some t) (hinner : t.part? part = some inner)
    (new : List Trace) (step : Step) (p : Path) (j : Nat) :
    nodeAt? (step :: p) j (root.set i (t.setPart part new)) =
      if step = ⟨i, part⟩ then nodeAt? p j new else nodeAt? (step :: p) j root := by
  rw [nodeAt?, blockAt?_cons_set ht hinner]
  split <;> rfl

theorem blockAt?_cons_self (ht : root[i]? = some t) (hinner : t.part? part = some inner)
    (p : Path) : blockAt? (⟨i, part⟩ :: p) root = blockAt? p inner := by
  simp [blockAt?, ht, hinner]

theorem nodeAt?_cons_self (ht : root[i]? = some t) (hinner : t.part? part = some inner)
    (p : Path) (j : Nat) : nodeAt? (⟨i, part⟩ :: p) j root = nodeAt? p j inner := by
  rw [nodeAt?, blockAt?_cons_self ht hinner, nodeAt?]

end

/-! ## Growth -/

/-- The second root list arises from the first by filling holes: a statement keeps its place and
its shell, and a list that has ended keeps its length. -/
structure Grown (root root' : List Trace) : Prop where
  kept : ∀ {p : Path} {i : Nat} {t : Trace}, nodeAt? p i root = some t → t ≠ hole →
    ∃ t', nodeAt? p i root' = some t' ∧ t'.shell = t.shell
  ended : ∀ {p : Path} {b : List Trace}, blockAt? p root = some b → ¬ GoesOn b →
    ∃ b', blockAt? p root' = some b' ∧ b'.length = b.length ∧ ¬ GoesOn b'

namespace Grown

variable {root root' root'' b b' : List Trace}

@[refl] theorem refl (root : List Trace) : Grown root root :=
  ⟨fun ht _ => ⟨_, ht, rfl⟩, fun hb hopen => ⟨_, hb, rfl, hopen⟩⟩

@[trans] theorem trans (h : Grown root root') (h' : Grown root' root'') : Grown root root'' := by
  refine ⟨fun ht hne => ?_, fun hb hopen => ?_⟩
  · obtain ⟨t', ht', hshell⟩ := h.kept ht hne
    obtain ⟨t'', ht'', hshell'⟩ := h'.kept ht' (ne_hole_of_shell_eq hshell hne)
    exact ⟨t'', ht'', hshell'.trans hshell⟩
  · obtain ⟨b', hb', hlength, hopen'⟩ := h.ended hb hopen
    obtain ⟨b'', hb'', hlength', hopen''⟩ := h'.ended hb' hopen'
    exact ⟨b'', hb'', hlength'.trans hlength, hopen''⟩

/-- A list goes on in place of the hole at its end. -/
theorem append (c rest : List Trace) :
    Grown (c ++ [hole]) (c ++ rest) := by
  have hget : ∀ {i : Nat} {t : Trace}, (c ++ [hole])[i]? = some t → t ≠ hole →
      (c ++ rest)[i]? = some t := by
    intro i t ht hne
    rw [List.getElem?_append] at ht
    split at ht
    · rename_i hi
      rwa [List.getElem?_append_left hi]
    · exact absurd (List.mem_singleton.mp (List.mem_of_getElem? ht)) hne
  -- a path that goes on from the list starts in a statement that stays
  have hpath : ∀ {step : Step} {p : Path} {d : List Trace},
      blockAt? (step :: p) (c ++ [hole]) = some d → blockAt? (step :: p) (c ++ rest) = some d := by
    intro step p d hd
    obtain ⟨t, inner, ht, hinner, hd⟩ := blockAt?_cons_eq_some_iff.mp hd
    exact blockAt?_cons_eq_some_iff.mpr
      ⟨t, inner, hget ht (ne_hole_of_part? hinner), hinner, hd⟩
  refine ⟨fun {p i t} ht hne => ?_, fun {p d} hd hopen => ?_⟩
  · cases p with
    | nil => exact ⟨t, hget ht hne, rfl⟩
    | cons step p =>
        obtain ⟨d, hd, ht⟩ := nodeAt?_eq_some_iff.mp ht
        exact ⟨t, nodeAt?_eq_some_iff.mpr ⟨d, hpath hd, ht⟩, rfl⟩
  · cases p with
    | nil =>
        obtain rfl : c ++ [hole] = d := Option.some.inj hd
        exact absurd (goesOn_append_singleton.mpr rfl) hopen
    | cons step p => exact ⟨d, hpath hd, rfl, hopen⟩

theorem setPart {inner inner' : List Trace} {i : Nat} {part : Part} {t : Trace}
    (h : Grown inner inner') (ht : root[i]? = some t) (hinner : t.part? part = some inner) :
    Grown root (root.set i (t.setPart part inner')) := by
  have hlt := (List.getElem?_eq_some_iff.mp ht).1
  refine ⟨fun {p j s} hs hne => ?_, fun {p b} hb hopen => ?_⟩
  · cases p with
    | nil =>
        by_cases hindex : i = j
        · subst hindex
          obtain rfl : t = s := Option.some.inj (ht.symm.trans hs)
          exact ⟨_, List.getElem?_set_self hlt, shell_setPart ..⟩
        · exact ⟨s, (List.getElem?_set_ne hindex).trans hs, rfl⟩
    | cons step p =>
        rw [nodeAt?_cons_set ht hinner]
        split
        · rename_i hstep
          rw [hstep, nodeAt?_cons_self ht hinner] at hs
          exact h.kept hs hne
        · exact ⟨s, hs, rfl⟩
  · cases p with
    | nil =>
        obtain rfl : root = b := Option.some.inj hb
        refine ⟨_, rfl, List.length_set, fun hopen' => hopen ?_⟩
        rw [GoesOn, List.getLast?_eq_getElem?, List.length_set] at hopen'
        rw [GoesOn, List.getLast?_eq_getElem?]
        by_cases hindex : i = root.length - 1
        · rw [← hindex, List.getElem?_set_self hlt] at hopen'
          exact absurd (Option.some.inj hopen')
            (ne_hole_of_head_eq (head_setPart ..) (ne_hole_of_part? hinner))
        · rwa [List.getElem?_set_ne hindex] at hopen'
    | cons step p =>
        rw [blockAt?_cons_set ht hinner]
        split
        · rename_i hstep
          have hb' : blockAt? p inner = some b := by
            rwa [hstep, blockAt?_cons_self ht hinner] at hb
          exact h.ended hb' hopen
        · exact ⟨b, hb, rfl, hopen⟩

/-- A trace grows as a list in it grows. -/
theorem replaceAt {path : Path} (h : Grown b b') (hb : blockAt? path root = some b) :
    Grown root (replaceAt path b' root) := by
  induction path generalizing root with
  | nil =>
      obtain rfl : root = b := Option.some.inj hb
      exact h
  | cons step path ih =>
      obtain ⟨t, inner, ht, hinner, hb⟩ := blockAt?_cons_eq_some_iff.mp hb
      rw [replaceAt_cons ht hinner]
      exact (ih hb).setPart ht hinner

end Grown

/-! ## Confinement -/

/-- The root lists differ at most in the list at a path: all statements outside of that list are
the same, but for the list in those around it. -/
structure ConfinedTo (base : Path) (root root' : List Trace) : Prop where
  outside : ∀ {p : Path} {i : Nat}, ¬ base <+: p →
    (∀ part, ¬ p ++ [(⟨i, part⟩ : Step)] <+: base) → nodeAt? p i root' = nodeAt? p i root
  around : ∀ {p : Path} {i : Nat}, ¬ base <+: p →
    (nodeAt? p i root').map shell = (nodeAt? p i root).map shell

theorem ConfinedTo.refl (base : Path) (root : List Trace) : ConfinedTo base root root :=
  ⟨fun _ _ => rfl, fun _ => rfl⟩

theorem confinedTo_replaceAt {base : Path} {root b : List Trace}
    (hb : blockAt? base root = some b) (new : List Trace) :
    ConfinedTo base root (replaceAt base new root) := by
  induction base generalizing root with
  | nil => exact ⟨fun h => absurd List.nil_prefix h, fun h => absurd List.nil_prefix h⟩
  | cons step base ih =>
      obtain ⟨k, part⟩ := step
      obtain ⟨t, inner, ht, hinner, hb⟩ := blockAt?_cons_eq_some_iff.mp hb
      have hlt := (List.getElem?_eq_some_iff.mp ht).1
      have hrest := ih hb
      rw [replaceAt_cons ht hinner]
      refine ⟨fun {p i} hp hpart => ?_, fun {p i} hp => ?_⟩
      · cases p with
        | nil =>
            have hne : k ≠ i := by
              rintro rfl
              exact hpart part ⟨base, rfl⟩
            exact List.getElem?_set_ne hne
        | cons step p =>
            rw [nodeAt?_cons_set ht hinner]
            split
            · rename_i hstep
              subst hstep
              rw [nodeAt?_cons_self ht hinner]
              refine hrest.outside (fun h => hp (List.cons_prefix_cons.mpr ⟨rfl, h⟩)) fun q h => ?_
              exact hpart q (List.cons_prefix_cons.mpr ⟨rfl, h⟩)
            · rfl
      · cases p with
        | nil =>
            by_cases hindex : k = i
            · subst hindex
              rw [nodeAt?_nil, nodeAt?_nil, List.getElem?_set_self hlt, ht]
              simp
            · exact congrArg (Option.map shell) (List.getElem?_set_ne hindex)
        | cons step p =>
            rw [nodeAt?_cons_set ht hinner]
            split
            · rename_i hstep
              subst hstep
              rw [nodeAt?_cons_self ht hinner]
              exact hrest.around fun h => hp (List.cons_prefix_cons.mpr ⟨rfl, h⟩)
            · rfl

/-- Replacing a list further inside is replacing the list around it. -/
theorem replaceAt_append {p q : Path} {root b : List Trace} (hb : blockAt? p root = some b)
    (new : List Trace) :
    replaceAt (p ++ q) new root = replaceAt p (replaceAt q new b) root := by
  induction p generalizing root with
  | nil =>
      obtain rfl : root = b := Option.some.inj hb
      rfl
  | cons step p ih =>
      obtain ⟨t, inner, ht, hinner, hb⟩ := blockAt?_cons_eq_some_iff.mp hb
      rw [List.cons_append, replaceAt_cons ht hinner, replaceAt_cons ht hinner, ih hb]

/-- Extending a list leaves the lists alone that it does not lie in. -/
theorem blockAt?_replaceAt_of_extends {p q : Path} {root b c d : List Trace}
    (hb : blockAt? p root = some b) (hext : Extends b c) (hq : ¬ q <+: p)
    (hd : blockAt? q root = some d) : blockAt? q (replaceAt p c root) = some d := by
  induction p generalizing root q with
  | nil =>
      obtain rfl : root = b := Option.some.inj hb
      cases q with
      | nil => exact absurd List.nil_prefix hq
      | cons step q => exact hext.blockAt?_cons hd
  | cons step p ih =>
      obtain ⟨t, inner, ht, hinner, hb⟩ := blockAt?_cons_eq_some_iff.mp hb
      cases q with
      | nil => exact absurd List.nil_prefix hq
      | cons step' q =>
          rw [replaceAt_cons ht hinner, blockAt?_cons_set ht hinner]
          split
          · rename_i hstep
            have hd' : blockAt? q inner = some d := by
              rwa [hstep, blockAt?_cons_self ht hinner] at hd
            exact ih hb (fun h => hq (List.cons_prefix_cons.mpr ⟨hstep, h⟩)) hd'
          · exact hd

end TraceLoom.Trace
