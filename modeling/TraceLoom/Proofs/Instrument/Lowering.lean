import TraceLoom.Instrument.Lower
import TraceLoom.Proofs.Instrument.FreeNames
import TraceLoom.Proofs.Instrument.Names

/-!
Lowering an expression uses the free names of the expression, but for those that every program
has.  What it gives is a call of a constructor and never a closure record.
-/

namespace TraceLoom

open Script

/-! ## Steps that go through -/

section

variable {σ ε α β : Type} {s : σ} {r : α × σ}

theorem exists_of_bind {x : Except ε α} {f : α → Except ε β} {b : β} (h : x >>= f = .ok b) :
    ∃ a, x = .ok a ∧ f a = .ok b := by
  cases x with
  | error e => cases h
  | ok a => exact ⟨a, rfl, h⟩

theorem eq_ok_of_mapError {ε' : Type} {x : Except ε α} {f : ε → ε'} {a : α}
    (h : x.mapError f = .ok a) : x = .ok a := by
  cases x with
  | error e => cases h
  | ok b => exact congrArg Except.ok (Except.ok.inj h)

/-- Two steps go through when both do. -/
theorem run_bind_eq_ok_iff {m : StateT σ (Except ε) β} {f : β → StateT σ (Except ε) α} :
    (m >>= f).run s = .ok r ↔ ∃ b s', m.run s = .ok (b, s') ∧ (f b).run s' = .ok r := by
  rw [StateT.run_bind]
  rcases m.run s with e | ⟨b, s'⟩
  · simp [bind, Except.bind]
  · simp [bind, Except.bind]

theorem run_pure_eq_ok_iff {a : α} :
    (pure a : StateT σ (Except ε) α).run s = .ok r ↔ r = (a, s) :=
  ⟨fun h => (Except.ok.inj h).symm, fun h => h ▸ rfl⟩

theorem run_get_eq_ok_iff {r : σ × σ} :
    (get : StateT σ (Except ε) σ).run s = .ok r ↔ r = (s, s) :=
  ⟨fun h => (Except.ok.inj h).symm, fun h => h ▸ rfl⟩

theorem run_set_eq_ok_iff {s' : σ} {r : PUnit × σ} :
    (set s' : StateT σ (Except ε) PUnit).run s = .ok r ↔ r = (⟨⟩, s') :=
  ⟨fun h => (Except.ok.inj h).symm, fun h => h ▸ rfl⟩

theorem run_modify_eq_ok_iff {f : σ → σ} {r : PUnit × σ} :
    (modify f : StateT σ (Except ε) PUnit).run s = .ok r ↔ r = (⟨⟩, f s) :=
  ⟨fun h => (Except.ok.inj h).symm, fun h => h ▸ rfl⟩

theorem run_liftM_eq_ok_iff {x : Except ε α} :
    (liftM x : StateT σ (Except ε) α).run s = .ok r ↔ x = .ok r.1 ∧ r.2 = s := by
  obtain ⟨a, s'⟩ := r
  cases x with
  | error e =>
      simp [liftM, monadLift, MonadLift.monadLift, StateT.lift, StateT.run, bind, Except.bind]
  | ok b =>
      simp [liftM, monadLift, MonadLift.monadLift, StateT.lift, StateT.run, bind, Except.bind,
        pure, Except.pure, eq_comm]

theorem run'_eq_ok_iff {m : StateT σ (Except ε) α} {a : α} :
    m.run' s = .ok a ↔ ∃ s', m.run s = .ok (a, s') := by
  rw [StateT.run'_eq]
  rcases m.run s with e | ⟨b, s'⟩
  · simp [Functor.map, Except.map]
  · simp [Functor.map, Except.map]

theorem run_throw_ne_ok {e : ε} : (throw e : StateT σ (Except ε) α).run s ≠ .ok r := by
  simp [throw, throwThe, MonadExceptOf.throw]

end

/-! ## Calls -/

/-- What classification says about a callee. -/
theorem classify_require {p : Primitives} {callee : Expr} {args : List Expr} {path : String}
    (h : p.classify callee args = .require path) :
    (∃ pos, callee = .name pos "require") ∧ ∃ pos, args = [.string pos path] := by
  unfold Primitives.classify at h
  split at h
  · split at h
    · cases h
      exact ⟨⟨_, rfl⟩, _, rfl⟩
    · cases h
  · split at h
    · cases h
    · split at h <;> cases h
  · cases h

theorem classify_console {p : Primitives} {callee : Expr} {args : List Expr} {method : String}
    (h : p.classify callee args = .console method) :
    ∃ pos npos, callee = .member pos (.name npos "console") method := by
  unfold Primitives.classify at h
  split at h
  · split at h <;> cases h
  · rename_i pos object property
    split at h
    · rename_i hobject
      cases h
      cases object <;> simp [Expr.name?] at hobject
      obtain ⟨rfl, -⟩ := hobject
      exact ⟨pos, _, rfl⟩
    · split at h <;> cases h
  · cases h

theorem classify_method {p : Primitives} {callee object : Expr} {args : List Expr} {method : String}
    (h : p.classify callee args = .method object method) :
    ∃ pos, callee = .member pos object method := by
  unfold Primitives.classify at h
  split at h
  · split at h <;> cases h
  · split at h
    · cases h
    · split at h
      · cases h
        exact ⟨_, rfl⟩
      · cases h
  · cases h

/-! ## Names -/

/-- Whether a function captures a name that it does not bind. -/
def Primitives.mayCapture (p : Primitives) (n : String) : Bool :=
  n != "undefined" && !p.isGlobal n

namespace Lower

variable {l : Lower} {ν ν' : Names}

theorem run_reference {n : String} {pos : Position} {e' : Expr} :
    (l.reference n pos).run ν = .ok (e', ν') ↔
      if n = "undefined" then e' = l.undefined ∧ ν' = ν
      else if l.primitives.isGlobal n then e' = l.builder "identifier" [.text n] ∧ ν' = ν
      else e' = l.source n (ν.resolve n pos).1 ∧ ν' = (ν.resolve n pos).2 := by
  unfold reference
  by_cases hundefined : n = "undefined"
  · rw [if_pos (beq_iff_eq.mpr hundefined), if_pos hundefined, run_pure_eq_ok_iff, Prod.mk.injEq]
  · rw [if_neg (by simpa using hundefined), if_neg hundefined]
    by_cases hglobal : l.primitives.isGlobal n
    · rw [if_pos hglobal, if_pos hglobal, run_pure_eq_ok_iff, Prod.mk.injEq]
    · rw [if_neg hglobal, if_neg hglobal]
      simp only [run_bind_eq_ok_iff, run_get_eq_ok_iff, run_set_eq_ok_iff, run_pure_eq_ok_iff,
        Prod.mk.injEq]
      simp

theorem source_eq_builder (l : Lower) (n : String) (b : Binding) :
    ∃ constructor args, constructor ≠ "clos" ∧ l.source n b = l.builder constructor args := by
  cases b
  · exact ⟨_, _, by decide, rfl⟩
  · exact ⟨_, _, by decide, rfl⟩

/-- What lowering gives calls a constructor, but not that of closure records. -/
theorem eq_builder_of_expr {e e' : Expr} (h : (l.expr e).run ν = .ok (e', ν')) :
    e' = l.undefined ∨
      ∃ constructor args, constructor ≠ "clos" ∧ e' = l.builder constructor args := by
  cases e with
  | name pos n =>
      rw [expr, run_reference] at h
      split at h
      · exact .inl h.1
      · split at h
        · exact .inr ⟨_, _, by decide, h.1⟩
        · rw [h.1]
          exact .inr (source_eq_builder l n _)
  | null | function | call | assign | update => exact absurd h run_throw_ne_ok
  | number | string | boolean =>
      obtain ⟨rfl, -⟩ := Prod.mk.inj (run_pure_eq_ok_iff.mp h)
      exact .inr ⟨_, _, by decide, rfl⟩
  | array | object | member | unary =>
      obtain ⟨_, _, -, h⟩ := run_bind_eq_ok_iff.mp h
      obtain ⟨rfl, -⟩ := Prod.mk.inj (run_pure_eq_ok_iff.mp h)
      exact .inr ⟨_, _, by decide, rfl⟩
  | index | binary =>
      obtain ⟨_, _, -, h⟩ := run_bind_eq_ok_iff.mp h
      obtain ⟨_, _, -, h⟩ := run_bind_eq_ok_iff.mp h
      obtain ⟨rfl, -⟩ := Prod.mk.inj (run_pure_eq_ok_iff.mp h)
      exact .inr ⟨_, _, by decide, rfl⟩

theorem uses_reference {n : String} {pos : Position} {e' : Expr}
    (h : (l.reference n pos).run ν = .ok (e', ν')) :
    ν.Uses ([n].filter l.primitives.mayCapture) ν' := by
  rw [run_reference] at h
  split at h
  · rename_i hn
    obtain ⟨-, rfl⟩ := h
    simpa [Primitives.mayCapture, hn] using Names.Uses.refl ν'
  · rename_i hn
    split at h
    · rename_i hglobal
      obtain ⟨-, rfl⟩ := h
      simpa [Primitives.mayCapture, hglobal] using Names.Uses.refl ν'
    · rename_i hglobal
      obtain ⟨-, rfl⟩ := h
      simpa [Primitives.mayCapture, hn, hglobal] using Names.uses_resolve ν n pos

mutual

theorem uses_expr {ν ν' : Names} {e' : Expr} (own : Option String → List String) : ∀ e : Expr,
    (l.expr e).run ν = .ok (e', ν') → ν.Uses ((e.freeNames own).filter l.primitives.mayCapture) ν' := by
  intro e h
  cases e with
  | name pos n => exact uses_reference h
  | number | string | boolean =>
      obtain ⟨-, rfl⟩ := Prod.mk.inj (run_pure_eq_ok_iff.mp h)
      simpa [Expr.freeNames] using Names.Uses.refl ν'
  | null | function | call | assign | update => exact absurd h run_throw_ne_ok
  | array pos items =>
      simp only [expr, run_bind_eq_ok_iff, run_pure_eq_ok_iff, Prod.mk.injEq] at h
      obtain ⟨items', _, hitems, -, rfl⟩ := h
      exact uses_exprs own items hitems
  | object pos entries =>
      simp only [expr, run_bind_eq_ok_iff, run_pure_eq_ok_iff, Prod.mk.injEq] at h
      obtain ⟨entries', _, hentries, -, rfl⟩ := h
      exact uses_fields own entries hentries
  | member pos object property =>
      simp only [expr, run_bind_eq_ok_iff, run_pure_eq_ok_iff, Prod.mk.injEq] at h
      obtain ⟨object', _, hobject, -, rfl⟩ := h
      exact uses_expr own object hobject
  | unary pos op operand =>
      simp only [expr, run_bind_eq_ok_iff, run_pure_eq_ok_iff, Prod.mk.injEq] at h
      obtain ⟨operand', _, hoperand, -, rfl⟩ := h
      exact uses_expr own operand hoperand
  | index pos object index =>
      simp only [expr, run_bind_eq_ok_iff, run_pure_eq_ok_iff, Prod.mk.injEq] at h
      obtain ⟨object', ν₁, hobject, index', _, hindex, -, rfl⟩ := h
      simpa [Expr.freeNames] using (uses_expr own object hobject).trans (uses_expr own index hindex)
  | binary pos op left right =>
      simp only [expr, run_bind_eq_ok_iff, run_pure_eq_ok_iff, Prod.mk.injEq] at h
      obtain ⟨left', ν₁, hleft, right', _, hright, -, rfl⟩ := h
      simpa [Expr.freeNames] using (uses_expr own left hleft).trans (uses_expr own right hright)
termination_by structural e => e

theorem uses_exprs {ν ν' : Names} {es' : List Expr} (own : Option String → List String) : ∀ es : List Expr,
    (l.exprs es).run ν = .ok (es', ν') →
      ν.Uses ((Expr.freeNamesList own es).filter l.primitives.mayCapture) ν' := by
  intro es h
  cases es with
  | nil =>
      obtain ⟨-, rfl⟩ := Prod.mk.inj (run_pure_eq_ok_iff.mp h)
      exact Names.Uses.refl ν'
  | cons e es =>
      simp only [exprs, run_bind_eq_ok_iff, run_pure_eq_ok_iff, Prod.mk.injEq] at h
      obtain ⟨e', ν₁, he, es', _, hes, -, rfl⟩ := h
      simpa [Expr.freeNamesList] using (uses_expr own e he).trans (uses_exprs own es hes)
termination_by structural es => es

theorem uses_fields {ν ν' : Names} {es' : List (String × Expr)} (own : Option String → List String) : ∀ es : List (String × Expr),
    (l.fields es).run ν = .ok (es', ν') →
      ν.Uses ((Expr.freeNamesEntries own es).filter l.primitives.mayCapture) ν' := by
  intro es h
  cases es with
  | nil =>
      obtain ⟨-, rfl⟩ := Prod.mk.inj (run_pure_eq_ok_iff.mp h)
      exact Names.Uses.refl ν'
  | cons entry es =>
      obtain ⟨key, e⟩ := entry
      simp only [fields, run_bind_eq_ok_iff, run_pure_eq_ok_iff, Prod.mk.injEq] at h
      obtain ⟨e', ν₁, he, es', _, hes, -, rfl⟩ := h
      simpa [Expr.freeNamesEntries] using (uses_expr own e he).trans (uses_fields own es hes)
termination_by structural es => es

end

theorem uses_callee (own : Option String → List String) {e e' : Expr} (h : (l.callee e).run ν = .ok (e', ν')) :
    ν.Uses ((e.freeNames own).filter l.primitives.mayCapture) ν' := by
  unfold callee at h
  split at h
  · exact uses_reference h
  · exact absurd h run_throw_ne_ok
  · exact absurd h run_throw_ne_ok
  · rename_i object property _ _
    simp only [run_bind_eq_ok_iff, run_pure_eq_ok_iff, Prod.mk.injEq] at h
    obtain ⟨object', _, hobject, -, rfl⟩ := h
    exact uses_expr own object hobject
  · exact absurd h run_throw_ne_ok

theorem uses_target (own : Option String → List String) {e e' : Expr} (h : (l.target e).run ν = .ok (e', ν')) :
    ν.Uses ((e.freeNames own).filter l.primitives.mayCapture) ν' := by
  unfold target at h
  split at h
  · split at h
    · exact absurd h run_throw_ne_ok
    · exact uses_reference h
  · rename_i object property
    split at h
    · exact absurd h run_throw_ne_ok
    · simp only [run_bind_eq_ok_iff, run_pure_eq_ok_iff, Prod.mk.injEq] at h
      obtain ⟨object', _, hobject, -, rfl⟩ := h
      exact uses_expr own object hobject
  · rename_i object index
    split at h
    · exact absurd h run_throw_ne_ok
    · rw [run_bind_eq_ok_iff] at h
      obtain ⟨ν₀, _, hget, h⟩ := h
      obtain ⟨rfl, rfl⟩ := Prod.mk.inj (run_get_eq_ok_iff.mp hget)
      split at h
      · obtain ⟨_, _, hrefuse, -⟩ := run_bind_eq_ok_iff.mp h
        exact absurd hrefuse run_throw_ne_ok
      · simp only [run_bind_eq_ok_iff, run_pure_eq_ok_iff, Prod.mk.injEq] at h
        obtain ⟨object', ν₁, hobject, index', _, hindex, -, rfl⟩ := h
        simpa [Expr.freeNames] using (uses_expr own object hobject).trans (uses_expr own index hindex)
  · exact absurd h run_throw_ne_ok

/-! ## The closure record -/

/-- Some name of a list is captured. -/
def Captures (l : Lower) (ν : Names) (used : List String) : Prop :=
  ∃ x ∈ used, l.primitives.mayCapture x ∧ ν.lookup x ≠ some .own

namespace Captures

variable {used more : List String}

theorem left (h : l.Captures ν used) : l.Captures ν (used ++ more) := by
  obtain ⟨x, hx, hcaptured⟩ := h
  exact ⟨x, List.mem_append_left _ hx, hcaptured⟩

theorem right (h : l.Captures ν more) : l.Captures ν (used ++ more) := by
  obtain ⟨x, hx, hcaptured⟩ := h
  exact ⟨x, List.mem_append_right _ hx, hcaptured⟩

theorem before {others : List String} (h : l.Captures ν' used) (huses : ν.Uses others ν') :
    l.Captures ν used := by
  obtain ⟨x, hx, hmay, hown⟩ := h
  exact ⟨x, hx, hmay, fun hlookup => hown (huses.own_iff.mpr hlookup)⟩

end Captures

theorem freeNames_builder (l : Lower) (own : Option String → List String) (name : String)
    (args : List Expr) :
    (l.builder name args).freeNames own = l.options.expBinding :: Expr.freeNamesList own args :=
  rfl

variable (own : Option String → List String)

theorem captures_of_reference (hexp : closureParam ≠ l.options.expBinding) {n : String}
    {pos : Position} {e' : Expr} (h : (l.reference n pos).run ν = .ok (e', ν'))
    (hmem : closureParam ∈ e'.freeNames own) : l.Captures ν [n] := by
  rw [run_reference] at h
  split at h
  · rw [h.1] at hmem
    exact absurd (List.mem_singleton.mp hmem) hexp
  · rename_i hundefined
    split at h
    · rw [h.1, freeNames_builder] at hmem
      simp [hexp, Expr.freeNamesList, Expr.text, Expr.freeNames] at hmem
    · rename_i hglobal
      refine ⟨n, List.mem_singleton_self n, by simp [Primitives.mayCapture, hundefined, hglobal], ?_⟩
      intro hown
      rw [h.1, Names.fst_resolve, hown] at hmem
      simp [source, freeNames_builder, hexp, Expr.freeNamesList, Expr.text, Expr.freeNames] at hmem

mutual

/-- A lowered expression mentions the closure record only where a name is captured. -/
theorem captures_of_expr {ν ν' : Names} {e' : Expr} (hexp : closureParam ≠ l.options.expBinding) :
    ∀ e : Expr, (l.expr e).run ν = .ok (e', ν') → closureParam ∈ e'.freeNames own →
      l.Captures ν (e.freeNames own) := by
  intro e h hmem
  cases e with
  | name pos n => exact captures_of_reference own hexp h hmem
  | number | string | boolean =>
      obtain ⟨rfl, -⟩ := Prod.mk.inj (run_pure_eq_ok_iff.mp h)
      rw [freeNames_builder] at hmem
      simp [hexp, Expr.freeNamesList, Expr.freeNames, Expr.num, Expr.text] at hmem
  | null | function | call | assign | update => exact absurd h run_throw_ne_ok
  | array pos items =>
      simp only [expr, run_bind_eq_ok_iff, run_pure_eq_ok_iff, Prod.mk.injEq] at h
      obtain ⟨items', _, hitems, rfl, -⟩ := h
      refine captures_of_exprs hexp items hitems ?_
      simpa [freeNames_builder, hexp, Expr.freeNamesList, Expr.list, Expr.freeNames] using hmem
  | object pos entries =>
      simp only [expr, run_bind_eq_ok_iff, run_pure_eq_ok_iff, Prod.mk.injEq] at h
      obtain ⟨entries', _, hentries, rfl, -⟩ := h
      refine captures_of_fields hexp entries hentries ?_
      simpa [freeNames_builder, hexp, Expr.freeNamesList, Expr.record, Expr.freeNames] using hmem
  | member pos object property =>
      simp only [expr, run_bind_eq_ok_iff, run_pure_eq_ok_iff, Prod.mk.injEq] at h
      obtain ⟨object', _, hobject, rfl, -⟩ := h
      refine captures_of_expr hexp object hobject ?_
      simpa [freeNames_builder, hexp, Expr.freeNamesList, Expr.text, Expr.freeNames] using hmem
  | unary pos op operand =>
      simp only [expr, run_bind_eq_ok_iff, run_pure_eq_ok_iff, Prod.mk.injEq] at h
      obtain ⟨operand', _, hoperand, rfl, -⟩ := h
      refine captures_of_expr hexp operand hoperand ?_
      simpa [freeNames_builder, hexp, Expr.freeNamesList, Expr.text, Expr.freeNames] using hmem
  | index pos object index =>
      simp only [expr, run_bind_eq_ok_iff, run_pure_eq_ok_iff, Prod.mk.injEq] at h
      obtain ⟨object', ν₁, hobject, index', _, hindex, rfl, -⟩ := h
      have hparts : closureParam ∈ object'.freeNames own ∨ closureParam ∈ index'.freeNames own := by
        simpa [freeNames_builder, hexp, Expr.freeNamesList] using hmem
      rcases hparts with hleft | hright
      · exact (captures_of_expr hexp object hobject hleft).left
      · exact ((captures_of_expr hexp index hindex hright).before
          (uses_expr own object hobject)).right
  | binary pos op left right =>
      simp only [expr, run_bind_eq_ok_iff, run_pure_eq_ok_iff, Prod.mk.injEq] at h
      obtain ⟨left', ν₁, hleft, right', _, hright, rfl, -⟩ := h
      have hparts : closureParam ∈ left'.freeNames own ∨ closureParam ∈ right'.freeNames own := by
        simpa [freeNames_builder, hexp, Expr.freeNamesList, Expr.text, Expr.freeNames] using hmem
      rcases hparts with hmemLeft | hmemRight
      · exact (captures_of_expr hexp left hleft hmemLeft).left
      · exact ((captures_of_expr hexp right hright hmemRight).before
          (uses_expr own left hleft)).right
termination_by structural e => e

theorem captures_of_exprs {ν ν' : Names} {es' : List Expr}
    (hexp : closureParam ≠ l.options.expBinding) : ∀ es : List Expr,
    (l.exprs es).run ν = .ok (es', ν') → closureParam ∈ Expr.freeNamesList own es' →
      l.Captures ν (Expr.freeNamesList own es) := by
  intro es h hmem
  cases es with
  | nil =>
      obtain ⟨rfl, -⟩ := Prod.mk.inj (run_pure_eq_ok_iff.mp h)
      cases hmem
  | cons e es =>
      simp only [exprs, run_bind_eq_ok_iff, run_pure_eq_ok_iff, Prod.mk.injEq] at h
      obtain ⟨e', ν₁, he, es', _, hes, rfl, -⟩ := h
      rcases List.mem_append.mp hmem with hhere | hrest
      · exact (captures_of_expr hexp e he hhere).left
      · exact ((captures_of_exprs hexp es hes hrest).before (uses_expr own e he)).right
termination_by structural es => es

theorem captures_of_fields {ν ν' : Names} {es' : List (String × Expr)}
    (hexp : closureParam ≠ l.options.expBinding) : ∀ es : List (String × Expr),
    (l.fields es).run ν = .ok (es', ν') → closureParam ∈ Expr.freeNamesEntries own es' →
      l.Captures ν (Expr.freeNamesEntries own es) := by
  intro es h hmem
  cases es with
  | nil =>
      obtain ⟨rfl, -⟩ := Prod.mk.inj (run_pure_eq_ok_iff.mp h)
      cases hmem
  | cons entry es =>
      obtain ⟨key, e⟩ := entry
      simp only [fields, run_bind_eq_ok_iff, run_pure_eq_ok_iff, Prod.mk.injEq] at h
      obtain ⟨e', ν₁, he, es', _, hes, rfl, -⟩ := h
      rcases List.mem_append.mp hmem with hhere | hrest
      · exact (captures_of_expr hexp e he hhere).left
      · exact ((captures_of_fields hexp es hes hrest).before (uses_expr own e he)).right
termination_by structural es => es

end

end Lower

end TraceLoom
