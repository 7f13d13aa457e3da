import TraceLoom.Proofs.Instrument.FreeNames
import TraceLoom.Proofs.Instrument.Lowering

/-!
Nodes of names.  Instrumented programs build the node of a name by a call of a function of the
module of nodes.  What lowering makes of an expression builds nodes of names that the expression
uses, and of no others.
-/

namespace TraceLoom

open Script

/-! ## Nodes of names -/

namespace Script

variable (builder : String)

/-- The name whose node a call builds. -/
def builtName : Expr → List Expr → List String
  | .member _ (.name _ n) "identifier", [.string _ name] => if n = builder then [name] else []
  | _, _ => []

mutual

/-- The names whose nodes an expression builds, apart from the functions in it. -/
def Expr.builtNames : Expr → List String
  | .call _ callee args =>
    builtName builder callee args ++ (callee.builtNames ++ Expr.builtNamesList args)
  | .array _ items => Expr.builtNamesList items
  | .object _ entries => Expr.builtNamesEntries entries
  | .member _ base _ => base.builtNames
  | .index _ base key => base.builtNames ++ key.builtNames
  | .unary _ _ operand => operand.builtNames
  | .binary _ _ left right => left.builtNames ++ right.builtNames
  | .assign _ _ target value => target.builtNames ++ value.builtNames
  | .update _ _ _ target => target.builtNames
  | .number .. | .string .. | .boolean .. | .null _ | .name .. | .function .. => []
termination_by structural e => e

def Expr.builtNamesList : List Expr → List String
  | [] => []
  | e :: es => e.builtNames ++ Expr.builtNamesList es
termination_by structural es => es

def Expr.builtNamesEntries : List (String × Expr) → List String
  | [] => []
  | (_, e) :: es => e.builtNames ++ Expr.builtNamesEntries es
termination_by structural es => es

end

/-- The names whose nodes a statement builds, apart from the statements in it. -/
def Stmt.builtNames : Stmt → List String
  | .declare _ _ ds => ds.flatMap fun d => d.2.toList.flatMap (Expr.builtNames builder)
  | .ifElse _ test _ _ | .whileDo _ test _ => test.builtNames builder
  | .returnWith _ value => value.toList.flatMap (Expr.builtNames builder)
  | .expr _ e => e.builtNames builder
  | .function .. | .labeled .. | .breakTo .. | .block .. => []

section

variable {builder} (own : Option String → List String)

theorem mem_freeNames_of_builtName {callee : Expr} {args : List Expr} {n : String}
    (h : n ∈ builtName builder callee args) : builder ∈ callee.freeNames own := by
  unfold builtName at h
  split at h
  · split at h
    · rename_i hn
      exact hn ▸ List.mem_singleton_self _
    · cases h
  · cases h

mutual

/-- Only an expression that uses the module of nodes builds any. -/
theorem mem_freeNames_of_builtNames {n : String} :
    (e : Expr) → n ∈ e.builtNames builder → builder ∈ e.freeNames own
  | .call _ callee args, h => by
      rcases List.mem_append.mp h with hbuilt | hparts
      · exact List.mem_append_left _ (mem_freeNames_of_builtName own hbuilt)
      · exact List.mem_append.mpr ((List.mem_append.mp hparts).imp
          (mem_freeNames_of_builtNames callee) (mem_freeNames_of_builtNamesList args))
  | .array _ items, h => mem_freeNames_of_builtNamesList items h
  | .object _ entries, h => mem_freeNames_of_builtNamesEntries entries h
  | .member _ base _, h => mem_freeNames_of_builtNames base h
  | .index _ left right, h | .binary _ _ left right, h | .assign _ _ left right, h =>
      List.mem_append.mpr ((List.mem_append.mp h).imp (mem_freeNames_of_builtNames left)
        (mem_freeNames_of_builtNames right))
  | .unary _ _ operand, h => mem_freeNames_of_builtNames operand h
  | .update _ _ _ target, h => mem_freeNames_of_builtNames target h

theorem mem_freeNames_of_builtNamesList {n : String} : (es : List Expr) →
    n ∈ Expr.builtNamesList builder es → builder ∈ Expr.freeNamesList own es
  | e :: es, h => List.mem_append.mpr ((List.mem_append.mp h).imp
      (mem_freeNames_of_builtNames e) (mem_freeNames_of_builtNamesList es))

theorem mem_freeNames_of_builtNamesEntries {n : String} : (entries : List (String × Expr)) →
    n ∈ Expr.builtNamesEntries builder entries → builder ∈ Expr.freeNamesEntries own entries
  | (_, e) :: es, h => List.mem_append.mpr ((List.mem_append.mp h).imp
      (mem_freeNames_of_builtNames e) (mem_freeNames_of_builtNamesEntries es))

end

end

end Script

/-! ## Lowered expressions -/

namespace Lower

variable {l : Lower} {ν ν' : Names}

theorem builtNames_builder {name : String} (h : name ≠ "identifier") (args : List Expr) :
    (l.builder name args).builtNames l.options.expBinding =
      Expr.builtNamesList l.options.expBinding args := by
  change builtName _ (.dot (.ident l.options.expBinding) name) args ++ _ = _
  have hnone : builtName l.options.expBinding (.dot (.ident l.options.expBinding) name) args = [] := by
    unfold builtName Expr.dot
    split
    · rename_i heq
      cases heq
      exact absurd rfl h
    · rfl
  rw [hnone]
  rfl

theorem builtNames_identifier (n : String) :
    (l.builder "identifier" [.text n]).builtNames l.options.expBinding = [n] := by
  simp [builder, Expr.invoke, Expr.dot, Expr.ident, Expr.text, Expr.builtNames,
    Expr.builtNamesList, builtName]

theorem builtNames_source (n : String) (binding : Binding) :
    (l.source n binding).builtNames l.options.expBinding ⊆ [n] := by
  cases binding with
  | own => rw [source, builtNames_identifier]; exact List.Subset.refl _
  | captured =>
      have hfrom : "from" ≠ "identifier" := by decide
      rw [source, builtNames_builder hfrom]
      exact List.nil_subset _

theorem builtNames_reference {n : String} {pos : Position} {e' : Expr}
    (h : (l.reference n pos).run ν = .ok (e', ν')) :
    e'.builtNames l.options.expBinding ⊆ [n] := by
  rw [run_reference] at h
  split at h
  · rw [h.1]
    exact List.nil_subset _
  · split at h
    · rw [h.1, builtNames_identifier]
      exact List.Subset.refl _
    · rw [h.1]
      exact builtNames_source n _

theorem append_subset_append {xs xs' ys ys' : List String} (h : xs ⊆ ys) (h' : xs' ⊆ ys') :
    xs ++ xs' ⊆ ys ++ ys' :=
  List.append_subset.mpr
    ⟨List.subset_append_of_subset_left _ h, List.subset_append_of_subset_right _ h'⟩

variable (own : Option String → List String)

mutual

/-- Lowering builds nodes of names that the expression uses. -/
theorem builtNames_expr {ν ν' : Names} {e' : Expr} : ∀ e : Expr,
    (l.expr e).run ν = .ok (e', ν') → e'.builtNames l.options.expBinding ⊆ e.freeNames own := by
  intro e h
  cases e with
  | name pos n => exact builtNames_reference h
  | number | string | boolean =>
      obtain ⟨rfl, -⟩ := Prod.mk.inj (run_pure_eq_ok_iff.mp h)
      rw [builtNames_builder (by decide)]
      exact List.nil_subset _
  | null | function | call | assign | update => exact absurd h run_throw_ne_ok
  | array pos items =>
      simp only [expr, run_bind_eq_ok_iff, run_pure_eq_ok_iff, Prod.mk.injEq] at h
      obtain ⟨items', _, hitems, rfl, -⟩ := h
      rw [builtNames_builder (by decide)]
      simpa [Expr.builtNamesList, Expr.list, Expr.builtNames, Expr.freeNames] using
        builtNames_exprs items hitems
  | object pos entries =>
      simp only [expr, run_bind_eq_ok_iff, run_pure_eq_ok_iff, Prod.mk.injEq] at h
      obtain ⟨entries', _, hentries, rfl, -⟩ := h
      rw [builtNames_builder (by decide)]
      simpa [Expr.builtNamesList, Expr.record, Expr.builtNames, Expr.freeNames] using
        builtNames_fields entries hentries
  | member pos base property =>
      simp only [expr, run_bind_eq_ok_iff, run_pure_eq_ok_iff, Prod.mk.injEq] at h
      obtain ⟨base', _, hbase, rfl, -⟩ := h
      rw [builtNames_builder (by decide)]
      simpa [Expr.builtNamesList, Expr.text, Expr.builtNames, Expr.freeNames] using
        builtNames_expr base hbase
  | unary pos op operand =>
      simp only [expr, run_bind_eq_ok_iff, run_pure_eq_ok_iff, Prod.mk.injEq] at h
      obtain ⟨operand', _, hoperand, rfl, -⟩ := h
      rw [builtNames_builder (by decide)]
      simpa [Expr.builtNamesList, Expr.text, Expr.builtNames, Expr.freeNames] using
        builtNames_expr operand hoperand
  | index pos base key =>
      simp only [expr, run_bind_eq_ok_iff, run_pure_eq_ok_iff, Prod.mk.injEq] at h
      obtain ⟨base', ν₁, hbase, key', _, hkey, rfl, -⟩ := h
      rw [builtNames_builder (by decide)]
      simpa [Expr.builtNamesList, Expr.freeNames] using
        append_subset_append (builtNames_expr base hbase) (builtNames_expr key hkey)
  | binary pos op left right =>
      simp only [expr, run_bind_eq_ok_iff, run_pure_eq_ok_iff, Prod.mk.injEq] at h
      obtain ⟨left', ν₁, hleft, right', _, hright, rfl, -⟩ := h
      rw [builtNames_builder (by decide)]
      simpa [Expr.builtNamesList, Expr.text, Expr.builtNames, Expr.freeNames] using
        append_subset_append (builtNames_expr left hleft) (builtNames_expr right hright)
termination_by structural e => e

theorem builtNames_exprs {ν ν' : Names} {es' : List Expr} : ∀ es : List Expr,
    (l.exprs es).run ν = .ok (es', ν') →
      Expr.builtNamesList l.options.expBinding es' ⊆ Expr.freeNamesList own es := by
  intro es h
  cases es with
  | nil =>
      obtain ⟨rfl, -⟩ := Prod.mk.inj (run_pure_eq_ok_iff.mp h)
      exact List.nil_subset _
  | cons e es =>
      simp only [exprs, run_bind_eq_ok_iff, run_pure_eq_ok_iff, Prod.mk.injEq] at h
      obtain ⟨e', ν₁, he, es', _, hes, rfl, -⟩ := h
      exact append_subset_append (builtNames_expr e he) (builtNames_exprs es hes)
termination_by structural es => es

theorem builtNames_fields {ν ν' : Names} {es' : List (String × Expr)} :
    ∀ es : List (String × Expr), (l.fields es).run ν = .ok (es', ν') →
      Expr.builtNamesEntries l.options.expBinding es' ⊆ Expr.freeNamesEntries own es := by
  intro es h
  cases es with
  | nil =>
      obtain ⟨rfl, -⟩ := Prod.mk.inj (run_pure_eq_ok_iff.mp h)
      exact List.nil_subset _
  | cons entry es =>
      simp only [fields, run_bind_eq_ok_iff, run_pure_eq_ok_iff, Prod.mk.injEq] at h
      obtain ⟨e', ν₁, he, es', _, hes, rfl, -⟩ := h
      exact append_subset_append (builtNames_expr entry.2 he) (builtNames_fields es hes)
termination_by structural es => es

end

theorem builtNames_callee {e e' : Expr} (h : (l.callee e).run ν = .ok (e', ν')) :
    e'.builtNames l.options.expBinding ⊆ e.freeNames own := by
  unfold callee at h
  split at h
  · exact builtNames_reference h
  · exact absurd h run_throw_ne_ok
  · exact absurd h run_throw_ne_ok
  · rename_i base property _ _
    simp only [run_bind_eq_ok_iff, run_pure_eq_ok_iff, Prod.mk.injEq] at h
    obtain ⟨base', _, hbase, rfl, -⟩ := h
    rw [builtNames_builder (by decide)]
    simpa [Expr.builtNamesList, Expr.text, Expr.builtNames, Expr.freeNames] using
      builtNames_expr own base hbase
  · exact absurd h run_throw_ne_ok

theorem builtNames_target {e e' : Expr} (h : (l.target e).run ν = .ok (e', ν')) :
    e'.builtNames l.options.expBinding ⊆ e.freeNames own := by
  unfold target at h
  split at h
  · split at h
    · exact absurd h run_throw_ne_ok
    · exact builtNames_reference h
  · rename_i base property
    split at h
    · exact absurd h run_throw_ne_ok
    · simp only [run_bind_eq_ok_iff, run_pure_eq_ok_iff, Prod.mk.injEq] at h
      obtain ⟨base', _, hbase, rfl, -⟩ := h
      rw [builtNames_builder (by decide)]
      have hproperty : (l.builder "string" [.text property]).builtNames l.options.expBinding = [] :=
        builtNames_builder (by decide) _
      simpa [Expr.builtNamesList, hproperty, Expr.freeNames] using builtNames_expr own base hbase
  · rename_i base key
    split at h
    · exact absurd h run_throw_ne_ok
    · rw [run_bind_eq_ok_iff] at h
      obtain ⟨ν₀, _, hget, h⟩ := h
      obtain ⟨rfl, rfl⟩ := Prod.mk.inj (run_get_eq_ok_iff.mp hget)
      split at h
      · obtain ⟨_, _, hrefuse, -⟩ := run_bind_eq_ok_iff.mp h
        exact absurd hrefuse run_throw_ne_ok
      · simp only [run_bind_eq_ok_iff, run_pure_eq_ok_iff, Prod.mk.injEq] at h
        obtain ⟨base', ν₁, hbase, key', _, hkey, rfl, -⟩ := h
        rw [builtNames_builder (by decide)]
        simpa [Expr.builtNamesList, Expr.freeNames] using
          append_subset_append (builtNames_expr own base hbase) (builtNames_expr own key hkey)
  · exact absurd h run_throw_ne_ok

/-- A closure record has nodes of the variable that holds the function and of what it captures. -/
theorem builtNames_closureRecord (self : Option (String × String))
    (sources : List (String × Binding)) :
    (l.closureRecord self sources).builtNames l.options.expBinding ⊆
      self.toList.map (·.2) ++ sources.map (·.1) := by
  have hentries : ∀ entries : List (String × Expr), Expr.builtNamesEntries l.options.expBinding
      entries = entries.flatMap fun entry => entry.2.builtNames l.options.expBinding := by
    intro entries
    induction entries with
    | nil => rfl
    | cons entry entries ih => rw [Expr.builtNamesEntries, ih, List.flatMap_cons]
  rw [closureRecord, builtNames_builder (by decide)]
  intro n hn
  simp only [Expr.builtNamesList, Expr.record, Expr.builtNames, hentries, List.append_nil,
    List.flatMap_append, List.flatMap_map, List.mem_append, List.mem_flatMap] at hn
  rw [List.mem_append, List.mem_map, List.mem_map]
  refine hn.imp ?_ ?_
  · rintro ⟨entry, hentry, hn⟩
    exact ⟨entry, hentry, (List.mem_singleton.mp (builtNames_source _ _ hn)).symm⟩
  · rintro ⟨entry, hentry, hn⟩
    exact ⟨entry, hentry, (List.mem_singleton.mp (builtNames_source _ _ hn)).symm⟩

end Lower

end TraceLoom
