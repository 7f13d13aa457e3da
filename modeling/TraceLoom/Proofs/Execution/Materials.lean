import TraceLoom.Proofs.Execution.Inserted
import TraceLoom.Proofs.Execution.Realms

/-!
What inserted calls of natives are given: plain traces, and lists and records of them.  From these
the constructors make plain traces, and what the recorder is asked to record is plain as well.
-/

namespace TraceLoom

open Script Instrument

/-- A value that inserted code passes on: it has no parts, or else plain traces for parts. -/
def Value.TameIn (s : Store) : Value → Prop
  | .array place => place < s.arrays.size ∧ ∀ v ∈ s.items place, v.Inert
  | .object place => place < s.objects.size ∧ (s.properties place).keys.Nodup ∧
      ∀ field ∈ s.properties place, field.2.Inert
  | v => v.Inert

theorem Value.Inert.tameIn {v : Value} (h : v.Inert) (s : Store) : v.TameIn s := by
  cases v <;> first | exact h | exact h.elim

theorem Value.Inert.reaches {v : Value} (h : v.Inert) {R : Realm} (hR : R.vocabulary = reread) :
    v.Reaches R := by
  cases v with
  | array | object | native => exact h.elim
  | function i closure => exact (hR ▸ h : closure.Proper R.vocabulary)
  | _ => trivial

theorem Value.TameIn.grows {s t : Store} {v : Value} (h : v.TameIn s) (hgrows : s.Grows t) :
    v.TameIn t := by
  cases v with
  | array place =>
      obtain ⟨hlt, hitems⟩ := h
      exact ⟨Nat.lt_of_lt_of_le hlt hgrows.arrays, by rwa [hgrows.items place hlt]⟩
  | object place =>
      obtain ⟨hlt, hkeys, hfields⟩ := h
      have hsame := hgrows.properties place hlt
      exact ⟨Nat.lt_of_lt_of_le hlt hgrows.objects, by rwa [hsame], by rwa [hsame]⟩
  | _ => exact h

/-- What variables are bound to that are taken from a list. -/
theorem inert_of_destructure {s : Store} {v : Value} (hv : v.TameIn s) {names : List String}
    {bound : List (String × Value)} (h : s.destructure names v = .ok bound) :
    ∀ entry ∈ bound, entry.1 ∈ names ∧ entry.2.Inert := by
  cases v with
  | array place =>
      cases h
      rw [List.forall_mem_map]
      intro entry hentry
      refine ⟨List.fst_mem_of_mem_zipIdx hentry, ?_⟩
      cases hitem : (s.items place)[entry.2]? with
      | none => trivial
      | some item => exact hv.2 item (Array.mem_of_getElem? hitem)
  | _ => cases h

theorem inert_of_forall₂ {ts : List Trace} {vs : List Value} (h : List.Forall₂ IsTraceOf ts vs)
    (hts : ∀ t ∈ ts, Trace.Plain t) : ∀ v ∈ vs, v.Inert := by
  induction h with
  | nil => exact nofun
  | cons hv _ ih =>
      obtain ⟨identity, rfl⟩ := hv
      obtain ⟨ht, hts⟩ := List.forall_mem_cons.mp hts
      exact List.forall_mem_cons.mpr ⟨ht, ih hts⟩

theorem tameIn_newTraces {ts : List Trace} (hts : ∀ t ∈ ts, Trace.Plain t) (s : Store) :
    (s.newTraces ts).1.TameIn (s.newTraces ts).2 := by
  obtain ⟨place, hplace, -, hitems⟩ := Store.newTraces_grows ts s
  have hlt : place < (s.newTraces ts).2.arrays.size := by
    rw [newTraces_eq] at hplace ⊢
    cases hplace
    simp [Store.newArray]
  rw [hplace]
  exact ⟨hlt, fun v hv => inert_of_forall₂ hitems hts v (Array.mem_toList_iff.mpr hv)⟩

/-! ## Arguments -/

theorem forall₂_of_mapM {α β ε : Type} {f : α → Except ε β} {xs : List α} {ys : List β}
    (h : xs.mapM f = .ok ys) : List.Forall₂ (fun x y => f x = .ok y) xs ys := by
  induction xs generalizing ys with
  | nil =>
      cases h
      exact .nil
  | cons x xs ih =>
      rw [List.mapM_cons] at h
      cases hx : f x with
      | error e =>
          rw [hx] at h
          cases h
      | ok y =>
          rw [hx] at h
          cases hxs : xs.mapM f with
          | error e =>
              rw [hxs] at h
              cases h
          | ok zs =>
              rw [hxs] at h
              cases h
              exact .cons hx (ih hxs)

namespace Arguments

variable {a : Arguments} {v : Value} {t : Trace}

theorem plain_of_asTrace (hv : v.Inert) (h : a.asTrace v = .ok t) : t.Plain := by
  cases v <;> cases h
  exact hv

theorem plain_of_mapM_asTrace {vs : List Value} (hvs : ∀ v ∈ vs, v.Inert) {ts : List Trace}
    (h : vs.mapM a.asTrace = .ok ts) : ∀ t ∈ ts, t.Plain := by
  have hall := forall₂_of_mapM h
  clear h
  induction hall with
  | nil => exact List.forall_mem_nil _
  | cons hx _ ih =>
      obtain ⟨hv, hvs⟩ := List.forall_mem_cons.mp hvs
      exact List.forall_mem_cons.mpr ⟨plain_of_asTrace hv hx, ih hvs⟩

theorem plain_of_mapM_fields {fs : Fields Value} (hfs : ∀ field ∈ fs, field.2.Inert)
    {gs : Fields Trace}
    (h : fs.mapM (fun field => return (field.1, ← a.asTrace field.2)) = .ok gs) :
    gs.keys = fs.keys ∧ ∀ field ∈ gs, field.2.Plain := by
  have hall := forall₂_of_mapM h
  clear h
  induction hall with
  | nil => exact ⟨rfl, nofun⟩
  | @cons f g _ _ hx _ ih =>
      obtain ⟨hf, hfs⟩ := List.forall_mem_cons.mp hfs
      obtain ⟨hkeys, hplain⟩ := ih hfs
      cases ht : a.asTrace f.2 with
      | error e =>
          rw [ht] at hx
          cases hx
      | ok t =>
          rw [ht] at hx
          cases hx
          exact ⟨congrArg (f.1 :: ·) hkeys,
            List.forall_mem_cons.mpr ⟨plain_of_asTrace hf ht, hplain⟩⟩

section

variable (ha : ∀ v ∈ a.values, v.TameIn a.store)

include ha

theorem tameIn_value (i : Nat) : (a.value i).TameIn a.store := by
  rw [value]
  cases hi : a.values[i]? with
  | none => trivial
  | some v => exact ha v (List.mem_of_getElem? hi)

theorem plain_of_trace {i : Nat} (h : a.trace i = .ok t) : t.Plain := by
  have hv := tameIn_value ha i
  rw [trace] at h
  cases hvalue : a.value i <;> rw [hvalue] at h hv <;> cases h
  exact hv

theorem plain_of_traces {i : Nat} {ts : List Trace} (h : a.traces i = .ok ts) : ∀ t ∈ ts, t.Plain := by
  have hv := tameIn_value ha i
  rw [traces] at h
  cases hvalue : a.value i with
  | array place =>
      rw [hvalue] at h hv
      exact plain_of_mapM_asTrace (fun v hmem => hv.2 v (Array.mem_toList_iff.mp hmem)) h
  | _ =>
      rw [hvalue] at h
      cases h

theorem plain_of_fields {i : Nat} {fs : Fields Trace} (h : a.fields i = .ok fs) :
    fs.keys.Nodup ∧ ∀ field ∈ fs, field.2.Plain := by
  have hv := tameIn_value ha i
  rw [fields] at h
  cases hvalue : a.value i with
  | object place =>
      rw [hvalue] at h hv
      obtain ⟨-, hkeys, hfields⟩ := hv
      obtain ⟨hsame, hplain⟩ := plain_of_mapM_fields hfields h
      exact ⟨hsame ▸ hkeys, hplain⟩
  | _ =>
      rw [hvalue] at h
      cases h

theorem plain_of_target {i : Nat} {x : Target} (h : a.target i = .ok x) : ∀ t ∈ x.exps, t.Plain := by
  rw [target] at h
  obtain ⟨t, ht, h⟩ := exists_of_bind h
  cases hx : t.toTarget? with
  | none =>
      rw [hx] at h
      cases h
  | some y =>
      rw [hx] at h
      cases h
      exact (plain_of_trace ha ht).target hx

end

end Arguments

/-! ## What is made of them -/

open Arguments

variable {s : Store} {name : String} {vs : List Value}

theorem plain_of_build_number {t : Trace} (h : Builder.build ⟨"number", vs, s⟩ = .ok t) : t.Plain := by
  obtain ⟨x, -, ⟨⟩⟩ := exists_of_bind h
  exact Trace.plain_leaf rfl rfl rfl

/-- The constructors of plain traces. -/
theorem plain_of_build (hname : name ∈ builders)
    (hvs : ∀ v ∈ vs, v.TameIn s) {t : Trace} (h : Builder.build ⟨name, vs, s⟩ = .ok t) :
    t.Plain := by
  simp only [builders, List.mem_cons, List.not_mem_nil, or_false] at hname
  rcases hname with rfl | rfl | rfl | rfl | rfl | rfl | rfl | rfl | rfl | rfl | rfl | rfl | rfl
  iterate 3
    · -- a boolean, a string or a name
      obtain ⟨x, -, ⟨⟩⟩ := exists_of_bind h
      exact Trace.plain_leaf rfl rfl rfl
  iterate 2
    · -- a field, be it of a closure record or of an object
      obtain ⟨base, hbase, h⟩ := exists_of_bind h
      obtain ⟨field, -, ⟨⟩⟩ := exists_of_bind h
      exact Trace.plain_of_children rfl rfl (List.forall_mem_singleton.mpr (plain_of_trace hvs hbase))
  · obtain ⟨symbol, -, h⟩ := exists_of_bind h
    cases hop : BinaryOp.ofSymbol? symbol with
    | none =>
        rw [hop] at h
        cases h
    | some op =>
        rw [hop] at h
        obtain ⟨left, hleft, h⟩ := exists_of_bind h
        obtain ⟨right, hright, ⟨⟩⟩ := exists_of_bind h
        exact Trace.plain_of_children rfl rfl (List.forall_mem_cons.mpr
          ⟨plain_of_trace hvs hleft, List.forall_mem_singleton.mpr (plain_of_trace hvs hright)⟩)
  · obtain ⟨symbol, -, h⟩ := exists_of_bind h
    cases hop : UnaryOp.ofSymbol? symbol with
    | none =>
        rw [hop] at h
        cases h
    | some op =>
        rw [hop] at h
        obtain ⟨operand, hoperand, ⟨⟩⟩ := exists_of_bind h
        exact Trace.plain_of_children rfl rfl
          (List.forall_mem_singleton.mpr (plain_of_trace hvs hoperand))
  iterate 2
    · -- a closure record or an object
      obtain ⟨fields, hfields, ⟨⟩⟩ := exists_of_bind h
      obtain ⟨hkeys, hplain⟩ := plain_of_fields hvs hfields
      exact Trace.plain_of_children rfl (decide_eq_true hkeys) (Trace.forall_fieldTraces rfl hplain)
  · obtain ⟨items, hitems, ⟨⟩⟩ := exists_of_bind h
    exact Trace.plain_of_children rfl rfl
      (by simpa [Trace.children, Trace.parts] using plain_of_traces hvs hitems)
  · obtain ⟨base, hbase, h⟩ := exists_of_bind h
    obtain ⟨key, hkey, ⟨⟩⟩ := exists_of_bind h
    exact Trace.plain_of_children rfl rfl (List.forall_mem_cons.mpr
      ⟨plain_of_trace hvs hbase, List.forall_mem_singleton.mpr (plain_of_trace hvs hkey)⟩)
  · obtain ⟨base, hbase, h⟩ := exists_of_bind h
    obtain ⟨method, -, h⟩ := exists_of_bind h
    obtain ⟨args, hargs, ⟨⟩⟩ := exists_of_bind h
    exact Trace.plain_of_children rfl rfl (by
      simpa [Trace.children, Trace.parts] using
        ⟨plain_of_trace hvs hbase, plain_of_traces hvs hargs⟩)
  · obtain ⟨event, -, h⟩ := exists_of_bind h
    obtain ⟨args, hargs, ⟨⟩⟩ := exists_of_bind h
    exact Trace.plain_of_children rfl rfl
      (by simpa [Trace.children, Trace.parts] using plain_of_traces hvs hargs)

theorem plain_of_traceFunctionBody {op : Operation}
    (h : Operation.ofArguments ⟨"traceFunctionBody", vs, s⟩ = .ok op) :
    op.Plain ∧ ∀ c, (op.plan? c).isSome = true := by
  obtain ⟨label, -, h⟩ := exists_of_bind h
  obtain ⟨count, -, ⟨⟩⟩ := exists_of_bind h
  exact ⟨List.forall_mem_nil _, fun _ => rfl⟩

/-- What inserted calls ask the recorder for. -/
theorem plain_of_ofArguments (hname : name ∈ recordings)
    (hvs : ∀ v ∈ vs, v.TameIn s) {op : Operation}
    (h : Operation.ofArguments ⟨name, vs, s⟩ = .ok op) :
    op.Plain ∧ ∀ c, (op.plan? c).isSome = true := by
  simp only [recordings, List.mem_cons, List.not_mem_nil, or_false] at hname
  rcases hname with rfl | rfl | rfl | rfl | rfl | rfl | rfl | rfl | rfl | rfl | rfl | rfl
  iterate 2
    · -- a new trace, or the end of a block
      cases h
      exact ⟨List.forall_mem_nil _, fun _ => rfl⟩
  · obtain ⟨n, -, h⟩ := exists_of_bind h
    obtain ⟨t, ht, ⟨⟩⟩ := exists_of_bind h
    exact ⟨List.forall_mem_singleton.mpr (plain_of_trace hvs ht), fun _ => rfl⟩
  · obtain ⟨x, hx, h⟩ := exists_of_bind h
    obtain ⟨t, ht, ⟨⟩⟩ := exists_of_bind h
    exact ⟨List.forall_mem_append.mpr ⟨plain_of_target hvs hx,
      List.forall_mem_singleton.mpr (plain_of_trace hvs ht)⟩, fun _ => rfl⟩
  · obtain ⟨event, -, h⟩ := exists_of_bind h
    obtain ⟨ts, hts, ⟨⟩⟩ := exists_of_bind h
    exact ⟨plain_of_traces hvs hts, fun _ => rfl⟩
  iterate 3
    · -- a branch or a loop
      obtain ⟨t, ht, ⟨⟩⟩ := exists_of_bind h
      exact ⟨List.forall_mem_singleton.mpr (plain_of_trace hvs ht), fun _ => rfl⟩
  · cases h
    exact ⟨List.forall_mem_nil _, fun _ => rfl⟩
  · obtain ⟨label, -, ⟨⟩⟩ := exists_of_bind h
    exact ⟨List.forall_mem_nil _, fun _ => rfl⟩
  · obtain ⟨label, -, h⟩ := exists_of_bind h
    obtain ⟨t, ht, ⟨⟩⟩ := exists_of_bind h
    exact ⟨List.forall_mem_singleton.mpr (plain_of_trace hvs ht), fun _ => rfl⟩
  · obtain ⟨n, -, h⟩ := exists_of_bind h
    obtain ⟨ts, hts, ⟨⟩⟩ := exists_of_bind h
    exact ⟨plain_of_traces hvs hts, fun _ => rfl⟩

end TraceLoom
