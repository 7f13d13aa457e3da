import TraceLoom.Proofs.Script.ProperPhrases

/-!
Reading expressions from an orderly text.  Whatever the parts of the parser read with some fuel is
proper; then so is what they read with more.
-/

namespace TraceLoom.Script

open TraceLoom.Script.Parser

variable {V : Vocabulary} {fresh : Bool} {c c' rest : Cursor} {n : Nat} {good : Prop} {s : String}

/-! ## Phrases -/

/-- What is read with some fuel keeps all in order. -/
structure ReadsProperly (V : Vocabulary) (fuel : Nat) : Prop where
  assignment {c c' : Cursor} {r : Reading Expr} (hc : Orderly V false c)
    (hfuel : 16 * c.size + 4 ≤ fuel) (h : assignment fuel c = some (r, c')) :
    Sane V c.size (Expr.Proper V) r c'
  conditional {pos : Position} {first r : Reading Expr} {c c' : Cursor}
    (h : conditional fuel pos first c = (r, c')) : Continues V fuel first c r c'
  operations {c c' : Cursor} {ops : List (BinaryOp × Reading Expr)} (hc : Orderly V true c)
    (hfuel : 16 * c.size + 4 ≤ fuel) (h : operations fuel c = (ops, c'))
    (hok : ∀ p ∈ ops, ∃ x, p.2 = .ok x) : After V (c.size + 1) (AllProper V (ops.map (·.2))) c'
  operand {c c' : Cursor} {r : Reading Expr} (hc : Orderly V false c)
    (hfuel : 16 * c.size + 3 ≤ fuel) (h : operand fuel c = some (r, c')) :
    Sane V c.size (Expr.Proper V) r c'
  postfixes {target r : Reading Expr} {c c' : Cursor} (h : postfixes fuel target c = (r, c')) :
    Continues V fuel target c r c'
  chain {c c' : Cursor} {r : Reading Expr} (hc : Orderly V false c)
    (hfuel : 16 * c.size + 2 ≤ fuel) (h : chain fuel c = some (r, c')) :
    Sane V c.size (Expr.Proper V) r c'
  suffixes {pos : Position} {head r : Reading Expr} {c c' : Cursor}
    (h : suffixes fuel pos head c = (r, c')) : Continues V fuel head c r c'
  suffix {pos : Position} {head r : Reading Expr} {c c' : Cursor}
    (h : suffix fuel pos head c = some (r, c')) :
    ∀ e, r = .ok e → ∃ x, head = .ok x ∧
      (16 * c.size + 4 ≤ fuel → ∀ n, After V n (x.Proper V) c → After V c.size (e.Proper V) c')
  expressions {c c' : Cursor} {rs : List (Reading Expr)} (hc : Orderly V false c)
    (hfuel : 16 * c.size + 5 ≤ fuel) (h : expressions fuel c = some (rs, c')) :
    Sane V (c.size + 1) (fun es => ∀ e ∈ es, e.Proper V) (all rs) c'
  moreExpressions {c c' : Cursor} {rs : List (Reading Expr)} (hc : Orderly V true c)
    (hfuel : 16 * c.size + 1 ≤ fuel) (h : moreExpressions fuel c = (rs, c')) :
    Sane V (c.size + 1) (fun es => ∀ e ∈ es, e.Proper V) (all rs) c'
  primary {c c' : Cursor} {r : Reading Expr} (hc : Orderly V false c)
    (hfuel : 16 * c.size + 1 ≤ fuel) (h : primary fuel c = some (r, c')) :
    Sane V c.size (Expr.Proper V) r c'
  properties {c c' : Cursor} {rs : List (Reading (String × Expr))} (hc : Orderly V true c)
    (hfuel : 16 * c.size + 2 ≤ fuel) (h : properties fuel c = some (rs, c')) :
    Sane V (c.size + 1) (fun entries => ∀ entry ∈ entries, entry.2.Proper V) (all rs) c'
  moreProperties {c c' : Cursor} {rs : List (Reading (String × Expr))} (hc : Orderly V true c)
    (hfuel : 16 * c.size + 1 ≤ fuel) (h : moreProperties fuel c = (rs, c')) :
    Sane V (c.size + 1) (fun entries => ∀ entry ∈ entries, entry.2.Proper V) (all rs) c'
  property {c c' : Cursor} {r : Reading (String × Expr)} (hc : Orderly V true c)
    (hfuel : 16 * c.size + 1 ≤ fuel) (h : property fuel c = some (r, c')) :
    Sane V c.size (fun entry => entry.2.Proper V) r c'
  functionTail {pos : Position} {c c' : Cursor} {r : Reading (List String × List Stmt)}
    (hc : Orderly V false c) (hfuel : 16 * c.size + 1 ≤ fuel)
    (h : functionTail fuel pos c = some (r, c')) :
    Sane V c.size (fun tail => (∀ n ∈ tail.1, V.own n) ∧ Stmt.ProperList V tail.2) r c'
  block {fresh : Bool} {c c' : Cursor} {r : Reading (List Stmt)} (hc : Orderly V fresh c)
    (hfuel : 16 * c.size + 1 ≤ fuel) (h : block fuel c = some (r, c')) :
    Sane V c.size (Stmt.ProperList V) r c'
  statements {c c' : Cursor} {r : Reading (List Stmt)} (hc : Orderly V true c)
    (hfuel : 16 * c.size + 11 ≤ fuel) (h : statements fuel c = (r, c')) :
    Sane V (c.size + 1) (Stmt.ProperList V) r c'
  statement {c c' : Cursor} {r : Reading (Option Stmt)} (hc : Orderly V true c)
    (hfuel : 16 * c.size + 10 ≤ fuel) (h : statement fuel c = some (r, c')) :
    Sane V c.size (fun s => ∀ t ∈ s, t.Proper V) r c'
  special {c c' : Cursor} {r : Reading (Option Stmt)} (hc : Orderly V false c)
    (hfuel : 16 * c.size + 5 ≤ fuel) (h : special fuel c = some (r, c')) :
    Sane V c.size (fun s => ∀ t ∈ s, t.Proper V) r c'
  parenthesized {c c' : Cursor} {r : Reading Expr} (hc : Orderly V false c)
    (hfuel : 16 * c.size + 1 ≤ fuel) (h : parenthesized fuel c = some (r, c')) :
    ∀ x, r = .ok x → x.Proper V ∧ Orderly V false c' ∧ c'.size < c.size
  declarator {c c' : Cursor} {r : Reading (Pattern × Option Expr)} (hc : Orderly V false c)
    (hfuel : 16 * c.size + 1 ≤ fuel) (h : declarator fuel c = some (r, c')) :
    Sane V c.size (fun d => (∀ n ∈ d.1.names, V.own n) ∧ ∀ e ∈ d.2, e.Proper V) r c'
  moreDeclarators {c c' : Cursor} {rs : List (Reading (Pattern × Option Expr))}
    (hc : Orderly V true c) (hfuel : 16 * c.size + 1 ≤ fuel)
    (h : moreDeclarators fuel c = (rs, c')) :
    Sane V (c.size + 1)
      (fun ds => ∀ d ∈ ds, (∀ n ∈ d.1.names, V.own n) ∧ ∀ e ∈ d.2, e.Proper V) (all rs) c'

namespace ReadsProperly

variable {fuel : Nat}

theorem assignment_succ (h : ReadsProperly V fuel) {r : Reading Expr} (hc : Orderly V false c)
    (hfuel : 16 * c.size + 4 ≤ fuel + 1) (hread : Parser.assignment (fuel + 1) c = some (r, c')) :
    Sane V c.size (Expr.Proper V) r c' := by
  intro e he
  unfold Parser.assignment at hread
  dsimp only at hread
  split at hread
  · obtain ⟨⟨first, c₁⟩, hfirst, heq⟩ := Option.map_eq_some_iff.mp hread
    have hcond : Parser.conditional fuel c.skip.pos first c₁ = (r, c') := heq
    obtain ⟨x, hx, hafter⟩ := h.conditional hcond e he
    have hx := h.operand hc (by omega) hfirst x hx
    have hlt := hx.size
    exact hafter (by omega) _ hx
  · split at hread
    · cases hread
    · rename_i target c₁ hchain
      split at hread
      · rename_i phrase hassigned
        cases hread
        obtain ⟨⟨op, c₂⟩, hop, hassigned⟩ := Option.bind_eq_some_iff.mp hassigned
        obtain ⟨⟨value, c₃⟩, hvalue, heq⟩ := Option.bind_eq_some_iff.mp hassigned
        cases heq
        obtain ⟨x, y, hx, hy, rfl⟩ := assign_eq_ok he
        have hx := h.chain hc (by omega) hchain x hx
        obtain ⟨hc₂, hsize⟩ := hx.orderly.assignOp? hop
        have hlt := hx.size
        have hy := h.assignment hc₂ (by omega) hvalue y hy
        have hgood := hx.good.resolve_right fun hstuck => by simp [hstuck.assignOp?] at hop
        exact (hy.mono (by omega)).imp fun hy => ⟨hgood, hy⟩
      · rename_i hnone
        cases hpost : Parser.postfixes fuel target c₁ with
        | mk first c₂ =>
            rw [hpost] at hread
            have hcond : Parser.conditional fuel c.skip.pos first c₂ = (r, c') :=
              Option.some.inj hread
            obtain ⟨x, hx, hafter⟩ := h.conditional hcond e he
            obtain ⟨y, hy, hafter'⟩ := h.postfixes hpost x hx
            have hy := h.chain hc (by omega) hchain y hy
            have hlt := hy.size
            have hx := hafter' (by omega) _ hy
            have hlt := hx.size
            exact hafter (by omega) _ hx

theorem operations_stuck (hc : Stuck c) : Parser.operations fuel c = ([], c) := by
  cases fuel with
  | zero => rfl
  | succ fuel => simp [Parser.operations, Stuck.infixOp? hc]

theorem conditional_succ (h : ReadsProperly V fuel) {pos : Position} {first r : Reading Expr}
    (hread : Parser.conditional (fuel + 1) pos first c = (r, c')) :
    Continues V (fuel + 1) first c r c' := by
  intro e he
  unfold Parser.conditional at hread
  cases hops : Parser.operations fuel c with
  | mk operands c₁ =>
      rw [hops] at hread
      dsimp only at hread
      split at hread
      · cases hread
        cases htest : combine [] first operands with
        | error => rw [htest] at he; cases he
        | ok => rw [htest] at he; cases he
      · cases hread
        obtain ⟨⟨-, ⟨x, rfl⟩, hoperands⟩, hproper⟩ := combine_ok (V := V) he
        refine ⟨x, rfl, fun hfuel n hafter => ?_⟩
        obtain hgood | hstuck := hafter.good
        · have hrest := h.operations hafter.orderly (by omega) hops hoperands
          refine (hrest.mono hafter.size).imp fun hall => ?_
          exact hproper (by simpa [AllProper] using hgood) hall
        · rw [operations_stuck hstuck] at hops
          cases hops
          exact ⟨hafter.orderly, hafter.size, .inr hstuck⟩

theorem operations_succ (h : ReadsProperly V fuel) {ops : List (BinaryOp × Reading Expr)}
    (hc : Orderly V true c) (hfuel : 16 * c.size + 4 ≤ fuel + 1)
    (hread : Parser.operations (fuel + 1) c = (ops, c')) (hok : ∀ p ∈ ops, ∃ x, p.2 = .ok x) :
    After V (c.size + 1) (AllProper V (ops.map (·.2))) c' := by
  unfold Parser.operations at hread
  split at hread
  · rename_i op right c₂ hstep
    obtain ⟨⟨op', c₁⟩, hop, hstep⟩ := Option.bind_eq_some_iff.mp hstep
    obtain ⟨⟨right', c₂'⟩, hright, heq⟩ := Option.map_eq_some_iff.mp hstep
    cases heq
    cases hrest : Parser.operations fuel c₂ with
    | mk others c₃ =>
        rw [hrest] at hread
        cases hread
        obtain ⟨⟨x, hx⟩, hothers⟩ := List.forall_mem_cons.mp hok
        obtain ⟨hc₁, hsize⟩ := hc.infixOp? hop
        have hafter := h.operand hc₁ (by omega) hright x hx
        have hlt := hafter.size
        obtain hgood | hstuck := hafter.good
        · have hrest := h.operations hafter.orderly (by omega) hrest hothers
          refine (hrest.mono (by omega)).imp fun hall => List.forall_mem_cons.mpr ⟨?_, hall⟩
          rintro y hy
          cases hx.symm.trans hy
          exact hgood
        · rw [operations_stuck hstuck] at hrest
          cases hrest
          exact ⟨hafter.orderly, by omega, .inr hstuck⟩
  · cases hread
    exact ⟨hc, Nat.lt_succ_self _, .inl (List.forall_mem_nil _)⟩

theorem operand_succ (h : ReadsProperly V fuel) {r : Reading Expr} (hc : Orderly V false c)
    (hfuel : 16 * c.size + 3 ≤ fuel + 1) (hread : Parser.operand (fuel + 1) c = some (r, c')) :
    Sane V c.size (Expr.Proper V) r c' := by
  intro e he
  unfold Parser.operand at hread
  split at hread
  · rename_i op pos c₁ hop
    obtain ⟨⟨inner, c₂⟩, hinner, heq⟩ := Option.map_eq_some_iff.mp hread
    cases heq
    obtain ⟨hc₁, hsize⟩ := hc.prefixOp? hop
    obtain ⟨x, hx, hproper⟩ := applyPrefix_eq_ok (V := V) he
    exact ((h.operand hc₁ (by omega) hinner x hx).mono (by omega)).imp hproper
  · obtain ⟨⟨target, c₁⟩, htarget, heq⟩ := Option.map_eq_some_iff.mp hread
    have hpost : Parser.postfixes fuel target c₁ = (r, c') := heq
    obtain ⟨x, hx, hafter⟩ := h.postfixes hpost e he
    have hx := h.chain hc (by omega) htarget x hx
    have hlt := hx.size
    exact hafter (by omega) _ hx

theorem postfixes_succ (h : ReadsProperly V fuel) {target r : Reading Expr}
    (hread : Parser.postfixes (fuel + 1) target c = (r, c')) :
    Continues V (fuel + 1) target c r c' := by
  intro e he
  unfold Parser.postfixes at hread
  split at hread
  · rename_i s pos c₁ hnext
    split at hread
    · rename_i op hop
      obtain ⟨x, hx, hafter⟩ := h.postfixes hread e he
      obtain ⟨y, hy, hproper⟩ := applyPostfix_eq_ok (V := V) hx
      refine ⟨y, hy, fun hfuel n hn => ?_⟩
      have hs := updateOp?_eq hop
      obtain ⟨hgood, hc₁, hsize⟩ := hn.symbol? (Cursor.symbol?_eq_some_iff.mpr ⟨pos, hnext⟩)
        (by rw [hs]; cases op <;> decide) (by rw [hs]; cases op <;> decide)
      have hlt := Cursor.next?_size hnext
      exact hafter (by dsimp only at hlt; omega) n ⟨hc₁.relax, hsize, .inl (hproper hgood)⟩
    · cases hread
      exact ⟨e, he, fun _ _ hn => hn⟩
  · cases hread
    exact ⟨e, he, fun _ _ hn => hn⟩

theorem chain_succ (h : ReadsProperly V fuel) {r : Reading Expr} (hc : Orderly V false c)
    (hfuel : 16 * c.size + 2 ≤ fuel + 1) (hread : Parser.chain (fuel + 1) c = some (r, c')) :
    Sane V c.size (Expr.Proper V) r c' := by
  intro e he
  unfold Parser.chain at hread
  obtain ⟨⟨head, c₁⟩, hhead, heq⟩ := Option.map_eq_some_iff.mp hread
  have hsuffixes : Parser.suffixes fuel c.skip.pos head c₁ = (r, c') := heq
  obtain ⟨x, hx, hafter⟩ := h.suffixes hsuffixes e he
  have hx := h.primary hc (by omega) hhead x hx
  have hlt := hx.size
  exact hafter (by omega) _ hx

theorem suffixes_succ (h : ReadsProperly V fuel) {pos : Position} {head r : Reading Expr}
    (hread : Parser.suffixes (fuel + 1) pos head c = (r, c')) :
    Continues V (fuel + 1) head c r c' := by
  intro e he
  unfold Parser.suffixes at hread
  split at hread
  · rename_i longer c₁ hsuffix
    obtain ⟨x, hx, hafter⟩ := h.suffixes hread e he
    obtain ⟨y, hy, hlonger⟩ := h.suffix hsuffix x hx
    refine ⟨y, hy, fun hfuel n hn => ?_⟩
    have hx := hlonger (by omega) n hn
    have hlt := hx.size
    exact hafter (by omega) n (hx.mono (Nat.le_of_lt hn.size))
  · cases hread
    exact ⟨e, he, fun _ _ hn => hn⟩

theorem suffix_succ (h : ReadsProperly V fuel) {pos : Position} {head r : Reading Expr}
    (hread : Parser.suffix (fuel + 1) pos head c = some (r, c')) :
    ∀ e, r = .ok e → ∃ x, head = .ok x ∧ (16 * c.size + 4 ≤ fuel + 1 →
      ∀ n, After V n (x.Proper V) c → After V c.size (e.Proper V) c') := by
  intro e he
  unfold Parser.suffix at hread
  split at hread
  · rename_i cpos c₁ hnext
    obtain ⟨⟨args, c₂⟩, hargs, hread⟩ := Option.bind_eq_some_iff.mp hread
    obtain ⟨c₃, hclose, heq⟩ := Option.bind_eq_some_iff.mp hread
    cases heq
    obtain ⟨x, xs, rfl, hxs, rfl⟩ := reading_map₂_eq_ok he
    refine ⟨x, rfl, fun hfuel n hn => ?_⟩
    obtain ⟨hgood, hc₁, -⟩ := hn.symbol? (Cursor.symbol?_eq_some_iff.mpr ⟨cpos, hnext⟩)
      (by decide) (by decide)
    have hlt : c₁.size < c.size := Cursor.next?_size hnext
    have hafter := h.expressions hc₁ (by omega) hargs xs hxs
    obtain ⟨hargs, hc₃, hsize⟩ := hafter.symbol? hclose (by decide) (by decide)
    exact ⟨hc₃.relax, by omega, .inl ⟨hgood, Expr.properList_iff.mpr hargs⟩⟩
  · rename_i cpos c₁ hnext
    split at hread
    · rename_i property ppos c₂ hname
      cases hread
      obtain ⟨x, rfl, he⟩ := exists_of_bind he
      cases he
      refine ⟨x, rfl, fun hfuel n hn => ?_⟩
      have hgood := hn.good.resolve_right fun ⟨_, _, hstuck⟩ => by simp [hnext] at hstuck
      obtain ⟨hc', hproperty⟩ := hn.orderly.after_property hnext hname
      have hlt : c₁.size < c.size := Cursor.next?_size hnext
      have hlt' : c'.size < c₁.size := Cursor.next?_size hname
      exact ⟨hc'.relax, by omega, .inl ⟨hgood, hproperty⟩⟩
    · cases hread
  · rename_i cpos c₁ hnext
    obtain ⟨⟨index, c₂⟩, hindex, hread⟩ := Option.bind_eq_some_iff.mp hread
    obtain ⟨c₃, hclose, heq⟩ := Option.bind_eq_some_iff.mp hread
    cases heq
    obtain ⟨x, y, rfl, hy, rfl⟩ := reading_map₂_eq_ok he
    refine ⟨x, rfl, fun hfuel n hn => ?_⟩
    obtain ⟨hgood, hc₁, -⟩ := hn.symbol? (Cursor.symbol?_eq_some_iff.mpr ⟨cpos, hnext⟩)
      (by decide) (by decide)
    have hlt : c₁.size < c.size := Cursor.next?_size hnext
    have hafter := h.assignment hc₁ (by omega) hindex y hy
    obtain ⟨hindex, hc₃, hsize⟩ := hafter.symbol? hclose (by decide) (by decide)
    exact ⟨hc₃.relax, by omega, .inl ⟨hgood, hindex⟩⟩
  · cases hread

theorem moreExpressions_stuck (hc : Stuck c) : Parser.moreExpressions fuel c = ([], c) := by
  cases fuel with
  | zero => rfl
  | succ fuel => simp [Parser.moreExpressions, hc.symbol?]

theorem expressions_succ (h : ReadsProperly V fuel) {rs : List (Reading Expr)} (hc : Orderly V false c)
    (hfuel : 16 * c.size + 5 ≤ fuel + 1)
    (hread : Parser.expressions (fuel + 1) c = some (rs, c')) :
    Sane V (c.size + 1) (fun es => ∀ e ∈ es, e.Proper V) (all rs) c' := by
  unfold Parser.expressions at hread
  split at hread
  · rename_i first c₁ hfirst
    cases hothers : Parser.moreExpressions fuel c₁ with
    | mk others c₂ =>
        rw [hothers] at hread
        cases hread
        refine Sane.cons (fun x hx => (h.assignment hc (by omega) hfirst x hx).mono (by omega))
          (fun hc₁ hlt => h.moreExpressions hc₁ (by omega) hothers) fun hstuck => ?_
        rw [moreExpressions_stuck hstuck] at hothers
        cases hothers
        exact ⟨rfl, rfl⟩
  · cases hread
    exact hc.relax.sane_nil

theorem moreExpressions_succ (h : ReadsProperly V fuel) {rs : List (Reading Expr)} (hc : Orderly V true c)
    (hfuel : 16 * c.size + 1 ≤ fuel + 1)
    (hread : Parser.moreExpressions (fuel + 1) c = (rs, c')) :
    Sane V (c.size + 1) (fun es => ∀ e ∈ es, e.Proper V) (all rs) c' := by
  unfold Parser.moreExpressions at hread
  split at hread
  · rename_i first c₂ hfirst
    obtain ⟨c₁, hcomma, hfirst⟩ := Option.bind_eq_some_iff.mp hfirst
    obtain ⟨hc₁, hlt⟩ := hc.symbol? hcomma (by decide)
    cases hothers : Parser.moreExpressions fuel c₂ with
    | mk others c₃ =>
        rw [hothers] at hread
        cases hread
        refine Sane.mono (n := c.size) (Sane.cons (fun x hx =>
            (h.assignment hc₁ (by omega) hfirst x hx).mono (by omega))
          (fun hc₂ hlt => h.moreExpressions hc₂ (by omega) hothers) fun hstuck => ?_)
          (Nat.le_succ _)
        rw [moreExpressions_stuck hstuck] at hothers
        cases hothers
        exact ⟨rfl, rfl⟩
  · cases hread
    exact hc.sane_nil

theorem functionTail_stuck {pos : Position} (hc : Stuck c) :
    Parser.functionTail fuel pos c = none := by
  cases fuel with
  | zero => rfl
  | succ fuel => simp [Parser.functionTail, Parser.params, hc.symbol?]

theorem primary_succ (h : ReadsProperly V fuel) {r : Reading Expr} (hc : Orderly V false c)
    (hfuel : 16 * c.size + 1 ≤ fuel + 1) (hread : Parser.primary (fuel + 1) c = some (r, c')) :
    Sane V c.size (Expr.Proper V) r c' := by
  intro e he
  unfold Parser.primary at hread
  split at hread
  · rename_i x pos c₁ hnext
    cases hread
    cases he
    exact ⟨(hc.after_number hnext).relax, Cursor.next?_size hnext, .inl trivial⟩
  · rename_i s pos c₁ hnext
    cases hread
    cases he
    exact ⟨(hc.after_string hnext).relax, Cursor.next?_size hnext, .inl trivial⟩
  · rename_i pos c₁ hnext
    cases hread
    cases he
    exact ⟨(hc.after_word hnext (by decide) (by decide)).1.relax, Cursor.next?_size hnext, .inl trivial⟩
  · rename_i pos c₁ hnext
    cases hread
    cases he
    exact ⟨(hc.after_word hnext (by decide) (by decide)).1.relax, Cursor.next?_size hnext, .inl trivial⟩
  · rename_i pos c₁ hnext
    cases hread
    cases he
    exact ⟨(hc.after_word hnext (by decide) (by decide)).1.relax, Cursor.next?_size hnext, .inl trivial⟩
  · cases hread
    cases he
  · obtain ⟨phrase, -, heq⟩ := Option.map_eq_some_iff.mp hread
    cases heq
    cases he
  · -- a function, with or without a name
    rename_i pos c₁ hnext
    have hlt : c₁.size < c.size := Cursor.next?_size hnext
    split at hread
    rename_i name c₂ hname
    obtain ⟨⟨tail, c₃⟩, htail, heq⟩ := Option.map_eq_some_iff.mp hread
    cases heq
    obtain ⟨⟨params, body⟩, htailOk, rfl⟩ := reading_map_eq_ok he
    split at hname
    · rename_i self c₂' hself
      cases hname
      obtain ⟨hc₂, hown⟩ := hc.after_function hnext hself
      obtain ⟨-, npos, hnext'⟩ := Cursor.name?_eq_some_iff.mp hself
      have hlt' : c₂.size < c₁.size := Cursor.next?_size hnext'
      have hafter := h.functionTail hc₂ (by omega) htail _ htailOk
      refine (hafter.mono (by omega)).imp fun hgood => ⟨?_, hgood.1, hgood.2⟩
      have hself := hown.resolve_right fun hstuck => by
        rw [functionTail_stuck hstuck] at htail
        cases htail
      simpa using hself
    · rename_i hself
      cases hname
      have hc₁ := hc.after_plain_function hnext hself
      have hafter := h.functionTail hc₁ (by omega) htail _ htailOk
      refine (hafter.mono (by omega)).imp fun hgood => ⟨?_, hgood.1, hgood.2⟩
      simp
  · rename_i pos c₁ hnext
    have hlt : c₁.size < c.size := Cursor.next?_size hnext
    have hc₁ : Orderly V false c₁ := hc.after_symbol hnext (by decide)
    obtain ⟨⟨items, c₂⟩, hitems, hread⟩ := Option.bind_eq_some_iff.mp hread
    obtain ⟨c₃, hclose, heq⟩ := Option.bind_eq_some_iff.mp hread
    cases heq
    obtain ⟨xs, hxs, rfl⟩ := reading_map_eq_ok he
    have hafter := h.expressions hc₁ (by omega) hitems xs hxs
    obtain ⟨hgood, hc₃, hsize⟩ := (hafter.optionalSymbol (s := ",") (by decide)
      (by decide)).symbol? hclose (by decide) (by decide)
    exact ⟨hc₃.relax, by omega, .inl (Expr.properList_iff.mpr hgood)⟩
  · rename_i pos c₁ hnext
    have hlt : c₁.size < c.size := Cursor.next?_size hnext
    have hc₁ : Orderly V true c₁ := hc.after_symbol hnext (by decide)
    obtain ⟨⟨entries, c₂⟩, hentries, hread⟩ := Option.bind_eq_some_iff.mp hread
    obtain ⟨c₃, hclose, heq⟩ := Option.bind_eq_some_iff.mp hread
    cases heq
    obtain ⟨xs, hxs, rfl⟩ := reading_map_eq_ok he
    have hafter := h.properties hc₁ (by omega) hentries xs hxs
    obtain ⟨hgood, hc₃, hsize⟩ := (hafter.optionalSymbol (s := ",") (by decide)
      (by decide)).symbol? hclose (by decide) (by decide)
    exact ⟨hc₃.relax, by omega, .inl (Expr.properEntries_iff.mpr hgood)⟩
  · rename_i pos c₁ hnext
    have hlt : c₁.size < c.size := Cursor.next?_size hnext
    have hc₁ : Orderly V false c₁ := hc.after_symbol hnext (by decide)
    obtain ⟨⟨inner, c₂⟩, hinner, hread⟩ := Option.bind_eq_some_iff.mp hread
    obtain ⟨c₃, hclose, heq⟩ := Option.bind_eq_some_iff.mp hread
    cases heq
    have hafter := h.assignment hc₁ (by omega) hinner e he
    obtain ⟨hgood, hc₃, hsize⟩ := hafter.symbol? hclose (by decide) (by decide)
    exact ⟨hc₃.relax, by omega, .inl hgood⟩
  · rename_i w pos c₁ _ _ _ _ _ _ hnext
    split at hread
    · cases hread
    · rename_i hword
      have hname : c.name? = some (w, c₁) := Cursor.name?_eq_some_iff.mpr ⟨hword, pos, hnext⟩
      obtain ⟨hc₁, hlt, hown⟩ := hc.after_name hname
      cases hread
      cases he
      exact ⟨hc₁.relax, hlt, hown⟩
  · cases hread

theorem moreProperties_stuck (hc : Stuck c) : Parser.moreProperties fuel c = ([], c) := by
  cases fuel with
  | zero => rfl
  | succ fuel => simp [Parser.moreProperties, hc.symbol?]

theorem moreProperties_succ (h : ReadsProperly V fuel) {rs : List (Reading (String × Expr))}
    (hc : Orderly V true c) (hfuel : 16 * c.size + 1 ≤ fuel + 1)
    (hread : Parser.moreProperties (fuel + 1) c = (rs, c')) :
    Sane V (c.size + 1) (fun entries => ∀ entry ∈ entries, entry.2.Proper V) (all rs) c' := by
  unfold Parser.moreProperties at hread
  split at hread
  · rename_i first c₂ hfirst
    obtain ⟨c₁, hcomma, hfirst⟩ := Option.bind_eq_some_iff.mp hfirst
    obtain ⟨hc₁, hlt⟩ := hc.symbol? hcomma (by decide)
    cases hothers : Parser.moreProperties fuel c₂ with
    | mk others c₃ =>
        rw [hothers] at hread
        cases hread
        refine Sane.mono (n := c.size) (Sane.cons (fun x hx =>
            (h.property hc₁.relax (by omega) hfirst x hx).mono (by omega))
          (fun hc₂ hlt => h.moreProperties hc₂ (by omega) hothers) fun hstuck => ?_)
          (Nat.le_succ _)
        rw [moreProperties_stuck hstuck] at hothers
        cases hothers
        exact ⟨rfl, rfl⟩
  · cases hread
    exact hc.sane_nil

theorem properties_succ (h : ReadsProperly V fuel) {rs : List (Reading (String × Expr))}
    (hc : Orderly V true c) (hfuel : 16 * c.size + 2 ≤ fuel + 1)
    (hread : Parser.properties (fuel + 1) c = some (rs, c')) :
    Sane V (c.size + 1) (fun entries => ∀ entry ∈ entries, entry.2.Proper V) (all rs) c' := by
  unfold Parser.properties at hread
  split at hread
  · rename_i first c₁ hfirst
    cases hothers : Parser.moreProperties fuel c₁ with
    | mk others c₂ =>
        rw [hothers] at hread
        cases hread
        refine Sane.mono (n := c.size) (Sane.cons (fun x hx =>
            h.property hc (by omega) hfirst x hx)
          (fun hc₁ hlt => h.moreProperties hc₁ (by omega) hothers) fun hstuck => ?_)
          (Nat.le_succ _)
        rw [moreProperties_stuck hstuck] at hothers
        cases hothers
        exact ⟨rfl, rfl⟩
  · cases hread
    exact hc.sane_nil

theorem property_succ (h : ReadsProperly V fuel) {r : Reading (String × Expr)} (hc : Orderly V true c)
    (hfuel : 16 * c.size + 1 ≤ fuel + 1) (hread : Parser.property (fuel + 1) c = some (r, c')) :
    Sane V c.size (fun entry => entry.2.Proper V) r c' := by
  intro entry hentry
  unfold Parser.property at hread
  obtain ⟨⟨key, c₁⟩, hkey, hread⟩ := Option.bind_eq_some_iff.mp hread
  obtain ⟨c₂, hcolon, hread⟩ := Option.bind_eq_some_iff.mp hread
  obtain ⟨⟨value, c₃⟩, hvalue, heq⟩ := Option.bind_eq_some_iff.mp hread
  cases heq
  obtain ⟨x, hx, rfl⟩ := reading_map_eq_ok hentry
  obtain ⟨hc₂, hlt⟩ := hc.objectKey? hkey hcolon
  exact (h.assignment hc₂ (by omega) hvalue x hx).mono (by omega)

theorem functionTail_succ (h : ReadsProperly V fuel) {pos : Position}
    {r : Reading (List String × List Stmt)} (hc : Orderly V false c)
    (hfuel : 16 * c.size + 1 ≤ fuel + 1)
    (hread : Parser.functionTail (fuel + 1) pos c = some (r, c')) :
    Sane V c.size (fun tail => (∀ n ∈ tail.1, V.own n) ∧ Stmt.ProperList V tail.2) r c' := by
  intro tail htail
  unfold Parser.functionTail at hread
  obtain ⟨⟨bindings, c₁⟩, hparams, hread⟩ := Option.bind_eq_some_iff.mp hread
  obtain ⟨⟨body, c₂⟩, hbody, heq⟩ := Option.bind_eq_some_iff.mp hread
  cases heq
  obtain ⟨names, ss, hnames, hss, rfl⟩ := reading_map₂_eq_ok (f := Prod.mk) htail
  obtain ⟨hown, hc₁, hlt⟩ := hc.params hparams hnames
  exact ((h.block hc₁ (by omega) hbody ss hss).mono (by omega)).imp fun hgood => ⟨hown, hgood⟩

theorem block_succ (h : ReadsProperly V fuel) {r : Reading (List Stmt)} (hc : Orderly V fresh c)
    (hfuel : 16 * c.size + 1 ≤ fuel + 1) (hread : Parser.block (fuel + 1) c = some (r, c')) :
    Sane V c.size (Stmt.ProperList V) r c' := by
  intro ss hss
  unfold Parser.block at hread
  obtain ⟨c₁, hopen, hread⟩ := Option.bind_eq_some_iff.mp hread
  obtain ⟨hc₁, hlt⟩ := hc.symbol? hopen (by decide)
  cases hbody : Parser.statements fuel c₁ with
  | mk body c₂ =>
      rw [hbody] at hread
      obtain ⟨c₃, hclose, heq⟩ := Option.bind_eq_some_iff.mp hread
      cases heq
      have hafter := h.statements hc₁ (by omega) hbody ss hss
      obtain ⟨hgood, hc₃, hsize⟩ := hafter.symbol? hclose (by decide) (by decide)
      exact ⟨hc₃.relax, by omega, .inl hgood⟩

end ReadsProperly

end TraceLoom.Script
