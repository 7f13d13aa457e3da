import TraceLoom.Proofs.Script.ProperExpressions

/-!
Reading statements and programs from an orderly text.
-/

namespace TraceLoom.Script

open TraceLoom.Script.Parser

variable {V : Vocabulary} {fresh : Bool} {c c' rest : Cursor} {n : Nat} {good : Prop} {s : String}

namespace ReadsProperly

variable {fuel : Nat}

theorem primary_stuck (hc : Stuck c) : Parser.primary fuel c = none := by
  obtain ⟨pos, rest, hnext⟩ := hc
  cases fuel with
  | zero => rfl
  | succ fuel => simp [Parser.primary, hnext]

theorem assignment_stuck (hc : Stuck c) : Parser.assignment fuel c = none := by
  obtain ⟨pos, rest, hnext⟩ := hc
  cases fuel with
  | zero => rfl
  | succ fuel =>
      have hchain : Parser.chain fuel c = none := by
        cases fuel with
        | zero => rfl
        | succ fuel => simp [Parser.chain, primary_stuck ⟨pos, rest, hnext⟩]
      have hprefix : Parser.prefixOp? c = none := by
        have hsymbol : UnaryOp.ofSymbol? ":" = none := by decide
        simp [Parser.prefixOp?, hnext, updateOp?, hsymbol]
      simp [Parser.assignment, hprefix, hchain]

theorem statement_stuck (hc : Stuck c) : Parser.statement fuel c = none := by
  cases fuel with
  | zero => rfl
  | succ fuel =>
      have hspecial : Parser.special fuel c = none := by
        obtain ⟨pos, rest, hnext⟩ := hc
        cases fuel with
        | zero => rfl
        | succ fuel => simp [Parser.special, hnext]
      simp [Parser.statement, hspecial, assignment_stuck hc]

theorem statements_succ (h : ReadsProperly V fuel) {r : Reading (List Stmt)} (hc : Orderly V true c)
    (hfuel : 16 * c.size + 11 ≤ fuel + 1) (hread : Parser.statements (fuel + 1) c = (r, c')) :
    Sane V (c.size + 1) (Stmt.ProperList V) r c' := by
  intro ss hss
  unfold Parser.statements at hread
  split at hread
  · cases hread
    cases hss
    exact ⟨hc, Nat.lt_succ_self _, .inl trivial⟩
  · rename_i first c₁ hfirst
    cases hothers : Parser.statements fuel c₁ with
    | mk others c₂ =>
        rw [hothers] at hread
        cases hread
        obtain ⟨s, ss, rfl, hothersOk, rfl⟩ := reading_map₂_eq_ok
          (f := fun (s : Option Stmt) ss => s.toList ++ ss) hss
        have hafter := h.statement hc (by omega) hfirst s rfl
        have hlt := hafter.size
        obtain hgood | hstuck := hafter.good
        · have hrest := h.statements hafter.orderly (by omega) hothers ss hothersOk
          refine (hrest.mono (by omega)).imp fun hgoods => Stmt.properList_iff.mpr fun t ht => ?_
          obtain ht | ht := List.mem_append.mp ht
          · exact hgood t (Option.mem_toList.mp ht)
          · exact Stmt.properList_iff.mp hgoods t ht
        · have heq : Parser.statements fuel c₁ = (.ok [], c₁) := by
            cases fuel with
            | zero => rfl
            | succ fuel => simp [Parser.statements, statement_stuck hstuck]
          rw [heq] at hothers
          cases hothers
          exact ⟨hafter.orderly, by omega, .inr hstuck⟩

theorem statement_succ (h : ReadsProperly V fuel) {r : Reading (Option Stmt)} (hc : Orderly V true c)
    (hfuel : 16 * c.size + 10 ≤ fuel + 1) (hread : Parser.statement (fuel + 1) c = some (r, c')) :
    Sane V c.size (fun s => ∀ t ∈ s, t.Proper V) r c' := by
  intro s hs
  obtain hordinary | hinserted := hc.inserted_or
  · unfold Parser.statement at hread
    split at hread
    · rename_i phrase hspecial
      cases hread
      exact h.special hordinary (by omega) hspecial s hs
    · obtain ⟨⟨e, c₁⟩, he, heq⟩ := Option.bind_eq_some_iff.mp hread
      cases heq
      obtain ⟨x, hx, rfl⟩ := reading_map_eq_ok hs
      have hafter := h.assignment hordinary (by omega) he x hx
      refine (hafter.optionalSymbol (by decide) (by decide)).imp fun hgood t ht => ?_
      cases ht
      exact .inr hgood
  · obtain ⟨t, behind, ht, hwhole, hlt, hbehind⟩ := hinserted (fuel + 1) hfuel
    rw [hread] at ht
    cases ht
    cases hs
    refine ⟨hbehind, hlt, .inl fun t ht => ?_⟩
    cases ht
    exact .inl hwhole

theorem parenthesized_succ (h : ReadsProperly V fuel) {r : Reading Expr} (hc : Orderly V false c)
    (hfuel : 16 * c.size + 1 ≤ fuel + 1)
    (hread : Parser.parenthesized (fuel + 1) c = some (r, c')) :
    ∀ x, r = .ok x → x.Proper V ∧ Orderly V false c' ∧ c'.size < c.size := by
  intro x hx
  unfold Parser.parenthesized at hread
  obtain ⟨c₁, hopen, hread⟩ := Option.bind_eq_some_iff.mp hread
  obtain ⟨hc₁, hlt⟩ := hc.symbol? hopen (by decide)
  obtain ⟨⟨e, c₂⟩, he, hread⟩ := Option.bind_eq_some_iff.mp hread
  obtain ⟨c₃, hclose, heq⟩ := Option.bind_eq_some_iff.mp hread
  cases heq
  have hafter := h.assignment hc₁ (by omega) he x hx
  obtain ⟨hgood, hc₃, hsize⟩ := hafter.symbol? hclose (by decide) (by decide)
  exact ⟨hgood, hc₃, by omega⟩

theorem declarator_succ (h : ReadsProperly V fuel) {r : Reading (Pattern × Option Expr)}
    (hc : Orderly V false c) (hfuel : 16 * c.size + 1 ≤ fuel + 1)
    (hread : Parser.declarator (fuel + 1) c = some (r, c')) :
    Sane V c.size (fun d => (∀ n ∈ d.1.names, V.own n) ∧ ∀ e ∈ d.2, e.Proper V) r c' := by
  intro d hd
  unfold Parser.declarator at hread
  obtain ⟨⟨target, c₁⟩, htarget, hread⟩ := Option.bind_eq_some_iff.mp hread
  dsimp only at hread
  split at hread
  · rename_i init c₃ hinit
    cases hread
    obtain ⟨c₂, hequals, hinit⟩ := Option.bind_eq_some_iff.mp hinit
    obtain ⟨p, e, hp, he, rfl⟩ := reading_map₂_eq_ok (f := Prod.mk) hd
    obtain ⟨x, hx, rfl⟩ := reading_map_eq_ok he
    obtain ⟨hnames, hc₂, hsize⟩ := (hc.binding htarget p hp).symbol? hequals (by decide)
      (by decide)
    refine ((h.assignment hc₂ (by omega) hinit x hx).mono (by omega)).imp fun hgood => ?_
    refine ⟨hnames, fun e he => ?_⟩
    cases he
    exact hgood
  · cases hread
    obtain ⟨p, hp, rfl⟩ := reading_map_eq_ok hd
    refine (hc.binding htarget p hp).imp fun hnames => ⟨hnames, fun e he => ?_⟩
    cases he

theorem moreDeclarators_stuck (hc : Stuck c) : Parser.moreDeclarators fuel c = ([], c) := by
  cases fuel with
  | zero => rfl
  | succ fuel => simp [Parser.moreDeclarators, hc.symbol?]

theorem moreDeclarators_succ (h : ReadsProperly V fuel) {rs : List (Reading (Pattern × Option Expr))}
    (hc : Orderly V true c) (hfuel : 16 * c.size + 1 ≤ fuel + 1)
    (hread : Parser.moreDeclarators (fuel + 1) c = (rs, c')) :
    Sane V (c.size + 1)
      (fun ds => ∀ d ∈ ds, (∀ n ∈ d.1.names, V.own n) ∧ ∀ e ∈ d.2, e.Proper V) (all rs) c' := by
  unfold Parser.moreDeclarators at hread
  split at hread
  · rename_i first c₂ hfirst
    obtain ⟨c₁, hcomma, hfirst⟩ := Option.bind_eq_some_iff.mp hfirst
    obtain ⟨hc₁, hlt⟩ := hc.symbol? hcomma (by decide)
    cases hothers : Parser.moreDeclarators fuel c₂ with
    | mk others c₃ =>
        rw [hothers] at hread
        cases hread
        refine Sane.mono (n := c.size) (Sane.cons (fun x hx =>
            (h.declarator hc₁ (by omega) hfirst x hx).mono (by omega))
          (fun hc₂ hlt => h.moreDeclarators hc₂ (by omega) hothers) fun hstuck => ?_)
          (Nat.le_succ _)
        rw [moreDeclarators_stuck hstuck] at hothers
        cases hothers
        exact ⟨rfl, rfl⟩
  · cases hread
    exact hc.sane_nil

theorem special_succ (h : ReadsProperly V fuel) {r : Reading (Option Stmt)} (hc : Orderly V false c)
    (hfuel : 16 * c.size + 5 ≤ fuel + 1) (hread : Parser.special (fuel + 1) c = some (r, c')) :
    Sane V c.size (fun s => ∀ t ∈ s, t.Proper V) r c' := by
  intro s hs
  unfold Parser.special at hread
  split at hread
  · -- a block
    obtain ⟨⟨body, c₁⟩, hbody, heq⟩ := Option.map_eq_some_iff.mp hread
    cases heq
    obtain ⟨ss, hss, rfl⟩ := reading_map_eq_ok hs
    refine (h.block hc (by omega) hbody ss hss).imp fun hgood t ht => ?_
    cases ht
    exact .inr hgood
  · -- an empty statement
    rename_i pos c₁ hnext
    have hc₁ : Orderly V true c₁ := hc.after_symbol hnext (by decide)
    have hlt : c₁.size < c.size := Cursor.next?_size hnext
    cases hread
    cases hs
    exact ⟨hc₁, hlt, .inl (by simp)⟩
  · -- a function
    rename_i pos c₁ hnext
    have hlt : c₁.size < c.size := Cursor.next?_size hnext
    obtain ⟨⟨name, c₂⟩, hname, hread⟩ := Option.bind_eq_some_iff.mp hread
    obtain ⟨⟨tail, c₃⟩, htail, heq⟩ := Option.bind_eq_some_iff.mp hread
    cases heq
    obtain ⟨⟨params, body⟩, htailOk, rfl⟩ := reading_map_eq_ok hs
    obtain ⟨hc₂, hown⟩ := hc.after_function hnext hname
    obtain ⟨-, npos, hnext'⟩ := Cursor.name?_eq_some_iff.mp hname
    have hlt' : c₂.size < c₁.size := Cursor.next?_size hnext'
    have hself := hown.resolve_right fun hstuck => by
      rw [functionTail_stuck hstuck] at htail
      cases htail
    refine ((h.functionTail hc₂ (by omega) htail _ htailOk).mono (by omega)).imp
      fun hgood t ht => ?_
    cases ht
    exact .inr ⟨hself, hgood⟩
  · -- a conditional, with an alternative or without one
    rename_i pos c₁ hnext
    have hc₁ := (hc.after_word hnext (by decide) (by decide)).1
    have hlt : c₁.size < c.size := Cursor.next?_size hnext
    obtain ⟨⟨test, c₂⟩, htest, hread⟩ := Option.bind_eq_some_iff.mp hread
    obtain ⟨⟨consequent, c₃⟩, hconsequent, hread⟩ := Option.bind_eq_some_iff.mp hread
    dsimp only at hread
    split at hread
    · rename_i alternate c₅ halternate
      cases hread
      obtain ⟨c₄, helse, halternate⟩ := Option.bind_eq_some_iff.mp halternate
      obtain ⟨x, hx, hs⟩ := exists_of_bind hs
      obtain ⟨yes, hyes, hs⟩ := exists_of_bind hs
      obtain ⟨no, hno, hs⟩ := exists_of_bind hs
      cases hs
      obtain ⟨htest, hc₂, hlt₂⟩ := h.parenthesized hc₁ (by omega) htest x hx
      have hafter := h.statement hc₂.relax (by omega) hconsequent yes hyes
      have hlt₃ := hafter.size
      obtain ⟨epos, hnext'⟩ := Cursor.keyword?_eq_some_iff.mp helse
      have hgood := hafter.good.resolve_right fun ⟨_, _, hstuck⟩ => by simp [hnext'] at hstuck
      have hc₄ := hafter.orderly.after_else hnext'
      have hlt₄ : c₄.size < c₃.size := Cursor.next?_size hnext'
      refine ((h.statement hc₄.relax (by omega) halternate no hno).mono (by omega)).imp
        fun hgood' t ht => ?_
      cases ht
      exact .inr ⟨htest, properList_asBody hgood, properList_asBody hgood'⟩
    · cases hread
      obtain ⟨x, yes, hx, hyes, rfl⟩ := reading_map₂_eq_ok
        (f := fun x yes => some (Stmt.ifElse pos x (asBody yes) none)) hs
      obtain ⟨htest, hc₂, hlt₂⟩ := h.parenthesized hc₁ (by omega) htest x hx
      refine ((h.statement hc₂.relax (by omega) hconsequent yes hyes).mono (by omega)).imp
        fun hgood t ht => ?_
      cases ht
      exact .inr ⟨htest, properList_asBody hgood⟩
  · -- a loop
    rename_i pos c₁ hnext
    have hc₁ := (hc.after_word hnext (by decide) (by decide)).1
    have hlt : c₁.size < c.size := Cursor.next?_size hnext
    obtain ⟨⟨test, c₂⟩, htest, hread⟩ := Option.bind_eq_some_iff.mp hread
    obtain ⟨⟨body, c₃⟩, hbody, heq⟩ := Option.bind_eq_some_iff.mp hread
    cases heq
    obtain ⟨x, s', hx, hs', rfl⟩ := reading_map₂_eq_ok
      (f := fun x s' => some (Stmt.whileDo pos x (asBody s'))) hs
    obtain ⟨htest, hc₂, hlt₂⟩ := h.parenthesized hc₁ (by omega) htest x hx
    refine ((h.statement hc₂.relax (by omega) hbody s' hs').mono (by omega)).imp
      fun hgood t ht => ?_
    cases ht
    exact .inr ⟨htest, properList_asBody hgood⟩
  · obtain ⟨c₂, -, hread⟩ := Option.bind_eq_some_iff.mp hread
    obtain ⟨phrase, -, heq⟩ := Option.bind_eq_some_iff.mp hread
    cases heq
    cases hs
  · obtain ⟨phrase, -, hread⟩ := Option.bind_eq_some_iff.mp hread
    obtain ⟨c₂, -, hread⟩ := Option.bind_eq_some_iff.mp hread
    obtain ⟨c₃, -, heq⟩ := Option.bind_eq_some_iff.mp hread
    cases heq
    cases hs
  · obtain ⟨c₂, -, hread⟩ := Option.bind_eq_some_iff.mp hread
    obtain ⟨c₃, -, heq⟩ := Option.bind_eq_some_iff.mp hread
    cases heq
    cases hs
  · obtain ⟨c₂, -, heq⟩ := Option.bind_eq_some_iff.mp hread
    cases heq
    cases hs
  · obtain ⟨phrase, -, heq⟩ := Option.bind_eq_some_iff.mp hread
    cases heq
    cases hs
  · cases hread
    cases hs
  · -- leaving a labelled statement
    rename_i pos c₁ hnext
    have hlt : c₁.size < c.size := Cursor.next?_size hnext
    split at hread
    · rename_i label c₂ hname
      obtain ⟨hc₂, hlabel⟩ := hc.after_break hnext hname
      obtain ⟨-, npos, hnext'⟩ := Cursor.name?_eq_some_iff.mp hname
      have hlt' : c₂.size < c₁.size := Cursor.next?_size hnext'
      cases hread
      cases hs
      have hafter : After V c.size (V.label label) c₂ := ⟨hc₂.relax, by omega, hlabel⟩
      refine (hafter.optionalSymbol (by decide) (by decide)).imp fun hgood t ht => ?_
      cases ht
      refine .inr fun n hn => ?_
      cases hn
      exact hgood
    · rename_i hname
      have hc₁ := hc.after_plain_break hnext hname
      cases hread
      cases hs
      have hafter : After V c.size True c₁ := ⟨hc₁.relax, hlt, .inl trivial⟩
      refine (hafter.optionalSymbol (by decide) (by decide)).imp fun _ t ht => ?_
      cases ht
      exact .inr fun n hn => by cases hn
  · -- a return
    rename_i pos c₁ hnext
    have hc₁ := (hc.after_word hnext (by decide) (by decide)).1
    have hlt : c₁.size < c.size := Cursor.next?_size hnext
    split at hread
    · rename_i value c₂ hvalue
      cases hread
      obtain ⟨x, hx, rfl⟩ := reading_map_eq_ok hs
      have hafter := (h.assignment hc₁ (by omega) hvalue x hx).mono (Nat.le_of_lt hlt)
      refine (hafter.optionalSymbol (by decide) (by decide)).imp fun hgood t ht => ?_
      cases ht
      exact .inr hgood
    · cases hread
      cases hs
      have hafter : After V c.size True c₁ := ⟨hc₁.relax, hlt, .inl trivial⟩
      refine (hafter.optionalSymbol (by decide) (by decide)).imp fun _ t ht => ?_
      cases ht
      exact .inr trivial
  · rename_i w pos c₁ _ _ _ _ _ _ _ _ _ _ _ hnext
    split at hread
    · -- a declaration
      rename_i kind c₁' hkind
      obtain ⟨kpos, hnext'⟩ := declKind?_next hkind
      have hc₁ := (hc.after_word hnext' (by cases kind <;> decide) (by cases kind <;> decide)).1
      have hlt : c₁'.size < c.size := Cursor.next?_size hnext'
      obtain ⟨⟨first, c₂⟩, hfirst, hread⟩ := Option.bind_eq_some_iff.mp hread
      cases hothers : Parser.moreDeclarators fuel c₂ with
      | mk others c₃ =>
          dsimp only at hread
          rw [hothers] at hread
          cases hread
          obtain ⟨ds, hds, rfl⟩ := reading_map_eq_ok hs
          have hall := Sane.cons (h.declarator hc₁ (by omega) hfirst)
            (fun hc₂ hlt₂ => h.moreDeclarators hc₂ (by omega) hothers)
            (fun hstuck => by
              rw [moreDeclarators_stuck hstuck] at hothers
              cases hothers
              exact ⟨rfl, rfl⟩) ds hds
          refine ((hall.mono (Nat.le_of_lt hlt)).optionalSymbol (by decide) (by decide)).imp
            fun hgood t ht => ?_
          cases ht
          exact .inr (Stmt.properDeclarators_iff.mpr hgood)
    · split at hread
      · cases hread
      · -- a label
        rename_i hword
        obtain ⟨c₂, hcolon, hread⟩ := Option.bind_eq_some_iff.mp hread
        obtain ⟨⟨body, c₃⟩, hbody, heq⟩ := Option.bind_eq_some_iff.mp hread
        cases heq
        obtain ⟨s', hs', rfl⟩ := reading_map_eq_ok hs
        obtain ⟨cpos, hcolon⟩ := Cursor.symbol?_eq_some_iff.mp hcolon
        have hlabel := hc.label_of_colon hnext hword hcolon
        have hc₂ := hc.after_key hnext hcolon
        have hlt : c₁.size < c.size := Cursor.next?_size hnext
        have hlt' : c₂.size < c₁.size := Cursor.next?_size hcolon
        refine ((h.statement hc₂.relax (by omega) hbody s' hs').mono (by omega)).imp
          fun hgood t ht => ?_
        cases ht
        exact .inr ⟨hlabel, properList_asBody hgood⟩
  · cases hread

end ReadsProperly

/-- Whatever the fuel, what is read keeps all in order. -/
theorem reads (V : Vocabulary) (fuel : Nat) : ReadsProperly V fuel := by
  induction fuel with
  | zero =>
      constructor
      case conditional =>
        intro _ _ _ _ _ h
        cases h
        exact Continues.refl _ _ _ _
      case postfixes =>
        intro _ _ _ _ h
        cases h
        exact Continues.refl _ _ _ _
      case suffixes =>
        intro _ _ _ _ _ h
        cases h
        exact Continues.refl _ _ _ _
      case suffix =>
        intro _ _ _ _ _ h
        cases h
      all_goals
        intros
        omega
  | succ fuel ih =>
      exact {
        assignment := ih.assignment_succ
        conditional := ih.conditional_succ
        operations := ih.operations_succ
        operand := ih.operand_succ
        postfixes := ih.postfixes_succ
        chain := ih.chain_succ
        suffixes := ih.suffixes_succ
        suffix := ih.suffix_succ
        expressions := ih.expressions_succ
        moreExpressions := ih.moreExpressions_succ
        primary := ih.primary_succ
        properties := ih.properties_succ
        moreProperties := ih.moreProperties_succ
        property := ih.property_succ
        functionTail := ih.functionTail_succ
        block := ih.block_succ
        statements := ih.statements_succ
        statement := ih.statement_succ
        special := ih.special_succ
        parenthesized := ih.parenthesized_succ
        declarator := ih.declarator_succ
        moreDeclarators := ih.moreDeclarators_succ }

/-- The statements up to the end of an orderly text are proper. -/
theorem Orderly.statements {fuel : Nat} {ss : List Stmt} (hc : Orderly V true c)
    (hfuel : 16 * c.size + 11 ≤ fuel) (hread : Parser.statements fuel c = (.ok ss, c'))
    (hend : c'.atEnd = true) : Stmt.ProperList V ss := by
  have hafter := (reads V fuel).statements hc hfuel hread ss rfl
  refine hafter.good.resolve_right fun ⟨pos, rest, hstuck⟩ => ?_
  have htext : c'.skip.text = [] := List.isEmpty_iff.mp hend
  simp [Cursor.next?, Token.scan?, htext] at hstuck

/-- A program that is read from an orderly text is proper. -/
theorem proper_of_parse {text : String} {p : Program} (hparse : parse text = .ok p)
    (h : Orderly V true (.start text)) : Stmt.ProperList V p := by
  unfold parse at hparse
  dsimp only at hparse
  split at hparse
  · rename_i hend
    have hread : Parser.statements (enough text) (.start text) =
        (.ok p, (Parser.statements (enough text) (.start text)).2) := Prod.ext hparse rfl
    refine h.statements ?_ hread hend
    simp only [Cursor.size, Cursor.start, enough, String.length_toList]
    omega
  · cases hparse

end TraceLoom.Script
