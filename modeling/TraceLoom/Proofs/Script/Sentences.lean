import TraceLoom.Proofs.Script.Primaries

/-!
Reading statements of which the form is known.
-/

namespace TraceLoom.Script.Parser

open Cursor

variable {Q : Expr → Prop} {text : List Char}

/-! ## Where statements start -/

section

variable {fuel : Nat} {c d : Cursor}

theorem special_congr (h : c.skip = d.skip) : special fuel c = special fuel d := by
  have hblock (fuel : Nat) : block fuel c = block fuel d := by
    cases fuel with
    | zero => rfl
    | succ fuel => rw [block, block, Cursor.symbol?, Cursor.symbol?, next?_congr h]
  have hkind : declKind? c = declKind? d := by
    simp only [declKind?, Cursor.keyword?, next?_congr h]
  cases fuel with
  | zero => rfl
  | succ fuel =>
      unfold special
      rw [next?_congr h, hblock, hkind]

/-- Where a statement starts, blanks do not count. -/
theorem statement_congr (h : c.skip = d.skip) : statement fuel c = statement fuel d := by
  cases fuel with
  | zero => rfl
  | succ fuel => rw [statement, statement, special_congr h, assignment_congr h, h]

end

theorem keyword?_eq_none {w v : String} {c rest : Cursor} {pos : Position}
    (h : c.next? = some ⟨.word w, pos, rest⟩) (hv : v ≠ w) : c.keyword? v = none := by
  refine Option.eq_none_iff_forall_ne_some.mpr fun d hd => hv ?_
  obtain ⟨_, hnext⟩ := Cursor.keyword?_eq_some_iff.mp hd
  rw [h] at hnext
  cases hnext
  rfl

/-- A statement that starts with a name is an expression, unless a colon comes behind. -/
theorem special_eq_none {w : String} {c rest : Cursor} {pos : Position} (fuel : Nat)
    (h : c.next? = some ⟨.word w, pos, rest⟩) (hw : w ∉ Token.keywords)
    (hcolon : rest.symbol? ":" = none) : special fuel c = none := by
  cases fuel with
  | zero => rfl
  | succ fuel =>
      have hkind : declKind? c = none := by
        rw [declKind?, keyword?_eq_none h, keyword?_eq_none h, keyword?_eq_none h]
        all_goals
          rintro rfl
          exact absurd (by decide) hw
      unfold special
      rw [h]
      split
      all_goals rename_i heq
      all_goals try cases heq
      all_goals try exact absurd (by decide) hw
      · simp [hkind, hw, hcolon]
      · rfl

/-- At the end of a text there is no statement. -/
theorem statement_nil (fuel : Nat) (pos : Position) : statement fuel ⟨[], pos⟩ = none := by
  have hnext : Cursor.next? ⟨[], pos⟩ = none := rfl
  have hprimary (fuel : Nat) : primary fuel ⟨[], pos⟩ = none := by
    cases fuel with
    | zero => rfl
    | succ fuel => rw [primary, hnext]
  have hchain (fuel : Nat) : chain fuel ⟨[], pos⟩ = none := by
    cases fuel with
    | zero => rfl
    | succ fuel => rw [chain, hprimary, Option.map_none]
  have hassignment (fuel : Nat) : assignment fuel ⟨[], pos⟩ = none := by
    cases fuel with
    | zero => rfl
    | succ fuel =>
        rw [assignment, prefixOp?, hnext, hchain]
        rfl
  have hspecial (fuel : Nat) : special fuel ⟨[], pos⟩ = none := by
    cases fuel with
    | zero => rfl
    | succ fuel =>
        unfold special
        rw [hnext]
  cases fuel with
  | zero => rfl
  | succ fuel =>
      rw [statement, hspecial, hassignment]
      rfl

/-! ## Expressions as statements -/

/-- A text is read as a statement of some kind. -/
def ReadsStatement (S : Stmt → Prop) (text : List Char) : Prop :=
  ∀ (rest : List Char) (pos : Position) (fuel : Nat), 16 * (text ++ rest).length + 10 ≤ fuel →
    ∃ s rpos, statement fuel ⟨text ++ rest, pos⟩ = some (.ok (some s), ⟨rest, rpos⟩) ∧ S s

theorem ReadsStatement.imp {S S' : Stmt → Prop} (h : ReadsStatement S text)
    (himp : ∀ s, S s → S' s) : ReadsStatement S' text := by
  intro rest pos fuel hfuel
  obtain ⟨s, rpos, hread, hs⟩ := h rest pos fuel hfuel
  exact ⟨s, rpos, hread, himp s hs⟩

theorem optionalSymbol_semicolon (rest : List Char) (pos : Position) :
    ∃ rpos, Cursor.optionalSymbol ";" ⟨';' :: rest, pos⟩ = ⟨rest, rpos⟩ := by
  obtain ⟨rpos, hnext⟩ := symbol?_mark (c := ';') (s := ";") rest rfl (by decide) pos
  exact ⟨rpos, by rw [Cursor.optionalSymbol, hnext, Option.getD_some]⟩

/-- A name and what is done with a part of it. -/
theorem readsStatement_expr {S : Stmt → Prop} {w : String} {text : List Char}
    (hname : isNameText w = true) (hw : w ∉ Token.keywords)
    (h : Reads Q (w.toList ++ '.' :: text)) (hS : ∀ pos e, Q e → S (.expr pos e)) :
    ReadsStatement S (w.toList ++ '.' :: (text ++ [';'])) := by
  intro rest pos fuel hfuel
  simp only [List.append_assoc, List.cons_append, List.nil_append] at hfuel ⊢
  obtain ⟨fuel, rfl⟩ : ∃ n, fuel = n + 1 := ⟨fuel - 1, by omega⟩
  have hends : EndsWord ('.' :: (text ++ ';' :: rest)) := fun c hc => by
    cases hc
    decide
  obtain ⟨wpos, bpos, hnext⟩ := Lexes.word hname hends pos
  have hcolon : Cursor.symbol? ":" ⟨'.' :: (text ++ ';' :: rest), bpos⟩ = none :=
    symbol?_eq_none (.single (c := '.') (text ++ ';' :: rest) (by decide)) (by decide) bpos
  obtain ⟨e, epos, hread, he⟩ := h (';' :: rest) pos fuel (ends_mark (by decide)) (by
    simp only [List.append_assoc, List.cons_append]
    omega)
  obtain ⟨rpos, hclose⟩ := optionalSymbol_semicolon rest epos
  simp only [List.append_assoc, List.cons_append] at hread
  refine ⟨.expr (Cursor.skip ⟨w.toList ++ '.' :: (text ++ ';' :: rest), pos⟩).pos e, rpos, ?_,
    hS _ e he⟩
  rw [statement, special_eq_none fuel hnext hw hcolon]
  simp only [hread, Option.bind_eq_bind, Option.bind_some, hclose]
  rfl

/-! ## Declarations -/

/-- What holds of everything on the right, whatever is on the left. -/
theorem forall_right {α β : Type} {P : β → Prop} {as : List α} {bs : List β}
    (h : List.Forall₂ (fun _ b => P b) as bs) : ∀ b ∈ bs, P b := by
  induction h with
  | nil => exact List.forall_mem_nil _
  | cons hb _ ih => exact List.forall_mem_cons.mpr ⟨hb, ih⟩

/-- Blanks in front of what a declaration binds do not count. -/
theorem binding_congr {fuel : Nat} {c d : Cursor} (h : c.skip = d.skip) :
    binding fuel c = binding fuel d := by
  rw [binding, binding, Cursor.name?, Cursor.name?, arrayPattern, arrayPattern,
    Cursor.objectPattern?, Cursor.objectPattern?, next?_congr h, symbol?_congr h, symbol?_congr h,
    h]

theorem declarator_congr {fuel : Nat} {c d : Cursor} (h : c.skip = d.skip) :
    declarator fuel c = declarator fuel d := by
  cases fuel with
  | zero => rfl
  | succ fuel => rw [declarator, declarator, binding_congr h]

/-- A word that stands for a name is read as one. -/
theorem name?_append {w : String} (hw : isNameText w = true ∧ w ∉ Token.keywords) {rest : List Char}
    (hrest : EndsWord rest) (pos : Position) :
    ∃ rpos, Cursor.name? ⟨w.toList ++ rest, pos⟩ = some (w, ⟨rest, rpos⟩) := by
  obtain ⟨wpos, rpos, hnext⟩ := Lexes.word hw.1 hrest pos
  exact ⟨rpos, Cursor.name?_eq_some_iff.mpr ⟨hw.2, wpos, hnext⟩⟩

/-- No name stands where a mark does. -/
theorem name?_eq_none {text rest : List Char} {s : String} (h : Lexes text (.symbol s) rest)
    (pos : Position) : Cursor.name? ⟨text, pos⟩ = none := by
  obtain ⟨spos, rpos, hnext⟩ := h pos
  rw [Cursor.name?, hnext]

theorem reads_moreNames {names : List String}
    (h : ∀ n ∈ names, isNameText n = true ∧ n ∉ Token.keywords) {rest : List Char}
    (hrest : Closes rest) (pos : Position) (fuel : Nat)
    (hfuel : 16 * (rows names ++ rest).length + 10 ≤ fuel) :
    ∃ rpos, moreNames fuel ⟨rows names ++ rest, pos⟩ = (names, ⟨rest, rpos⟩) := by
  have hitems : ∀ n ∈ names, ReadsItem (fun _ => Cursor.name?) (n = ·) (id n).toList := by
    intro n hn rest pos fuel hrest _
    obtain ⟨rpos, hread⟩ := name?_append (h n hn) hrest.number.1 pos
    exact ⟨n, rpos, hread, rfl⟩
  have hread := reads_rows (F := fun _ => Cursor.name?) (M := moreNames) (P := Eq)
    (fun fuel c hc => ?_) (fun fuel c c' n c'' hcomma hread => ?_) (fun fuel c d hskip => ?_) hitems
    rest pos fuel hrest (by rwa [List.map_id])
  · obtain ⟨ns, rpos, hread, hns⟩ := hread
    rw [List.map_id] at hread
    rw [List.forall₂_eq_eq_eq] at hns
    exact ⟨rpos, hns ▸ hread⟩
  · cases fuel with
    | zero => rfl
    | succ fuel => rw [moreNames, hc, Option.bind_none]
  · rw [moreNames, hcomma, Option.bind_some, hread]
  · rw [Cursor.name?, Cursor.name?, next?_congr hskip]

/-- What a declaration binds is read up to its end. -/
theorem reads_pattern {target : Pattern}
    (h : ∀ n ∈ target.names, isNameText n = true ∧ n ∉ Token.keywords) {rest : List Char}
    (hrest : EndsWord rest) (pos : Position) (fuel : Nat)
    (hfuel : 16 * ((Printer.pattern target).toList ++ rest).length ≤ fuel) :
    ∃ rpos, binding fuel ⟨(Printer.pattern target).toList ++ rest, pos⟩ =
      some (.ok target, ⟨rest, rpos⟩) := by
  cases target with
  | name n =>
      obtain ⟨rpos, hread⟩ := name?_append (h n List.mem_cons_self) hrest pos
      exact ⟨rpos, by rw [binding, Printer.pattern, hread]⟩
  | array names =>
      have htext : (Printer.pattern (.array names)).toList ++ rest =
          '[' :: ((", ".intercalate names).toList ++ ']' :: rest) := by
        simp [Printer.pattern]
      rw [htext] at hfuel ⊢
      have hlex := Lexes.single (c := '[') ((", ".intercalate names).toList ++ ']' :: rest)
        (by decide)
      obtain ⟨mpos, npos, hnext⟩ := hlex pos
      have hopen := Cursor.symbol?_eq_some_iff.mpr ⟨mpos, hnext⟩
      have harray : ∃ rpos, arrayPattern fuel
          ⟨'[' :: ((", ".intercalate names).toList ++ ']' :: rest), pos⟩ =
          some (.ok (.array names), ⟨rest, rpos⟩) := by
        cases names with
        | nil =>
            obtain ⟨rpos, hclose⟩ := symbol?_mark (c := ']') (s := "]") rest rfl (by decide) npos
            have hnone := name?_eq_none (.single (c := ']') rest (by decide)) npos
            change Cursor.symbol? "[" _ = some ⟨']' :: rest, npos⟩ at hopen
            refine ⟨rpos, ?_⟩
            rw [arrayPattern, hopen]
            simp only [Option.bind_eq_bind, Option.bind_some, hnone, hclose]
            rfl
        | cons n names =>
            rw [toList_intercalate, List.append_assoc] at hfuel hopen ⊢
            have hcloses : Closes (']' :: rest) := closes_mark (by decide)
            have hends : EndsWord (rows names ++ ']' :: rest) := (ends_rows hcloses.ends).number.1
            obtain ⟨bpos, hfirst⟩ := name?_append (h n List.mem_cons_self) hends npos
            obtain ⟨c, cs, hn, -⟩ := head?_of_isNameText (h n List.mem_cons_self).1
            obtain ⟨epos, hmore⟩ := reads_moreNames (fun m hm => h m (List.mem_cons_of_mem n hm))
              hcloses bpos fuel (by
                rw [hn] at hfuel
                simp only [List.length_append, List.length_cons] at hfuel ⊢
                omega)
            obtain ⟨rpos, hclose⟩ := symbol?_mark (c := ']') (s := "]") rest rfl (by decide) epos
            refine ⟨rpos, ?_⟩
            rw [arrayPattern, show Cursor.symbol? "[" _ = _ from hopen]
            simp only [Option.bind_eq_bind, Option.bind_some, hfirst, hmore, hclose]
            rfl
      obtain ⟨rpos, harray⟩ := harray
      refine ⟨rpos, ?_⟩
      rw [binding, name?_eq_none hlex, harray]

/-- A declarator without a value. -/
theorem readsItem_declared {target : Pattern}
    (htarget : ∀ n ∈ target.names, isNameText n = true ∧ n ∉ Token.keywords) :
    ReadsItem declarator (fun r => ∃ d, r = .ok d ∧ d = (target, none))
      (Printer.pattern target).toList := by
  intro rest pos fuel hrest hfuel
  obtain ⟨fuel, rfl⟩ : ∃ n, fuel = n + 1 := ⟨fuel - 1, by omega⟩
  obtain ⟨rpos, hbinding⟩ := reads_pattern htarget hrest.number.1 pos fuel (by omega)
  refine ⟨_, rpos, ?_, _, rfl, rfl⟩
  rw [declarator, hbinding]
  simp only [Option.bind_eq_bind, Option.bind_some,
    hrest.symbol? rpos (show "=" ∉ [",", ")", "]", "\x7d", ";"] by decide), Option.bind_none]
  rfl

/-- A declarator with its value. -/
theorem readsItem_initialized {target : Pattern} {text : String}
    (htarget : ∀ n ∈ target.names, isNameText n = true ∧ n ∉ Token.keywords)
    (h : Reads Q text.toList) :
    ReadsItem declarator (fun r => ∃ d, r = .ok d ∧ ∃ e, d = (target, some e) ∧ Q e)
      (Printer.pattern target ++ " = " ++ text).toList := by
  intro rest pos fuel hrest hfuel
  have htext : (Printer.pattern target ++ " = " ++ text).toList ++ rest =
      (Printer.pattern target).toList ++ ' ' :: '=' :: ' ' :: (text.toList ++ rest) := by
    simp
  rw [htext] at hfuel ⊢
  simp only [List.length_append, List.length_cons] at hfuel
  obtain ⟨fuel, rfl⟩ : ∃ n, fuel = n + 1 := ⟨fuel - 1, by omega⟩
  have hends : EndsWord (' ' :: '=' :: ' ' :: (text.toList ++ rest)) :=
    endsWord_of_head (by decide)
  obtain ⟨tpos, hbinding⟩ := reads_pattern htarget hends pos fuel
    (by simp only [List.length_append, List.length_cons]; omega)
  obtain ⟨epos, vpos, hequals⟩ := (Lexes.assignment .assign (text.toList ++ rest)).space tpos
  have hmark : Cursor.symbol? "=" ⟨' ' :: '=' :: ' ' :: (text.toList ++ rest), tpos⟩ =
      some ⟨' ' :: (text.toList ++ rest), vpos⟩ :=
    Cursor.symbol?_eq_some_iff.mpr ⟨epos, hequals⟩
  obtain ⟨e, rpos, hread, he⟩ := h rest (vpos.after ' ') fuel hrest (by
    rw [List.length_append]
    omega)
  have hvalue := (assignment_congr (skip_blank (text.toList ++ rest) vpos)).trans hread
  refine ⟨_, rpos, ?_, _, rfl, e, rfl, he⟩
  rw [declarator, hbinding]
  simp only [Option.bind_eq_bind, Option.bind_some, hmark, hvalue]
  rfl

theorem closes_semicolon (text : List Char) : Closes (';' :: text) :=
  ⟨ends_mark (by decide), symbol?_eq_none (.single text (by decide)) (by decide)⟩

section

variable {α : Type} {texts : α → String} {items : List α} {P : α → Declarator → Prop}

theorem reads_moreDeclarators
    (h : ∀ a ∈ items, ReadsItem declarator (fun r => ∃ d, r = .ok d ∧ P a d) (texts a).toList)
    (rest : List Char) (pos : Position) (fuel : Nat) (hrest : Closes rest)
    (hfuel : 16 * (rows (items.map texts) ++ rest).length + 10 ≤ fuel) :
    ∃ readings rpos, moreDeclarators fuel ⟨rows (items.map texts) ++ rest, pos⟩ =
      (readings, ⟨rest, rpos⟩) ∧
        List.Forall₂ (fun a r => ∃ d, r = .ok d ∧ P a d) items readings := by
  refine reads_rows (F := declarator) (fun fuel c hc => ?_)
    (fun fuel c c' r c'' hcomma hread => ?_) (fun _ _ _ hskip => declarator_congr hskip) h rest pos
    fuel hrest hfuel
  · cases fuel with
    | zero => rfl
    | succ fuel => rw [moreDeclarators, hc, Option.bind_none]
  · rw [moreDeclarators, hcomma, Option.bind_some, hread]

theorem readsStatement_declare {S : Stmt → Prop} (kind : DeclKind)
    (h : ∀ a ∈ items, ReadsItem declarator (fun r => ∃ d, r = .ok d ∧ P a d) (texts a).toList)
    (hne : items ≠ []) (hS : ∀ pos ds, List.Forall₂ P items ds → S (.declare pos kind ds)) :
    ReadsStatement S (kind.keyword ++ " " ++ ", ".intercalate (items.map texts) ++ ";").toList := by
  intro rest pos fuel hfuel
  obtain ⟨a, items, rfl⟩ := List.exists_cons_of_ne_nil hne
  obtain ⟨ha, hitems⟩ := List.forall_mem_cons.mp h
  have htext : (kind.keyword ++ " " ++ ", ".intercalate ((a :: items).map texts) ++ ";").toList ++
      rest = kind.keyword.toList ++
        ' ' :: ((texts a).toList ++ (rows (items.map texts) ++ ';' :: rest)) := by
    simp only [String.toList_append, List.map_cons, toList_intercalate]
    simp
  rw [htext] at hfuel ⊢
  simp only [List.length_append, List.length_cons] at hfuel
  obtain ⟨fuel, rfl⟩ : ∃ n, fuel = n + 2 := ⟨fuel - 2, by omega⟩
  have hends : EndsWord (' ' :: ((texts a).toList ++ (rows (items.map texts) ++ ';' :: rest))) :=
    endsWord_of_head (by decide)
  obtain ⟨kpos, bpos, hnext⟩ :=
    Lexes.word (w := kind.keyword) (by cases kind <;> decide) hends pos
  have hkind : declKind? ⟨kind.keyword.toList ++
      ' ' :: ((texts a).toList ++ (rows (items.map texts) ++ ';' :: rest)), pos⟩ = some (kind,
        ⟨' ' :: ((texts a).toList ++ (rows (items.map texts) ++ ';' :: rest)), bpos⟩) := by
    have hmem := Cursor.keyword?_eq_some_iff.mpr ⟨kpos, hnext⟩
    cases kind with
    | ofLet => rw [declKind?, show Cursor.keyword? "let" _ = _ from hmem]
    | ofConst =>
        rw [declKind?, show Cursor.keyword? "const" _ = _ from hmem,
          keyword?_eq_none (v := "let") hnext (by decide)]
    | ofVar =>
        rw [declKind?, show Cursor.keyword? "var" _ = _ from hmem,
          keyword?_eq_none (v := "let") hnext (by decide),
          keyword?_eq_none (v := "const") hnext (by decide)]
  obtain ⟨_, epos, hread, d, rfl, hd⟩ := ha (rows (items.map texts) ++ ';' :: rest) (bpos.after ' ')
    fuel (ends_rows (closes_semicolon rest).ends)
    (by simp only [List.length_append, List.length_cons]; omega)
  have hfirst := (declarator_congr (skip_blank _ bpos)).trans hread
  obtain ⟨readings, cpos, hmore, hreadings⟩ := reads_moreDeclarators hitems (';' :: rest) epos fuel
    (closes_semicolon rest) (by simp only [List.length_append, List.length_cons]; omega)
  obtain ⟨ds, rfl, hds⟩ := exists_of_forall₂_ok hreadings
  obtain ⟨rpos, hclose⟩ := optionalSymbol_semicolon rest cpos
  have hall : all (.ok d :: ds.map .ok) = .ok (d :: ds) := all_map_ok (d :: ds)
  refine ⟨.declare kpos kind (d :: ds), rpos, ?_, hS kpos _ (.cons hd hds)⟩
  have hspecial : special (fuel + 1) ⟨kind.keyword.toList ++
      ' ' :: ((texts a).toList ++ (rows (items.map texts) ++ ';' :: rest)), pos⟩ =
      some (.ok (some (.declare kpos kind (d :: ds))), ⟨rest, rpos⟩) := by
    unfold special
    rw [hnext]
    cases kind
    all_goals
      simp only [DeclKind.keyword] at hkind ⊢
      simp only [hkind, hfirst, hmore, Option.bind_eq_bind, Option.bind_some, hclose, hall]
      rfl
  rw [statement, hspecial]

end

/-- A declaration with `let` of one thing. -/
theorem readsStatement_let {S : Stmt → Prop} {target : Pattern} {text : String}
    (htarget : ∀ n ∈ target.names, isNameText n = true ∧ n ∉ Token.keywords)
    (h : Reads Q text.toList) (hS : ∀ pos e, Q e → S (.declare pos .ofLet [(target, some e)])) :
    ReadsStatement S ("let " ++ Printer.pattern target ++ " = " ++ text ++ ";").toList := by
  have hitem : ReadsItem declarator
      (fun r => ∃ d, r = .ok d ∧ ∃ e, d = (target, some e) ∧ Q e)
      (id (Printer.pattern target ++ " = " ++ text)).toList := readsItem_initialized htarget h
  have hread := readsStatement_declare (S := S) (P := fun _ d => ∃ e, d = (target, some e) ∧ Q e)
    .ofLet (List.forall_mem_singleton.mpr hitem) (List.cons_ne_nil _ _) fun pos ds hds => by
      obtain ⟨d, ds, ⟨e, rfl, he⟩, hnil, rfl⟩ := List.forall₂_cons_left_iff.mp hds
      cases hnil
      exact hS pos e he
  have hone : ", ".intercalate ([Printer.pattern target ++ " = " ++ text].map id) =
      Printer.pattern target ++ " = " ++ text := String.intercalate_singleton
  have htext : DeclKind.ofLet.keyword ++ " " ++ (Printer.pattern target ++ " = " ++ text) ++ ";" =
      "let " ++ Printer.pattern target ++ " = " ++ text ++ ";" := by
    simp [DeclKind.keyword, ← String.toList_inj]
  rw [hone, htext] at hread
  exact hread

/-! ## Programs -/

/-- The first of several statements. -/
theorem statements_of_reads {S : Stmt → Prop} {text rest : List Char} {pos : Position}
    {fuel : Nat} {c c' : Cursor} {ss : List Stmt} (h : ReadsStatement S text)
    (hc : c.skip = Cursor.skip ⟨text ++ rest, pos⟩)
    (hfuel : 16 * (text ++ rest).length + 10 ≤ fuel)
    (hread : statements (fuel + 1) c = (.ok ss, c')) :
    ∃ s ss' rpos, ss = s :: ss' ∧ S s ∧ statements fuel ⟨rest, rpos⟩ = (.ok ss', c') := by
  obtain ⟨s, rpos, hfirst, hs⟩ := h rest pos fuel hfuel
  rw [statements, statement_congr hc, hfirst] at hread
  rcases hothers : statements fuel ⟨rest, rpos⟩ with ⟨_ | ss', c''⟩
  · simp only [hothers] at hread
    cases hread
  · simp only [hothers] at hread
    cases hread
    exact ⟨s, ss', rpos, rfl, hs, hothers⟩

/-- A text is read as a program of one declaration. -/
theorem parse_let {w : String} (hname : isNameText w = true) (hw : w ∉ Token.keywords)
    {text : String} (h : Reads Q text.toList) :
    ∃ pos e, parse ("let " ++ w ++ " = " ++ text ++ ";") =
      .ok [.declare pos .ofLet [(.name w, some e)]] ∧ Q e := by
  have hlet : ReadsStatement (fun s => ∃ pos e, s = .declare pos .ofLet [(.name w, some e)] ∧ Q e)
      ("let " ++ Printer.pattern (.name w) ++ " = " ++ text ++ ";").toList :=
    readsStatement_let (List.forall_mem_singleton.mpr ⟨hname, hw⟩) h
      fun pos e he => ⟨pos, e, rfl, he⟩
  rw [Printer.pattern] at hlet
  obtain ⟨fuel, hfuel⟩ : ∃ n, enough ("let " ++ w ++ " = " ++ text ++ ";") = n + 2 :=
    ⟨enough _ - 2, by rw [enough]; omega⟩
  obtain ⟨_, rpos, hstatement, pos, e, rfl, he⟩ := hlet [] ⟨1, 1⟩ (fuel + 1) (by
    rw [List.append_nil, String.length_toList]
    rw [enough] at hfuel
    omega)
  rw [List.append_nil] at hstatement
  refine ⟨pos, e, ?_, he⟩
  have hrest : statements (fuel + 1) ⟨[], rpos⟩ = (.ok [], ⟨[], rpos⟩) := by
    rw [statements, statement_nil]
  rw [parse, hfuel, Cursor.start, statements, hstatement]
  simp only [hrest]
  rfl

end TraceLoom.Script.Parser
