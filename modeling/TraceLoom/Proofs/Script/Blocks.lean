import TraceLoom.Proofs.Script.Faithful
import TraceLoom.Proofs.Script.Sentences

/-!
Reading printed blocks, and the statements that contain them.  Between two statements stand a line
end and the indentation of the second.
-/

namespace TraceLoom.Script

/-! ## The texts of statements -/

namespace Printer

variable (depth : Nat) (pos : Position)

theorem stmt_declare (kind : DeclKind) (ds : List Declarator) : stmt depth (.declare pos kind ds) =
    kind.keyword ++ " " ++ ", ".intercalate (declarators depth ds) ++ ";" :=
  rfl

theorem stmt_function (name : String) (params : List String) (body : List Stmt) :
    stmt depth (.function pos name params body) =
      functionHead (some name) params ++ braces depth (stmts (depth + 1) body) :=
  rfl

theorem stmt_if (test : Expr) (consequent : List Stmt) :
    stmt depth (.ifElse pos test consequent none) =
      "if (" ++ expr 0 test ++ ") " ++ braces depth (stmts (depth + 1) consequent) :=
  rfl

theorem stmt_ifElse (test : Expr) (consequent alternate : List Stmt) :
    stmt depth (.ifElse pos test consequent (some alternate)) =
      "if (" ++ expr 0 test ++ ") " ++ braces depth (stmts (depth + 1) consequent) ++
        " else " ++ braces depth (stmts (depth + 1) alternate) :=
  rfl

theorem stmt_whileDo (test : Expr) (body : List Stmt) : stmt depth (.whileDo pos test body) =
    "while (" ++ expr 0 test ++ ") " ++ braces depth (stmts (depth + 1) body) :=
  rfl

theorem stmt_labeled (label : String) (body : List Stmt) : stmt depth (.labeled pos label body) =
    label ++ ": " ++ braces depth (stmts (depth + 1) body) :=
  rfl

theorem stmt_breakTo (label : String) :
    stmt depth (.breakTo pos (some label)) = "break " ++ label ++ ";" :=
  rfl

theorem stmt_break : stmt depth (.breakTo pos none) = "break;" :=
  rfl

theorem stmt_returnWith (e : Expr) :
    stmt depth (.returnWith pos (some e)) = "return " ++ expr depth e ++ ";" :=
  rfl

theorem stmt_return : stmt depth (.returnWith pos none) = "return;" :=
  rfl

/-- What would be taken for a function or a block stands in parentheses. -/
theorem stmt_expr_enclosed {e : Expr} (h : (e.isFunction || e.isObject) = true) :
    stmt depth (.expr pos e) = "(" ++ expr depth e ++ ");" := by
  cases e with
  | function | object => rfl
  | _ => cases h

theorem stmt_expr {e : Expr} (h : (e.isFunction || e.isObject) = false) :
    stmt depth (.expr pos e) = expr depth e ++ ";" := by
  cases e with
  | function | object => cases h
  | _ => rfl

end Printer

namespace Parser

open TraceLoom.Script.Printer

variable {text rest : List Char} {fuel : Nat} {c d : Cursor}

/-! ## Where statements end -/

theorem keyword?_congr (h : c.skip = d.skip) (w : String) : c.keyword? w = d.keyword? w := by
  rw [Cursor.keyword?, Cursor.keyword?, next?_congr h]

/-- A text at whose start a conditional without a second branch is over. -/
def EndsBranch (text : List Char) : Prop :=
  ∀ pos, Cursor.keyword? "else" ⟨text, pos⟩ = none

theorem EndsBranch.blank {b : Char} (hb : Cursor.isBlank b = true) (h : EndsBranch text) :
    EndsBranch (b :: text) := fun pos =>
  (keyword?_congr (Cursor.skip_cons_blank hb text pos) "else").trans (h (pos.after b))

/-- No statement starts with `else`. -/
theorem statement_else {pos : Position} (h : c.next? = some ⟨.word "else", pos, d⟩) :
    statement fuel c = none := by
  have hsign : prefixOp? c = none := prefixOp?_word h (by decide)
  have hprimary (fuel : Nat) : primary fuel c = none := by
    cases fuel with
    | zero => rfl
    | succ fuel =>
        rw [primary, h]
        exact if_pos (by decide)
  have hchain (fuel : Nat) : chain fuel c = none := by
    cases fuel with
    | zero => rfl
    | succ fuel => rw [chain, hprimary, Option.map_none]
  have hassignment (fuel : Nat) : assignment fuel c = none := by
    cases fuel with
    | zero => rfl
    | succ fuel =>
        rw [assignment, hsign, hchain]
        rfl
  have hkind : declKind? c = none := by
    rw [declKind?, keyword?_eq_none h (by decide), keyword?_eq_none h (by decide),
      keyword?_eq_none h (by decide)]
  have hspecial (fuel : Nat) : special fuel c = none := by
    cases fuel with
    | zero => rfl
    | succ fuel =>
        unfold special
        rw [h]
        simp only [hkind]
        exact if_pos (by decide)
  cases fuel with
  | zero => rfl
  | succ fuel =>
      rw [statement, hspecial, hassignment]
      rfl

/-- A text in front of which a list of statements is over. -/
structure Stops (text : List Char) : Prop where
  none : ∀ fuel pos, statement fuel ⟨text, pos⟩ = none
  branch : EndsBranch text

theorem stops_nil : Stops [] :=
  ⟨statement_nil, fun _ => rfl⟩

theorem stops_brace (text : List Char) : Stops ('\x7d' :: text) := by
  have hends : Ends ('\x7d' :: text) := ends_mark (by decide)
  have hlex := Lexes.single (c := '\x7d') text (by decide)
  refine ⟨fun fuel pos => ?_, fun pos => ?_⟩
  · obtain ⟨mpos, rpos, hnext⟩ := hlex pos
    have hspecial (fuel : Nat) : special fuel ⟨'\x7d' :: text, pos⟩ = none := by
      cases fuel with
      | zero => rfl
      | succ fuel =>
          unfold special
          rw [hnext]
          rfl
    cases fuel with
    | zero => rfl
    | succ fuel =>
        rw [statement, hspecial, hends.assignment]
        rfl
  · obtain ⟨mpos, rpos, hnext⟩ := hlex pos
    rw [Cursor.keyword?, hnext]

theorem Stops.blank {b : Char} (hb : Cursor.isBlank b = true) (h : Stops text) :
    Stops (b :: text) where
  none fuel pos := (statement_congr (Cursor.skip_cons_blank hb text pos)).trans (h.none fuel _)
  branch := h.branch.blank hb

/-! ### Indentation -/

theorem toList_indent (depth : Nat) : (indent depth).toList = List.replicate (2 * depth) ' ' :=
  String.toList_ofList

theorem skip_indent (depth : Nat) (text : List Char) (pos : Position) :
    ∃ pos', Cursor.skip ⟨(indent depth).toList ++ text, pos⟩ = Cursor.skip ⟨text, pos'⟩ := by
  rw [toList_indent]
  induction 2 * depth generalizing pos with
  | zero => exact ⟨pos, rfl⟩
  | succ n ih =>
      obtain ⟨pos', hskip⟩ := ih (pos.after ' ')
      exact ⟨pos', (skip_blank _ pos).trans hskip⟩

theorem Stops.indent (h : Stops text) (depth : Nat) :
    Stops ((Printer.indent depth).toList ++ text) := by
  rw [toList_indent]
  induction 2 * depth with
  | zero => exact h
  | succ n ih => exact ih.blank (by decide)

theorem EndsBranch.indent (h : EndsBranch text) (depth : Nat) :
    EndsBranch ((Printer.indent depth).toList ++ text) := by
  rw [toList_indent]
  induction 2 * depth with
  | zero => exact h
  | succ n ih => exact ih.blank (by decide)

/-! ## Lists of statements -/

/-- A text is read as a statement of some kind, if no `else` follows. -/
def ReadsSentence (S : Stmt → Prop) (text : List Char) : Prop :=
  ∀ (rest : List Char) (pos : Position) (fuel : Nat), EndsBranch rest →
    16 * (text ++ rest).length + 10 ≤ fuel →
      ∃ s rpos, statement fuel ⟨text ++ rest, pos⟩ = some (.ok (some s), ⟨rest, rpos⟩) ∧ S s

theorem ReadsStatement.sentence {S : Stmt → Prop} (h : ReadsStatement S text) :
    ReadsSentence S text :=
  fun rest pos fuel _ hfuel => h rest pos fuel hfuel

theorem ReadsSentence.endsBranch {S : Stmt → Prop} (h : ReadsSentence S text)
    (hrest : EndsBranch rest) : EndsBranch (text ++ rest) := by
  intro pos
  refine Option.eq_none_iff_forall_ne_some.mpr fun d hd => ?_
  obtain ⟨epos, hnext⟩ := Cursor.keyword?_eq_some_iff.mp hd
  obtain ⟨s, rpos, hread, -⟩ := h rest pos _ hrest (Nat.le_refl _)
  rw [statement_else hnext] at hread
  cases hread

/-- The same statement up to positions. -/
def SameStmt (s s' : Stmt) : Prop :=
  s'.erase = s.erase

theorem stmtsErase_of_forall₂ {ss ss' : List Stmt} (h : List.Forall₂ SameStmt ss ss') :
    Stmt.eraseList ss' = Stmt.eraseList ss := by
  induction h with
  | nil => rfl
  | cons hhead _ ih => exact congrArg₂ List.cons hhead ih

/-- Every statement of a list is read back from its text. -/
def ReadsBody (depth : Nat) (ss : List Stmt) : Prop :=
  ∀ s ∈ ss, ReadsSentence (SameStmt s) (stmt depth s).toList

/-- The lines of a list of statements. -/
def lines (depth : Nat) (ss : List Stmt) : List Char :=
  (String.join ((stmts depth ss).map (· ++ "\n"))).toList

theorem lines_cons (depth : Nat) (s : Stmt) (ss : List Stmt) : lines depth (s :: ss) =
    (indent depth).toList ++ ((stmt depth s).toList ++ '\n' :: lines depth ss) := by
  simp [lines, stmts, String.toList_join]

theorem endsBranch_lines {depth : Nat} {ss : List Stmt} (h : ReadsBody depth ss)
    (hrest : EndsBranch rest) : EndsBranch (lines depth ss ++ rest) := by
  induction ss with
  | nil => exact hrest
  | cons s ss ih =>
      obtain ⟨hs, hss⟩ := List.forall_mem_cons.mp h
      rw [lines_cons, List.append_assoc, List.append_assoc]
      exact (hs.endsBranch ((ih hss).blank (by decide))).indent depth

theorem statements_of_none (h : ∀ fuel, statement fuel c = none) :
    statements fuel c = (.ok [], c) := by
  cases fuel with
  | zero => rfl
  | succ fuel => rw [statements, h]

/-- The lines of a list of statements are read as these statements. -/
theorem reads_lines {depth : Nat} {ss : List Stmt} (h : ReadsBody depth ss) (hrest : Stops rest)
    {pos : Position} (hc : c.skip = Cursor.skip ⟨lines depth ss ++ rest, pos⟩) (fuel : Nat)
    (hfuel : 16 * (lines depth ss ++ rest).length + 11 ≤ fuel) :
    ∃ ss' c' rpos, statements fuel c = (.ok ss', c') ∧ c'.skip = Cursor.skip ⟨rest, rpos⟩ ∧
      List.Forall₂ SameStmt ss ss' := by
  induction ss generalizing c pos fuel with
  | nil =>
      refine ⟨[], c, pos, statements_of_none fun fuel => ?_, hc, .nil⟩
      exact (statement_congr hc).trans (hrest.none fuel pos)
  | cons s ss ih =>
      obtain ⟨hs, hss⟩ := List.forall_mem_cons.mp h
      rw [lines_cons, List.append_assoc, List.append_assoc] at hc hfuel
      rw [List.length_append, List.length_append] at hfuel
      obtain ⟨fuel, rfl⟩ : ∃ n, fuel = n + 1 := ⟨fuel - 1, by omega⟩
      obtain ⟨spos, hskip⟩ := skip_indent depth
        ((stmt depth s).toList ++ ('\n' :: lines depth ss ++ rest)) pos
      obtain ⟨s', epos, hread, hs'⟩ := hs ('\n' :: lines depth ss ++ rest) spos fuel
        ((endsBranch_lines hss hrest.branch).blank (by decide)) (by
          rw [List.length_append]
          omega)
      obtain ⟨ss', c', rpos, hmore, hc', hss'⟩ := ih (c := ⟨'\n' :: lines depth ss ++ rest, epos⟩)
        hss (Cursor.skip_cons_blank (by decide) _ epos) fuel (by
          rw [List.cons_append, List.length_cons] at hfuel
          omega)
      refine ⟨s' :: ss', c', rpos, ?_, hc', .cons hs' hss'⟩
      rw [statements, (statement_congr (hc.trans hskip)).trans hread]
      simp only [hmore]
      rfl

/-! ## Blocks -/

theorem block_congr (h : c.skip = d.skip) : block fuel c = block fuel d := by
  cases fuel with
  | zero => rfl
  | succ fuel => rw [block, block, symbol?_congr h]

/-- The text of a block between its braces. -/
def inside (depth : Nat) : List Stmt → List Char
  | [] => []
  | body => '\n' :: (lines (depth + 1) body ++ (indent depth).toList)

theorem toList_braces (depth : Nat) (body : List Stmt) :
    (braces depth (stmts (depth + 1) body)).toList = '\x7b' :: (inside depth body ++ ['\x7d']) := by
  cases body with
  | nil => simp [braces, inside, stmts]
  | cons s body => simp [braces, inside, lines, stmts]

theorem reads_block {depth : Nat} {body : List Stmt} (h : ReadsBody (depth + 1) body)
    (rest : List Char) (pos : Position) (fuel : Nat)
    (hfuel : 16 * ((braces depth (stmts (depth + 1) body)).toList ++ rest).length ≤ fuel) :
    ∃ body' rpos, block fuel ⟨(braces depth (stmts (depth + 1) body)).toList ++ rest, pos⟩ =
      some (.ok body', ⟨rest, rpos⟩) ∧ List.Forall₂ SameStmt body body' := by
  have htext : (braces depth (stmts (depth + 1) body)).toList ++ rest =
      '\x7b' :: (inside depth body ++ '\x7d' :: rest) := by
    rw [toList_braces]
    simp
  rw [htext] at hfuel ⊢
  rw [List.length_cons] at hfuel
  obtain ⟨fuel, rfl⟩ : ∃ n, fuel = n + 1 := ⟨fuel - 1, by omega⟩
  obtain ⟨mpos, ipos, hnext⟩ := Lexes.single (c := '\x7b') (inside depth body ++ '\x7d' :: rest)
    (by decide) pos
  have hinside : ∃ body' c' rpos,
      statements fuel ⟨inside depth body ++ '\x7d' :: rest, ipos⟩ = (.ok body', c') ∧
        c'.skip = Cursor.skip ⟨'\x7d' :: rest, rpos⟩ ∧ List.Forall₂ SameStmt body body' := by
    cases body with
    | nil =>
        have hlength : 16 * ('\x7d' :: rest).length + 11 ≤ fuel := by
          simp only [inside, List.nil_append] at hfuel
          omega
        exact reads_lines h (stops_brace rest) rfl fuel hlength
    | cons s body =>
        have htext : inside depth (s :: body) ++ '\x7d' :: rest =
            '\n' :: (lines (depth + 1) (s :: body) ++
              ((indent depth).toList ++ '\x7d' :: rest)) := by
          simp [inside]
        rw [htext] at hfuel ⊢
        rw [List.length_cons] at hfuel
        have hskip := Cursor.skip_cons_blank (c := '\n') (by decide)
          (lines (depth + 1) (s :: body) ++ ((indent depth).toList ++ '\x7d' :: rest)) ipos
        obtain ⟨body', c', bpos, hread, hc', hbody'⟩ :=
          reads_lines h ((stops_brace rest).indent depth) hskip fuel (by omega)
        obtain ⟨rpos, hskip⟩ := skip_indent depth ('\x7d' :: rest) bpos
        exact ⟨body', c', rpos, hread, hc'.trans hskip, hbody'⟩
  obtain ⟨body', c', bpos, hread, hc', hbody'⟩ := hinside
  obtain ⟨rpos, hclose⟩ := symbol?_mark (c := '\x7d') (s := "\x7d") rest rfl (by decide) bpos
  refine ⟨body', rpos, ?_, hbody'⟩
  have hopen : Cursor.symbol? "\x7b" ⟨'\x7b' :: (inside depth body ++ '\x7d' :: rest), pos⟩ =
      some ⟨inside depth body ++ '\x7d' :: rest, ipos⟩ :=
    Cursor.symbol?_eq_some_iff.mpr ⟨mpos, hnext⟩
  rw [block, hopen]
  simp only [Option.bind_eq_bind, Option.bind_some, hread, (symbol?_congr hc' "\x7d").trans hclose]
  rfl

/-! ## Functions -/

/-- Parameters that are names. -/
def named (names : List String) : List (Reading Pattern) :=
  names.map fun n => .ok (.name n)

theorem paramNames_named (pos : Position) (names : List String) :
    paramNames pos (named names) = .ok names := by
  induction names with
  | nil => rfl
  | cons n names ih =>
      change (do let rest ← paramNames pos (named names); return n :: rest) = _
      rw [ih]
      rfl

theorem reads_moreBindings {names : List String} (h : ∀ n ∈ names, IsName n)
    (hrest : Closes rest) (pos : Position) (fuel : Nat)
    (hfuel : 16 * (rows names ++ rest).length + 10 ≤ fuel) :
    ∃ rpos, moreBindings fuel ⟨rows names ++ rest, pos⟩ = (named names, ⟨rest, rpos⟩) := by
  have hitems : ∀ n ∈ names, ReadsItem binding (.ok (.name n) = ·) (id n).toList := by
    intro n hn rest pos fuel hrest _
    obtain ⟨rpos, hread⟩ := name?_append (h n hn) hrest.number.1 pos
    exact ⟨_, rpos, by rw [binding, id, hread], rfl⟩
  have hstop (fuel : Nat) (c : Cursor) (hc : c.symbol? "," = none) :
      moreBindings fuel c = ([], c) := by
    cases fuel with
    | zero => rfl
    | succ fuel => rw [moreBindings, hc, Option.bind_none]
  obtain ⟨readings, rpos, hread, hreadings⟩ := reads_rows (F := binding) (M := moreBindings)
    (P := fun n r => .ok (.name n) = r) hstop
    (fun fuel c c' r c'' hcomma hread => by rw [moreBindings, hcomma, Option.bind_some, hread])
    (fun _ _ _ hskip => binding_congr hskip) hitems rest pos fuel hrest (by rwa [List.map_id])
  have hnamed : named names = readings := by
    rw [named, ← List.forall₂_eq_eq_eq]
    exact List.forall₂_map_left_iff.mpr hreadings
  rw [List.map_id] at hread
  exact ⟨rpos, hnamed ▸ hread⟩

theorem reads_params {names : List String} (h : ∀ n ∈ names, IsName n) (rest : List Char)
    (pos : Position) (fuel : Nat)
    (hfuel : 16 * ('(' :: ((", ".intercalate names).toList ++ ')' :: rest)).length ≤ fuel + 1) :
    ∃ rpos, params fuel ⟨'(' :: ((", ".intercalate names).toList ++ ')' :: rest), pos⟩ =
      some (named names, ⟨rest, rpos⟩) := by
  obtain ⟨mpos, npos, hnext⟩ := Lexes.single (c := '(')
    ((", ".intercalate names).toList ++ ')' :: rest) (by decide) pos
  have hopen : Cursor.symbol? "(" ⟨'(' :: ((", ".intercalate names).toList ++ ')' :: rest), pos⟩ =
      some ⟨(", ".intercalate names).toList ++ ')' :: rest, npos⟩ :=
    Cursor.symbol?_eq_some_iff.mpr ⟨mpos, hnext⟩
  have hcloses : Closes (')' :: rest) := closes_mark (by decide)
  cases names with
  | nil =>
      have hlex := Lexes.single (c := ')') rest (by decide)
      obtain ⟨rpos, hclose⟩ := symbol?_mark (c := ')') (s := ")") rest rfl (by decide) npos
      have harray : arrayPattern fuel ⟨')' :: rest, npos⟩ = none := by
        rw [arrayPattern, symbol?_eq_none hlex (by decide)]
        rfl
      have hobject : Cursor.objectPattern? ⟨')' :: rest, npos⟩ = none := by
        rw [Cursor.objectPattern?, symbol?_eq_none hlex (by decide)]
        rfl
      have hbinding : binding fuel ⟨')' :: rest, npos⟩ = none := by
        rw [binding, name?_eq_none hlex, harray, hobject]
        rfl
      change Cursor.symbol? "(" _ = some ⟨')' :: rest, npos⟩ at hopen
      refine ⟨rpos, ?_⟩
      rw [params, hopen]
      simp only [Option.bind_eq_bind, Option.bind_some, hbinding, hclose]
      rfl
  | cons n names =>
      obtain ⟨hn, hnames⟩ := List.forall_mem_cons.mp h
      rw [toList_intercalate, List.append_assoc] at hfuel hopen ⊢
      obtain ⟨bpos, hfirst⟩ := name?_append hn (ends_rows hcloses.ends).number.1 npos
      obtain ⟨epos, hmore⟩ := reads_moreBindings hnames hcloses bpos fuel (by
        rw [List.length_cons, List.length_append] at hfuel
        omega)
      obtain ⟨rpos, hclose⟩ := symbol?_mark (c := ')') (s := ")") rest rfl (by decide) epos
      have hbinding : binding fuel ⟨n.toList ++ (rows names ++ ')' :: rest), npos⟩ =
          some (.ok (.name n), ⟨rows names ++ ')' :: rest, bpos⟩) := by
        rw [binding, hfirst]
      refine ⟨rpos, ?_⟩
      rw [params, hopen]
      simp only [Option.bind_eq_bind, Option.bind_some, hbinding, hmore, hclose]
      rfl

/-- The text of a function behind its name. -/
def tailText (depth : Nat) (params : List String) (body : List Stmt) : List Char :=
  '(' :: ((", ".intercalate params).toList ++
    ')' :: ' ' :: (braces depth (stmts (depth + 1) body)).toList)

theorem reads_functionTail {depth : Nat} {params : List String} {body : List Stmt}
    (hparams : ∀ n ∈ params, IsName n) (h : ReadsBody (depth + 1) body) (fpos : Position)
    (rest : List Char) (pos : Position) (fuel : Nat)
    (hfuel : 16 * (tailText depth params body ++ rest).length ≤ fuel) :
    ∃ body' rpos, functionTail fuel fpos ⟨tailText depth params body ++ rest, pos⟩ =
      some (.ok (params, body'), ⟨rest, rpos⟩) ∧ List.Forall₂ SameStmt body body' := by
  have htext : tailText depth params body ++ rest = '(' :: ((", ".intercalate params).toList ++
      ')' :: ' ' :: ((braces depth (stmts (depth + 1) body)).toList ++ rest)) := by
    simp [tailText]
  rw [htext] at hfuel ⊢
  obtain ⟨fuel, rfl⟩ : ∃ n, fuel = n + 1 := ⟨fuel - 1, by rw [List.length_cons] at hfuel; omega⟩
  obtain ⟨bpos, hread⟩ := reads_params hparams
    (' ' :: ((braces depth (stmts (depth + 1) body)).toList ++ rest)) pos fuel hfuel
  obtain ⟨body', rpos, hblock, hbody'⟩ := reads_block h rest (bpos.after ' ') fuel (by
    simp only [List.length_cons, List.length_append] at hfuel ⊢
    omega)
  refine ⟨body', rpos, ?_, hbody'⟩
  rw [functionTail, hread]
  simp only [Option.bind_eq_bind, Option.bind_some, (block_congr (skip_blank _ bpos)).trans hblock,
    paramNames_named]
  rfl

/-- The text between the keyword of a function and its parameters. -/
def nameText : Option String → List Char
  | none => []
  | some n => ' ' :: n.toList

theorem toList_function (depth : Nat) (name : Option String) (params : List String)
    (body : List Stmt) :
    (functionHead name params ++ braces depth (stmts (depth + 1) body)).toList =
      "function".toList ++ (nameText name ++ tailText depth params body) := by
  cases name <;> simp [functionHead, nameText, tailText]

theorem endsWord_nameText {depth : Nat} {name : Option String} {params : List String}
    {body : List Stmt} : EndsWord (nameText name ++ tailText depth params body ++ rest) := by
  cases name with
  | none => exact endsWord_of_head (c := '(') (by decide)
  | some n => exact endsWord_of_head (c := ' ') (by decide)

/-- A function starts with its keyword. -/
theorem next?_function (depth : Nat) (name : Option String) (params : List String)
    (body : List Stmt) (rest : List Char) (pos : Position) : ∃ wpos npos,
    Cursor.next? ⟨"function".toList ++ (nameText name ++ tailText depth params body) ++ rest, pos⟩ =
      some ⟨.word "function", wpos,
        ⟨nameText name ++ tailText depth params body ++ rest, npos⟩⟩ := by
  rw [List.append_assoc]
  exact Lexes.word (by decide) endsWord_nameText pos

theorem name?_nameText (depth : Nat) {n : String} (hn : IsName n) (params : List String)
    (body : List Stmt) (rest : List Char) (pos : Position) : ∃ rpos,
    Cursor.name? ⟨nameText (some n) ++ tailText depth params body ++ rest, pos⟩ =
      some (n, ⟨tailText depth params body ++ rest, rpos⟩) := by
  have hends : EndsWord (tailText depth params body ++ rest) :=
    endsWord_of_head (c := '(') (by decide)
  obtain ⟨wpos, rpos, hnext⟩ := (Lexes.word hn.1 hends).space pos
  refine ⟨rpos, Cursor.name?_eq_some_iff.mpr ⟨hn.2, wpos, ?_⟩⟩
  simpa [nameText] using hnext

/-- A function is read as an expression. -/
theorem heads_function {depth : Nat} {name : Option String} {params : List String}
    {body : List Stmt} (hname : ∀ n ∈ name, IsName n) (hparams : ∀ n ∈ params, IsName n)
    (h : ReadsBody (depth + 1) body) (pos : Position) :
    Heads (Same (.function pos name params body))
      (expr depth (.function pos name params body)).toList := by
  rw [expr, toList_function]
  refine heads_of_primary (List.append_ne_nil_of_left_ne_nil (by decide) _)
    (fun rest pos hrest => ?_) fun rest pos fuel hrest hfuel => ?_
  · obtain ⟨wpos, npos, hnext⟩ := next?_function depth name params body rest pos
    exact prefixOp?_word hnext (by decide)
  · obtain ⟨wpos, npos, hnext⟩ := next?_function depth name params body rest pos
    simp only [List.length_append] at hfuel
    obtain ⟨fuel, rfl⟩ : ∃ n, fuel = n + 1 := ⟨fuel - 1, by omega⟩
    have hlength : 16 * (tailText depth params body ++ rest).length ≤ fuel := by
      have hkeyword : "function".toList.length = 8 := by decide
      simp only [List.length_append]
      omega
    cases name with
    | none =>
        have hnone : Cursor.name? ⟨tailText depth params body ++ rest, npos⟩ = none :=
          name?_eq_none (.single (c := '(') _ (by decide)) npos
        obtain ⟨body', rpos, hread, hbody'⟩ :=
          reads_functionTail hparams h wpos rest npos fuel hlength
        refine ⟨.function wpos none params body', rpos, ?_, ?_⟩
        · rw [primary, hnext]
          simp only [nameText, List.nil_append, hnone, hread]
          rfl
        · exact congrArg (Expr.function .none none params) (stmtsErase_of_forall₂ hbody')
    | some n =>
        obtain ⟨tpos, hsome⟩ := name?_nameText depth (hname n rfl) params body rest npos
        obtain ⟨body', rpos, hread, hbody'⟩ :=
          reads_functionTail hparams h wpos rest tpos fuel hlength
        refine ⟨.function wpos (some n) params body', rpos, ?_, ?_⟩
        · rw [primary, hnext]
          simp only [hsome, hread]
          rfl
        · exact congrArg (Expr.function .none (some n) params) (stmtsErase_of_forall₂ hbody')

/-! ## Statements -/

theorem statement_of_special {phrase : Reading (Option Stmt) × Cursor}
    (h : special fuel c = some phrase) : statement (fuel + 1) c = some phrase := by
  rw [statement, h]

theorem readsStatement_function {depth : Nat} {name : String} {params : List String}
    {body : List Stmt} (hname : IsName name) (hparams : ∀ n ∈ params, IsName n)
    (h : ReadsBody (depth + 1) body) (pos : Position) :
    ReadsStatement (SameStmt (.function pos name params body))
      (stmt depth (.function pos name params body)).toList := by
  intro rest pos fuel hfuel
  rw [stmt_function, toList_function] at hfuel ⊢
  simp only [List.length_append] at hfuel
  obtain ⟨fuel, rfl⟩ : ∃ n, fuel = n + 2 := ⟨fuel - 2, by omega⟩
  obtain ⟨wpos, npos, hnext⟩ := next?_function depth (some name) params body rest pos
  obtain ⟨tpos, hsome⟩ := name?_nameText depth hname params body rest npos
  obtain ⟨body', rpos, hread, hbody'⟩ := reads_functionTail hparams h wpos rest tpos fuel (by
    simp only [List.length_append]
    omega)
  refine ⟨.function wpos name params body', rpos, statement_of_special ?_, ?_⟩
  · unfold special
    rw [hnext]
    simp only [hsome, hread, Option.bind_eq_bind, Option.bind_some]
    rfl
  · exact congrArg (Stmt.function .none name params) (stmtsErase_of_forall₂ hbody')

/-- A block as a statement, or as the body of one. -/
theorem readsStatement_braces {depth : Nat} {body : List Stmt} (h : ReadsBody (depth + 1) body) :
    ReadsStatement (fun s => ∃ pos body', s = .block pos body' ∧ List.Forall₂ SameStmt body body')
      (braces depth (stmts (depth + 1) body)).toList := by
  intro rest pos fuel hfuel
  obtain ⟨fuel, rfl⟩ : ∃ n, fuel = n + 2 := ⟨fuel - 2, by omega⟩
  obtain ⟨body', rpos, hread, hbody'⟩ := reads_block h rest pos fuel (by omega)
  obtain ⟨mpos, ipos, hnext⟩ := Lexes.single (c := '\x7b') (inside depth body ++ ['\x7d'] ++ rest)
    (by decide) pos
  rw [← List.cons_append, ← toList_braces] at hnext
  refine ⟨.block mpos body', rpos, statement_of_special ?_, mpos, body', rfl, hbody'⟩
  unfold special
  rw [hnext]
  simp only [hread]
  rfl

theorem readsStatement_block {depth : Nat} {body : List Stmt} (h : ReadsBody (depth + 1) body)
    (pos : Position) :
    ReadsStatement (SameStmt (.block pos body)) (stmt depth (.block pos body)).toList := by
  refine (readsStatement_braces h).imp ?_
  rintro _ ⟨bpos, body', rfl, hbody'⟩
  exact congrArg (Stmt.block .none) (stmtsErase_of_forall₂ hbody')

/-- A body behind a blank. -/
theorem reads_body {depth : Nat} {body : List Stmt} (h : ReadsBody (depth + 1) body)
    (rest : List Char) (pos : Position) (fuel : Nat)
    (hfuel : 16 * ((braces depth (stmts (depth + 1) body)).toList ++ rest).length + 10 ≤ fuel) :
    ∃ bpos body' rpos,
      statement fuel ⟨' ' :: ((braces depth (stmts (depth + 1) body)).toList ++ rest), pos⟩ =
        some (.ok (some (.block bpos body')), ⟨rest, rpos⟩) ∧ List.Forall₂ SameStmt body body' := by
  obtain ⟨_, rpos, hread, bpos, body', rfl, hbody'⟩ :=
    readsStatement_braces h rest (pos.after ' ') fuel hfuel
  exact ⟨bpos, body', rpos, (statement_congr (skip_blank _ pos)).trans hread, hbody'⟩

/-- A test in parentheses behind a blank. -/
theorem reads_parenthesized {Q : Expr → Prop} (h : Reads Q text) (rest : List Char) (pos : Position)
    (fuel : Nat) (hfuel : 16 * ('(' :: (text ++ ')' :: rest)).length ≤ fuel) :
    ∃ e rpos, parenthesized fuel ⟨' ' :: '(' :: (text ++ ')' :: rest), pos⟩ =
      some (.ok e, ⟨rest, rpos⟩) ∧ Q e := by
  rw [List.length_cons] at hfuel
  obtain ⟨fuel, rfl⟩ : ∃ n, fuel = n + 1 := ⟨fuel - 1, by omega⟩
  obtain ⟨mpos, epos, hnext⟩ :=
    (Lexes.single (c := '(') (text ++ ')' :: rest) (by decide)).space pos
  have hopen : Cursor.symbol? "(" ⟨' ' :: '(' :: (text ++ ')' :: rest), pos⟩ =
      some ⟨text ++ ')' :: rest, epos⟩ := Cursor.symbol?_eq_some_iff.mpr ⟨mpos, hnext⟩
  obtain ⟨e, cpos, hread, he⟩ := h (')' :: rest) epos fuel (ends_mark (by decide)) (by omega)
  obtain ⟨rpos, hclose⟩ := symbol?_mark (c := ')') (s := ")") rest rfl (by decide) cpos
  refine ⟨e, rpos, ?_, he⟩
  rw [parenthesized, hopen]
  simp only [Option.bind_eq_bind, Option.bind_some, hread, hclose]
  rfl

theorem readsStatement_whileDo {depth : Nat} {test : Expr} {body : List Stmt}
    (htest : Reads (Same test) (expr 0 test).toList) (h : ReadsBody (depth + 1) body)
    (spos : Position) : ReadsStatement (SameStmt (.whileDo spos test body))
      (stmt depth (.whileDo spos test body)).toList := by
  intro rest pos fuel hfuel
  have htext : (stmt depth (.whileDo spos test body)).toList ++ rest = "while".toList ++
      ' ' :: '(' :: ((expr 0 test).toList ++
        ')' :: ' ' :: ((braces depth (stmts (depth + 1) body)).toList ++ rest)) := by
    simp [stmt_whileDo]
  rw [htext] at hfuel ⊢
  simp only [List.length_append, List.length_cons] at hfuel
  obtain ⟨fuel, rfl⟩ : ∃ n, fuel = n + 2 := ⟨fuel - 2, by omega⟩
  obtain ⟨wpos, tpos, hnext⟩ := Lexes.word (w := "while") (by decide)
    (endsWord_of_head (c := ' ') (by decide)) pos
  obtain ⟨test', bpos, hread, htest'⟩ := reads_parenthesized htest
    (' ' :: ((braces depth (stmts (depth + 1) body)).toList ++ rest)) tpos fuel (by
      simp only [List.length_append, List.length_cons]
      omega)
  obtain ⟨_, body', rpos, hbody, hbody'⟩ := reads_body h rest bpos fuel (by
    simp only [List.length_append]
    omega)
  refine ⟨.whileDo wpos test' body', rpos, statement_of_special ?_, ?_⟩
  · unfold special
    rw [hnext]
    simp only [hread, hbody, Option.bind_eq_bind, Option.bind_some]
    rfl
  · exact congrArg₂ (Stmt.whileDo .none) htest' (stmtsErase_of_forall₂ hbody')

/-- The start of a conditional: its test and its first branch. -/
theorem reads_if {depth : Nat} {test : Expr} {body : List Stmt}
    (htest : Reads (Same test) (expr 0 test).toList) (h : ReadsBody (depth + 1) body)
    (rest : List Char) (pos : Position) (fuel : Nat)
    (hfuel : 16 * ("if (" ++ expr 0 test ++ ") " ++
      braces depth (stmts (depth + 1) body)).toList.length + 16 * rest.length ≤ fuel) :
    ∃ wpos ipos test' bpos kpos body' rpos,
      Cursor.next? ⟨("if (" ++ expr 0 test ++ ") " ++
        braces depth (stmts (depth + 1) body)).toList ++ rest, pos⟩ =
          some ⟨.word "if", wpos, ipos⟩ ∧
      parenthesized fuel ipos = some (.ok test', bpos) ∧
      statement fuel bpos = some (.ok (some (.block kpos body')), ⟨rest, rpos⟩) ∧
      Same test test' ∧ List.Forall₂ SameStmt body body' := by
  have htext : ("if (" ++ expr 0 test ++ ") " ++ braces depth (stmts (depth + 1) body)).toList ++
      rest = "if".toList ++ ' ' :: '(' :: ((expr 0 test).toList ++
        ')' :: ' ' :: ((braces depth (stmts (depth + 1) body)).toList ++ rest)) := by
    simp
  rw [← Nat.mul_add, ← List.length_append, htext] at hfuel
  rw [htext]
  simp only [List.length_append, List.length_cons] at hfuel
  obtain ⟨wpos, tpos, hnext⟩ := Lexes.word (w := "if") (by decide)
    (endsWord_of_head (c := ' ') (by decide)) pos
  obtain ⟨test', bpos, hread, htest'⟩ := reads_parenthesized htest
    (' ' :: ((braces depth (stmts (depth + 1) body)).toList ++ rest)) tpos fuel (by
      simp only [List.length_append, List.length_cons]
      omega)
  obtain ⟨kpos, body', rpos, hbody, hbody'⟩ := reads_body h rest bpos fuel (by
    simp only [List.length_append]
    omega)
  exact ⟨wpos, _, test', _, kpos, body', rpos, hnext, hread, hbody, htest', hbody'⟩

/-- A conditional without a second branch is over where no `else` follows. -/
theorem readsSentence_if {depth : Nat} {test : Expr} {consequent : List Stmt}
    (htest : Reads (Same test) (expr 0 test).toList) (h : ReadsBody (depth + 1) consequent)
    (spos : Position) : ReadsSentence (SameStmt (.ifElse spos test consequent none))
      (stmt depth (.ifElse spos test consequent none)).toList := by
  intro rest pos fuel hrest hfuel
  rw [stmt_if] at hfuel ⊢
  rw [List.length_append] at hfuel
  obtain ⟨fuel, rfl⟩ : ∃ n, fuel = n + 2 := ⟨fuel - 2, by omega⟩
  obtain ⟨wpos, ipos, test', bpos, kpos, body', rpos, hnext, hread, hbody, htest', hbody'⟩ :=
    reads_if htest h rest pos fuel (by omega)
  refine ⟨.ifElse wpos test' body' none, rpos, statement_of_special ?_, ?_⟩
  · unfold special
    rw [hnext]
    simp only [hread, hbody, hrest rpos, Option.bind_eq_bind, Option.bind_some, Option.bind_none]
    rfl
  · exact congrArg₂ (Stmt.ifElse .none · · none) htest' (stmtsErase_of_forall₂ hbody')

theorem readsStatement_ifElse {depth : Nat} {test : Expr} {consequent alternate : List Stmt}
    (htest : Reads (Same test) (expr 0 test).toList) (h : ReadsBody (depth + 1) consequent)
    (halternate : ReadsBody (depth + 1) alternate) (spos : Position) :
    ReadsStatement (SameStmt (.ifElse spos test consequent (some alternate)))
      (stmt depth (.ifElse spos test consequent (some alternate))).toList := by
  intro rest pos fuel hfuel
  have htext : (stmt depth (.ifElse spos test consequent (some alternate))).toList ++ rest =
      ("if (" ++ expr 0 test ++ ") " ++ braces depth (stmts (depth + 1) consequent)).toList ++
        ' ' :: ("else".toList ++
          ' ' :: ((braces depth (stmts (depth + 1) alternate)).toList ++ rest)) := by
    simp [stmt_ifElse]
  rw [htext] at hfuel ⊢
  rw [List.length_append] at hfuel
  obtain ⟨fuel, rfl⟩ : ∃ n, fuel = n + 2 := ⟨fuel - 2, by omega⟩
  obtain ⟨wpos, ipos, test', bpos, kpos, body', epos, hnext, hread, hbody, htest', hbody'⟩ :=
    reads_if htest h (' ' :: ("else".toList ++
      ' ' :: ((braces depth (stmts (depth + 1) alternate)).toList ++ rest))) pos fuel (by omega)
  have hends : EndsWord (' ' :: ((braces depth (stmts (depth + 1) alternate)).toList ++ rest)) :=
    endsWord_of_head (by decide)
  obtain ⟨lpos, apos, hlex⟩ := (Lexes.word (w := "else") (by decide) hends).space epos
  have helse := Cursor.keyword?_eq_some_iff.mpr ⟨lpos, hlex⟩
  obtain ⟨_, more', rpos, hmore, hmore'⟩ := reads_body halternate rest apos fuel (by
    simp only [List.length_append, List.length_cons] at hfuel ⊢
    omega)
  refine ⟨.ifElse wpos test' body' (some more'), rpos, statement_of_special ?_, ?_⟩
  · unfold special
    rw [hnext]
    simp only [hread, hbody, helse, hmore, Option.bind_eq_bind, Option.bind_some]
    rfl
  · have herase : test'.erase = test.erase := htest'
    rw [SameStmt, Stmt.erase, Stmt.erase, herase, stmtsErase_of_forall₂ hbody',
      stmtsErase_of_forall₂ hmore']

theorem readsStatement_labeled {depth : Nat} {label : String} {body : List Stmt}
    (hlabel : IsName label) (h : ReadsBody (depth + 1) body) (spos : Position) :
    ReadsStatement (SameStmt (.labeled spos label body))
      (stmt depth (.labeled spos label body)).toList := by
  intro rest pos fuel hfuel
  have htext : (stmt depth (.labeled spos label body)).toList ++ rest = label.toList ++
      ':' :: ' ' :: ((braces depth (stmts (depth + 1) body)).toList ++ rest) := by
    simp [stmt_labeled]
  rw [htext] at hfuel ⊢
  simp only [List.length_append, List.length_cons] at hfuel
  obtain ⟨fuel, rfl⟩ : ∃ n, fuel = n + 2 := ⟨fuel - 2, by omega⟩
  obtain ⟨wpos, cpos, hnext⟩ := Lexes.word hlabel.1
    (endsWord_of_head (c := ':') (by decide)) pos
  obtain ⟨bpos, hcolon⟩ := symbol?_mark (c := ':') (s := ":")
    (' ' :: ((braces depth (stmts (depth + 1) body)).toList ++ rest)) rfl (by decide) cpos
  obtain ⟨_, body', rpos, hbody, hbody'⟩ := reads_body h rest bpos fuel (by
    simp only [List.length_append]
    omega)
  have hkind : declKind? ⟨label.toList ++
      ':' :: ' ' :: ((braces depth (stmts (depth + 1) body)).toList ++ rest), pos⟩ = none := by
    rw [declKind?, keyword?_eq_none hnext, keyword?_eq_none hnext, keyword?_eq_none hnext]
    all_goals
      rintro rfl
      exact absurd (by decide) hlabel.2
  refine ⟨.labeled wpos label body', rpos, statement_of_special ?_, ?_⟩
  · unfold special
    rw [hnext]
    split
    all_goals rename_i heq
    all_goals try cases heq
    all_goals try exact absurd (by decide) hlabel.2
    · simp only [hkind, hlabel.2, hcolon, hbody, if_false, Option.bind_eq_bind, Option.bind_some]
      rfl
    · exact absurd rfl (heq _ _ _)
  · exact congrArg (Stmt.labeled .none label) (stmtsErase_of_forall₂ hbody')

/-! ### Declarations -/

/-- The text of a declarator. -/
def declaratorText (depth : Nat) : Declarator → String
  | (target, none) => pattern target
  | (target, some e) => pattern target ++ " = " ++ expr depth e

theorem declarators_eq_map (depth : Nat) (ds : List Declarator) :
    declarators depth ds = ds.map (declaratorText depth) := by
  induction ds with
  | nil => rfl
  | cons d ds ih =>
      obtain ⟨target, _ | e⟩ := d
      · exact congrArg (pattern target :: ·) ih
      · exact congrArg ((pattern target ++ " = " ++ expr depth e) :: ·) ih

/-- The same declarator up to positions. -/
def SameDeclarator (d d' : Declarator) : Prop :=
  d'.1 = d.1 ∧ d'.2.map Expr.erase = d.2.map Expr.erase

theorem eraseDeclarators_eq_map (ds : List Declarator) :
    Stmt.eraseDeclarators ds = ds.map fun d => (d.1, d.2.map Expr.erase) := by
  induction ds with
  | nil => rfl
  | cons d ds ih =>
      obtain ⟨target, _ | e⟩ := d
      · exact congrArg ((target, none) :: ·) ih
      · exact congrArg ((target, some e.erase) :: ·) ih

theorem eraseDeclarators_of_forall₂ {ds ds' : List Declarator}
    (h : List.Forall₂ SameDeclarator ds ds') :
    Stmt.eraseDeclarators ds' = Stmt.eraseDeclarators ds := by
  rw [eraseDeclarators_eq_map, eraseDeclarators_eq_map]
  induction h with
  | nil => rfl
  | cons hhead _ ih => exact congrArg₂ List.cons (Prod.ext hhead.1 hhead.2) ih

theorem readsItem_declarator {depth : Nat} {d : Declarator} (htarget : ∀ n ∈ d.1.names, IsName n)
    (h : ∀ e ∈ d.2, Reads (Same e) (expr depth e).toList) :
    ReadsItem declarator (fun r => ∃ d', r = .ok d' ∧ SameDeclarator d d')
      (declaratorText depth d).toList := by
  intro rest pos fuel hrest hfuel
  obtain ⟨target, _ | e⟩ := d
  · obtain ⟨_, rpos, hread, _, rfl, rfl⟩ := readsItem_declared htarget rest pos fuel hrest hfuel
    exact ⟨_, rpos, hread, _, rfl, rfl, rfl⟩
  · obtain ⟨_, rpos, hread, _, rfl, e', rfl, he'⟩ :=
      readsItem_initialized htarget (h e rfl) rest pos fuel hrest hfuel
    exact ⟨_, rpos, hread, _, rfl, rfl, congrArg some he'⟩

theorem readsStatement_declaration {depth : Nat} {ds : List Declarator} (hne : ds ≠ [])
    (h : ∀ d ∈ ds, (∀ n ∈ d.1.names, IsName n) ∧ ∀ e ∈ d.2, Reads (Same e) (expr depth e).toList)
    (spos : Position) (kind : DeclKind) :
    ReadsStatement (SameStmt (.declare spos kind ds))
      (stmt depth (.declare spos kind ds)).toList := by
  rw [stmt_declare, declarators_eq_map]
  exact readsStatement_declare kind (fun d hd => readsItem_declarator (h d hd).1 (h d hd).2) hne
    fun pos ds' hds' => congrArg (Stmt.declare .none kind) (eraseDeclarators_of_forall₂ hds')

/-! ### Leaving a construct -/

theorem readsStatement_break {depth : Nat} {label : Option String} (hlabel : ∀ n ∈ label, IsName n)
    (spos : Position) :
    ReadsStatement (SameStmt (.breakTo spos label)) (stmt depth (.breakTo spos label)).toList := by
  intro rest pos fuel hfuel
  obtain ⟨fuel, rfl⟩ : ∃ n, fuel = n + 2 := ⟨fuel - 2, by omega⟩
  cases label with
  | none =>
      have htext : (stmt depth (.breakTo spos none)).toList ++ rest =
          "break".toList ++ ';' :: rest := by simp [stmt_break]
      have hends : EndsWord (';' :: rest) := endsWord_of_head (by decide)
      obtain ⟨wpos, bpos, hnext⟩ := Lexes.word (w := "break") (by decide) hends pos
      have hnone := name?_eq_none (.single (c := ';') rest (by decide)) bpos
      obtain ⟨rpos, hclose⟩ := optionalSymbol_semicolon rest bpos
      refine ⟨.breakTo wpos none, rpos, statement_of_special ?_, rfl⟩
      rw [htext]
      unfold special
      rw [hnext]
      simp only [hnone, hclose]
  | some n =>
      have htext : (stmt depth (.breakTo spos (some n))).toList ++ rest =
          "break".toList ++ ' ' :: (n.toList ++ ';' :: rest) := by simp [stmt_breakTo]
      have hends : EndsWord (' ' :: (n.toList ++ ';' :: rest)) := endsWord_of_head (by decide)
      have hends' : EndsWord (';' :: rest) := endsWord_of_head (by decide)
      obtain ⟨wpos, bpos, hnext⟩ := Lexes.word (w := "break") (by decide) hends pos
      obtain ⟨npos, epos, hname⟩ := (Lexes.word (hlabel n rfl).1 hends').space bpos
      have hsome := Cursor.name?_eq_some_iff.mpr ⟨(hlabel n rfl).2, npos, hname⟩
      obtain ⟨rpos, hclose⟩ := optionalSymbol_semicolon rest epos
      refine ⟨.breakTo wpos (some n), rpos, statement_of_special ?_, rfl⟩
      rw [htext]
      unfold special
      rw [hnext]
      simp only [hsome, hclose]

theorem readsStatement_return {depth : Nat} {value : Option Expr}
    (h : ∀ e ∈ value, Reads (Same e) (expr depth e).toList) (spos : Position) :
    ReadsStatement (SameStmt (.returnWith spos value))
      (stmt depth (.returnWith spos value)).toList := by
  intro rest pos fuel hfuel
  cases value with
  | none =>
      obtain ⟨fuel, rfl⟩ : ∃ n, fuel = n + 2 := ⟨fuel - 2, by omega⟩
      have htext : (stmt depth (.returnWith spos none)).toList ++ rest =
          "return".toList ++ ';' :: rest := by simp [stmt_return]
      have hends : Ends (';' :: rest) := ends_mark (by decide)
      obtain ⟨wpos, bpos, hnext⟩ := Lexes.word (w := "return") (by decide) hends.number.1 pos
      obtain ⟨rpos, hclose⟩ := optionalSymbol_semicolon rest bpos
      refine ⟨.returnWith wpos none, rpos, statement_of_special ?_, rfl⟩
      rw [htext]
      unfold special
      rw [hnext]
      simp only [hends.assignment, hclose]
  | some e =>
      have htext : (stmt depth (.returnWith spos (some e))).toList ++ rest =
          "return".toList ++ ' ' :: ((expr depth e).toList ++ ';' :: rest) := by
        simp [stmt_returnWith]
      rw [htext] at hfuel ⊢
      simp only [List.length_append, List.length_cons] at hfuel
      obtain ⟨fuel, rfl⟩ : ∃ n, fuel = n + 2 := ⟨fuel - 2, by omega⟩
      have hends : EndsWord (' ' :: ((expr depth e).toList ++ ';' :: rest)) :=
        endsWord_of_head (by decide)
      obtain ⟨wpos, bpos, hnext⟩ := Lexes.word (w := "return") (by decide) hends pos
      obtain ⟨e', epos, hread, he'⟩ := h e rfl (';' :: rest) (bpos.after ' ') fuel
        (ends_mark (by decide)) (by
          simp only [List.length_append, List.length_cons]
          omega)
      have hvalue := (assignment_congr (skip_blank _ bpos)).trans hread
      obtain ⟨rpos, hclose⟩ := optionalSymbol_semicolon rest epos
      refine ⟨.returnWith wpos (some e'), rpos, statement_of_special ?_,
        congrArg (Stmt.returnWith .none ∘ some) he'⟩
      unfold special
      rw [hnext]
      simp only [hvalue, hclose]
      rfl

/-! ### Expressions -/

/-- What starts like an expression is no other statement. -/
theorem special_eq_none_of_opener {token : Token} (h : Lexes text token rest)
    (hopener : Opener token rest) (fuel : Nat) (pos : Position) :
    special fuel ⟨text, pos⟩ = none := by
  obtain ⟨tpos, rpos, hnext⟩ := h pos
  cases hopener with
  | name hw hmore => exact special_eq_none fuel hnext hw (hmore rpos)
  | value hw =>
      cases fuel with
      | zero => rfl
      | succ fuel =>
          have hkind : declKind? ⟨text, pos⟩ = none := by
            rw [declKind?, keyword?_eq_none hnext, keyword?_eq_none hnext, keyword?_eq_none hnext]
            all_goals
              rintro rfl
              exact absurd hw (by decide)
          simp only [List.mem_cons, List.not_mem_nil, or_false] at hw
          rcases hw with rfl | rfl | rfl | rfl | rfl
          all_goals
            unfold special
            rw [hnext]
            simp only [hkind]
            exact if_pos (by decide)
  | symbol hs =>
      cases fuel with
      | zero => rfl
      | succ fuel =>
          unfold special
          rw [hnext]
          split
          all_goals rename_i heq
          all_goals try cases heq
          all_goals try exact absurd (by decide) hs
          rfl
  | number | string =>
      cases fuel with
      | zero => rfl
      | succ fuel =>
          unfold special
          rw [hnext]

/-- An expression with a semicolon behind it. -/
theorem readsStatement_of_opens {Q : Expr → Prop} {S : Stmt → Prop} (h : Reads Q text)
    (hopens : OpensExpr text) (hS : ∀ pos e, Q e → S (.expr pos e)) :
    ReadsStatement S (text ++ [';']) := by
  intro rest pos fuel hfuel
  have htext : text ++ [';'] ++ rest = text ++ ';' :: rest := by simp
  rw [htext] at hfuel ⊢
  obtain ⟨fuel, rfl⟩ : ∃ n, fuel = n + 1 := ⟨fuel - 1, by omega⟩
  obtain ⟨token, more, hlex, hopener⟩ := hopens (';' :: rest) (follows_mark (by decide))
  obtain ⟨e, epos, hread, he⟩ := h (';' :: rest) pos fuel (ends_mark (by decide)) (by omega)
  obtain ⟨rpos, hclose⟩ := optionalSymbol_semicolon rest epos
  refine ⟨.expr (Cursor.skip ⟨text ++ ';' :: rest, pos⟩).pos e, rpos, ?_, hS _ e he⟩
  rw [statement, special_eq_none_of_opener hlex hopener]
  simp only [hread, hclose, Option.bind_eq_bind, Option.bind_some]
  rfl

theorem readsStatement_exprStmt {depth : Nat} {e : Expr} (h : Faithful e)
    (hproper : e.Proper spelled) (hlegible : e.Legible)
    (hobject : e.opensObject = true → e.isObject = true) (spos : Position) :
    ReadsStatement (SameStmt (.expr spos e)) (stmt depth (.expr spos e)).toList := by
  have hS : ∀ pos e', Same e e' → SameStmt (.expr spos e) (.expr pos e') :=
    fun _ _ he' => congrArg (Stmt.expr .none) he'
  cases henclosed : e.isFunction || e.isObject with
  | true =>
      have htext : (stmt depth (.expr spos e)).toList =
          '(' :: ((expr depth e).toList ++ [')']) ++ [';'] := by
        simp [stmt_expr_enclosed depth spos henclosed]
      rw [htext]
      exact readsStatement_of_opens (heads_paren (h.whole depth)).readsOperand.reads
        (.mark (by decide) _) hS
  | false =>
      obtain ⟨hfunction, hno⟩ := Bool.or_eq_false_iff.mp henclosed
      have htext : (stmt depth (.expr spos e)).toList = (expr depth e).toList ++ [';'] := by
        simp [stmt_expr depth spos henclosed]
      have hopens : e.opensObject = false := by
        refine Bool.eq_false_iff.mpr fun htrue => ?_
        rw [hobject htrue] at hno
        cases hno
      rw [htext]
      exact readsStatement_of_opens (h.whole depth)
        (opensExpr_expr depth e hproper hlegible hopens hfunction) hS

end Parser

end TraceLoom.Script
