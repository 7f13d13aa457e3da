import TraceLoom.Proofs.Script.Lexing
import TraceLoom.Proofs.Script.Precedence

/-!
Reading a text of which the form is known.  What is said of a text holds wherever it stands, of
whatever follows as long as that ends it, and with any fuel from some bound on.
-/

namespace TraceLoom.Script.Parser

open Cursor

/-! ## Blanks -/

section

variable {fuel : Nat} {c d : Cursor}

theorem next?_congr (h : c.skip = d.skip) : c.next? = d.next? := by
  rw [Cursor.next?, Cursor.next?, h]

theorem symbol?_congr (h : c.skip = d.skip) (s : String) : c.symbol? s = d.symbol? s := by
  rw [Cursor.symbol?, Cursor.symbol?, next?_congr h]

theorem prefixOp?_congr (h : c.skip = d.skip) : prefixOp? c = prefixOp? d := by
  rw [prefixOp?, prefixOp?, next?_congr h]

theorem chain_congr (h : c.skip = d.skip) : chain fuel c = chain fuel d := by
  have hprimary (fuel : Nat) : primary fuel c = primary fuel d := by
    cases fuel with
    | zero => rfl
    | succ fuel => rw [primary, primary, next?_congr h]
  cases fuel with
  | zero => rfl
  | succ fuel => rw [chain, chain, hprimary, h]

theorem operand_congr (h : c.skip = d.skip) : operand fuel c = operand fuel d := by
  cases fuel with
  | zero => rfl
  | succ fuel => rw [operand, operand, prefixOp?_congr h, chain_congr h]

theorem assignment_congr (h : c.skip = d.skip) : assignment fuel c = assignment fuel d := by
  cases fuel with
  | zero => rfl
  | succ fuel =>
      rw [assignment, assignment, operand_congr h, prefixOp?_congr h, chain_congr h, h]

theorem property_congr (h : c.skip = d.skip) : property fuel c = property fuel d := by
  cases fuel with
  | zero => rfl
  | succ fuel => rw [property, property, objectKey?, objectKey?, next?_congr h]

end

/-- A blank in front of a text does not change what comes next. -/
theorem skip_blank (text : List Char) (pos : Position) :
    Cursor.skip ⟨' ' :: text, pos⟩ = Cursor.skip ⟨text, pos.after ' '⟩ :=
  skip_cons_blank (by decide) text pos

theorem symbol?_of_ne {text rest : List Char} {token : Token} {s : String}
    (h : Lexes text token rest) (hs : token ≠ .symbol s) (pos : Position) :
    Cursor.symbol? s ⟨text, pos⟩ = none := by
  refine Option.eq_none_iff_forall_ne_some.mpr fun c hc => hs ?_
  obtain ⟨mpos, rpos, hnext⟩ := h pos
  obtain ⟨_, hnext'⟩ := symbol?_eq_some_iff.mp hc
  rw [hnext, Option.some.injEq, Lexeme.mk.injEq] at hnext'
  exact hnext'.1

theorem symbol?_eq_none {text rest : List Char} {s t : String}
    (h : Lexes text (.symbol s) rest) (hs : s ≠ t) (pos : Position) :
    Cursor.symbol? t ⟨text, pos⟩ = none :=
  symbol?_of_ne h (fun heq => hs (Token.symbol.inj heq)) pos

/-- A mark comes next. -/
theorem symbol?_mark {c : Char} {s : String} (rest : List Char) (hs : String.singleton c = s)
    (hc : c ∈ [')', ']', '\x7d', ',', ';', ':']) (pos : Position) :
    ∃ rpos, Cursor.symbol? s ⟨c :: rest, pos⟩ = some ⟨rest, rpos⟩ := by
  subst hs
  have hlex : Lexes (c :: rest) (.symbol (String.singleton c)) rest := by
    simp only [List.mem_cons, List.not_mem_nil, or_false] at hc
    rcases hc with rfl | rfl | rfl | rfl | rfl | rfl <;> exact .single _ (by decide)
  obtain ⟨mpos, rpos, hnext⟩ := hlex pos
  exact ⟨rpos, symbol?_eq_some_iff.mpr ⟨mpos, hnext⟩⟩

/-! ## Where operands end -/

theorem endsWord_of_head {c : Char} {text : List Char} (hc : Token.isWordChar c = false) :
    EndsWord (c :: text) := fun d hd => by
  cases hd
  exact hc

theorem endsNumber_of_head {c : Char} {text : List Char} (hc : Token.isWordChar c = false)
    (hdot : c ≠ '.') : EndsNumber (c :: text) := by
  refine ⟨endsWord_of_head hc, fun more heq => ?_⟩
  cases heq
  exact absurd rfl hdot

/-- The marks that continue an operand, or make it the target of an assignment. -/
def continuing : List String :=
  ["(", ".", "[", "++", "--", "=", "+=", "-=", "*=", "/="]

/-- A text at whose start an operand is over. -/
structure EndsOperand (text : List Char) : Prop where
  number : EndsNumber text
  mark : ∃ s ∉ continuing, ∃ rest, Lexes text (.symbol s) rest

theorem endsOperand_operator (op : BinaryOp) (text : List Char) :
    EndsOperand (' ' :: (op.symbol.toList ++ ' ' :: text)) :=
  ⟨endsNumber_of_head (by decide) (by decide), op.symbol, by cases op <;> decide, _,
    (Lexes.operator op text).space⟩

/-- No suffix comes next. -/
theorem suffixes_of_mark {c : Cursor} {s : String} {mpos : Position} {rest : Cursor}
    (hnext : c.next? = some ⟨.symbol s, mpos, rest⟩) (hs : s ∉ ["(", ".", "["]) (fuel : Nat)
    (start : Position) (head : Reading Expr) : suffixes fuel start head c = (head, c) := by
  have hsuffix (fuel : Nat) : suffix fuel start head c = none := by
    cases fuel with
    | zero => rfl
    | succ fuel =>
        rw [suffix, hnext]
        split
        all_goals rename_i heq
        all_goals first
          | rfl
          | cases heq
            exact absurd (by decide) hs
  cases fuel with
  | zero => rfl
  | succ fuel => rw [suffixes, hsuffix]

namespace EndsOperand

variable {text : List Char} (h : EndsOperand text) (pos : Position)

include h

theorem next? : ∃ s ∉ continuing, ∃ mpos rest,
    Cursor.next? ⟨text, pos⟩ = some ⟨.symbol s, mpos, rest⟩ := by
  obtain ⟨s, hs, rest, hlex⟩ := h.mark
  obtain ⟨mpos, rpos, hnext⟩ := hlex pos
  exact ⟨s, hs, mpos, _, hnext⟩

theorem assignOp? : Parser.assignOp? ⟨text, pos⟩ = none := by
  obtain ⟨s, hs, mpos, rest, hnext⟩ := h.next? pos
  rw [Parser.assignOp?, hnext]
  dsimp only
  split
  all_goals first
    | rfl
    | exact absurd (by decide) hs

theorem postfixes (fuel : Nat) (target : Reading Expr) :
    Parser.postfixes fuel target ⟨text, pos⟩ = (target, ⟨text, pos⟩) := by
  cases fuel with
  | zero => rfl
  | succ fuel =>
      obtain ⟨s, hs, mpos, rest, hnext⟩ := h.next? pos
      have hupdate : updateOp? s = none := by
        unfold updateOp?
        split
        all_goals first
          | rfl
          | exact absurd (by decide) hs
      rw [Parser.postfixes, hnext]
      simp only [hupdate]

theorem suffixes (fuel : Nat) (start : Position) (head : Reading Expr) :
    Parser.suffixes fuel start head ⟨text, pos⟩ = (head, ⟨text, pos⟩) := by
  obtain ⟨s, hs, mpos, rest, hnext⟩ := h.next? pos
  refine suffixes_of_mark hnext (fun hmem => hs ?_) fuel start head
  exact List.mem_append_left ["++", "--", "=", "+=", "-=", "*=", "/="] hmem

end EndsOperand

/-! ## Where expressions end -/

/-- A text at whose start an expression is over. -/
structure Ends (text : List Char) : Prop where
  number : EndsNumber text
  mark : ∃ s ∈ [",", ")", "]", "\x7d", ";"], ∃ rest, Lexes text (.symbol s) rest

theorem ends_mark {c : Char} {text : List Char} (hc : c ∈ [',', ')', ']', '\x7d', ';']) :
    Ends (c :: text) := by
  simp only [List.mem_cons, List.not_mem_nil, or_false] at hc
  rcases hc with rfl | rfl | rfl | rfl | rfl <;>
    exact ⟨endsNumber_of_head (by decide) (by decide), _, by decide, _, .single _ (by decide)⟩

theorem Ends.blank {text : List Char} (h : Ends text) : Ends (' ' :: text) :=
  let ⟨s, hs, rest, hlex⟩ := h.mark
  ⟨endsNumber_of_head (by decide) (by decide), s, hs, rest, hlex.space⟩

namespace Ends

variable {text : List Char} (h : Ends text) (pos : Position)

include h

theorem endsOperand : EndsOperand text := by
  obtain ⟨s, hs, rest, hlex⟩ := h.mark
  refine ⟨h.number, s, fun hmem => ?_, rest, hlex⟩
  simp only [List.mem_cons, List.not_mem_nil, or_false] at hs
  rcases hs with rfl | rfl | rfl | rfl | rfl <;> exact absurd hmem (by decide)

theorem next? : ∃ s ∈ [",", ")", "]", "\x7d", ";"], ∃ mpos rest,
    Cursor.next? ⟨text, pos⟩ = some ⟨.symbol s, mpos, rest⟩ := by
  obtain ⟨s, hs, rest, hlex⟩ := h.mark
  obtain ⟨mpos, rpos, hnext⟩ := hlex pos
  exact ⟨s, hs, mpos, _, hnext⟩

theorem symbol? {t : String} (ht : t ∉ [",", ")", "]", "\x7d", ";"]) :
    Cursor.symbol? t ⟨text, pos⟩ = none := by
  obtain ⟨s, hs, rest, hlex⟩ := h.mark
  refine symbol?_eq_none hlex ?_ pos
  rintro rfl
  exact ht hs

theorem operations (fuel : Nat) : Parser.operations fuel ⟨text, pos⟩ = ([], ⟨text, pos⟩) := by
  cases fuel with
  | zero => rfl
  | succ fuel =>
      obtain ⟨s, hs, mpos, rest, hnext⟩ := h.next? pos
      have hop : infixOp? ⟨text, pos⟩ = none := by
        simp only [List.mem_cons, List.not_mem_nil, or_false] at hs
        rw [infixOp?, hnext]
        rcases hs with rfl | rfl | rfl | rfl | rfl <;> rfl
      rw [Parser.operations, hop, Option.bind_none]

/-- Nothing is read where something ends. -/
theorem assignment (fuel : Nat) : Parser.assignment fuel ⟨text, pos⟩ = none := by
  obtain ⟨s, hs, mpos, rest, hnext⟩ := h.next? pos
  simp only [List.mem_cons, List.not_mem_nil, or_false] at hs
  have hsign : prefixOp? ⟨text, pos⟩ = none := by
    rw [prefixOp?, hnext]
    rcases hs with rfl | rfl | rfl | rfl | rfl <;> rfl
  have hprimary (fuel : Nat) : primary fuel ⟨text, pos⟩ = none := by
    cases fuel with
    | zero => rfl
    | succ fuel =>
        rw [primary, hnext]
        rcases hs with rfl | rfl | rfl | rfl | rfl <;> rfl
  have hchain (fuel : Nat) : chain fuel ⟨text, pos⟩ = none := by
    cases fuel with
    | zero => rfl
    | succ fuel => rw [chain, hprimary, Option.map_none]
  cases fuel with
  | zero => rfl
  | succ fuel =>
      rw [Parser.assignment, hsign, hchain]
      rfl

end Ends

/-! ## Expressions -/

/-- A text is read as an expression of some kind. -/
def Reads (Q : Expr → Prop) (text : List Char) : Prop :=
  ∀ (rest : List Char) (pos : Position) (fuel : Nat), Ends rest →
    16 * (text ++ rest).length + 8 ≤ fuel →
      ∃ e rpos, assignment fuel ⟨text ++ rest, pos⟩ = some (.ok e, ⟨rest, rpos⟩) ∧ Q e

/-- An operand is read, either by the sign in front of it or because no assignment follows. -/
def Begins (fuel : Nat) (c : Cursor) (first : Reading Expr) (behind : Cursor) : Prop :=
  (prefixOp? c).isSome = true ∧ operand fuel c = some (first, behind) ∨
    prefixOp? c = none ∧ ∃ target d, chain fuel c = some (target, d) ∧ assignOp? d = none ∧
      postfixes fuel target d = (first, behind)

/-- A text is read as an operand of some kind. -/
def ReadsOperand (Q : Expr → Prop) (text : List Char) : Prop :=
  ∀ (rest : List Char) (pos : Position) (fuel : Nat), EndsOperand rest →
    16 * (text ++ rest).length + 4 ≤ fuel →
      ∃ e rpos, Begins fuel ⟨text ++ rest, pos⟩ (.ok e) ⟨rest, rpos⟩ ∧ Q e

/-- A text is read as an expression of some kind, to which more may be added. -/
def Heads (Q : Expr → Prop) (text : List Char) : Prop :=
  ∀ (rest : List Char) (pos : Position) (fuel : Nat), EndsNumber rest →
    16 * (text ++ rest).length + 3 ≤ fuel → prefixOp? ⟨text ++ rest, pos⟩ = none ∧
      ∃ e rpos start fuel', chain fuel ⟨text ++ rest, pos⟩ =
        some (suffixes fuel' start (.ok e) ⟨rest, rpos⟩) ∧ 16 * rest.length + 3 ≤ fuel' ∧ Q e

variable {Q R : Expr → Prop} {text : List Char}

theorem Heads.imp (h : Heads Q text) (himp : ∀ e, Q e → R e) : Heads R text := by
  intro rest pos fuel hrest hfuel
  obtain ⟨hsign, e, rpos, start, fuel', hchain, hfuel', he⟩ := h rest pos fuel hrest hfuel
  exact ⟨hsign, e, rpos, start, fuel', hchain, hfuel', himp e he⟩

theorem ReadsOperand.imp (h : ReadsOperand Q text) (himp : ∀ e, Q e → R e) :
    ReadsOperand R text := by
  intro rest pos fuel hrest hfuel
  obtain ⟨e, rpos, hbegins, he⟩ := h rest pos fuel hrest hfuel
  exact ⟨e, rpos, hbegins, himp e he⟩

theorem Reads.imp (h : Reads Q text) (himp : ∀ e, Q e → R e) : Reads R text := by
  intro rest pos fuel hrest hfuel
  obtain ⟨e, rpos, hread, he⟩ := h rest pos fuel hrest hfuel
  exact ⟨e, rpos, hread, himp e he⟩

/-- An operand that begins an expression is read in the place of an operand too. -/
theorem ReadsOperand.operand (h : ReadsOperand Q text) (rest : List Char) (pos : Position)
    (fuel : Nat) (hrest : EndsOperand rest) (hfuel : 16 * (text ++ rest).length + 5 ≤ fuel) :
    ∃ e rpos, operand fuel ⟨text ++ rest, pos⟩ = some (.ok e, ⟨rest, rpos⟩) ∧ Q e := by
  obtain ⟨fuel, rfl⟩ : ∃ n, fuel = n + 1 := ⟨fuel - 1, by omega⟩
  cases hsign : prefixOp? ⟨text ++ rest, pos⟩ with
  | some found =>
      obtain ⟨e, rpos, ⟨-, hread⟩ | ⟨hnone, -⟩, he⟩ := h rest pos (fuel + 1) hrest (by omega)
      · exact ⟨e, rpos, hread, he⟩
      · rw [hsign] at hnone
        cases hnone
  | none =>
      obtain ⟨e, rpos, ⟨hsome, -⟩ | ⟨-, target, d, hchain, -, hpostfixes⟩, he⟩ :=
        h rest pos fuel hrest (by omega)
      · rw [hsign] at hsome
        cases hsome
      · refine ⟨e, rpos, ?_, he⟩
        rw [Parser.operand, hsign]
        simp only [hchain, Option.map_some, hpostfixes]

theorem Heads.readsOperand (h : Heads Q text) : ReadsOperand Q text := by
  intro rest pos fuel hrest hfuel
  obtain ⟨hsign, e, rpos, start, fuel', hchain, -, he⟩ :=
    h rest pos fuel hrest.number (by omega)
  rw [hrest.suffixes] at hchain
  exact ⟨e, rpos, .inr ⟨hsign, _, _, hchain, hrest.assignOp? rpos, hrest.postfixes rpos _ _⟩, he⟩

/-! ### Binary operators -/

/-- The texts of a row's items, each with the operator in front of it. -/
def moreText (more : List (BinaryOp × Printer.Item)) : List Char :=
  more.flatMap fun (op, item) => ' ' :: (op.symbol.toList ++ ' ' :: item.1.toList)

/-- An item is read as its expression. -/
def ItemReads (item : Printer.Item) : Prop :=
  ReadsOperand (fun e => e.erase = item.2.erase) item.1.toList

theorem endsOperand_more {more : List (BinaryOp × Printer.Item)} {rest : List Char}
    (hrest : Ends rest) : EndsOperand (moreText more ++ rest) := by
  cases more with
  | nil => exact hrest.endsOperand
  | cons operation more =>
      simp only [moreText, List.flatMap_cons, List.append_assoc, List.cons_append]
      exact endsOperand_operator operation.1 _

theorem reads_more {more : List (BinaryOp × Printer.Item)}
    (h : ∀ operation ∈ more, ItemReads operation.2) (rest : List Char) (pos : Position)
    (fuel : Nat) (hrest : Ends rest) (hfuel : 16 * (moreText more ++ rest).length + 5 ≤ fuel) :
    ∃ operations rpos, Parser.operations fuel ⟨moreText more ++ rest, pos⟩ =
      (operations, ⟨rest, rpos⟩) ∧ MoreRead more operations := by
  induction more generalizing pos fuel with
  | nil => exact ⟨[], pos, hrest.operations pos fuel, .nil⟩
  | cons operation more ih =>
      obtain ⟨op, item⟩ := operation
      obtain ⟨hitem, hmore⟩ := List.forall_mem_cons.mp h
      have htext : moreText ((op, item) :: more) ++ rest =
          ' ' :: (op.symbol.toList ++ ' ' :: (item.1.toList ++ (moreText more ++ rest))) := by
        simp [moreText]
      rw [htext] at hfuel ⊢
      simp only [List.length_append, List.length_cons] at hfuel ih
      obtain ⟨fuel, rfl⟩ : ∃ n, fuel = n + 1 := ⟨fuel - 1, by omega⟩
      obtain ⟨opos, ipos, hnext⟩ :=
        (Lexes.operator op (item.1.toList ++ (moreText more ++ rest))).space pos
      obtain ⟨e, epos, hread, he⟩ := hitem.operand (moreText more ++ rest) (ipos.after ' ') fuel
        (endsOperand_more hrest) (by simp only [List.length_append]; omega)
      obtain ⟨operations, rpos, hoperations, hall⟩ := ih hmore epos fuel (by omega)
      refine ⟨(op, .ok e) :: operations, rpos, ?_, .cons ⟨rfl, e, rfl, he⟩ hall⟩
      have hop : infixOp? ⟨' ' :: (op.symbol.toList ++
          ' ' :: (item.1.toList ++ (moreText more ++ rest))), pos⟩ =
          some (op, ⟨' ' :: (item.1.toList ++ (moreText more ++ rest)), ipos⟩) := by
        rw [infixOp?, hnext]
        simp only [BinaryOp.ofSymbol?_symbol, Option.map_some]
      have hright := (operand_congr (skip_blank _ ipos)).trans hread
      rw [Parser.operations, hop]
      simp only [Option.bind_some, hright, Option.map_some, hoperations]

theorem conditional_of_operations {fuel : Nat} {start : Position} {first : Reading Expr}
    {c : Cursor} {operations : List (BinaryOp × Reading Expr)} {rest : List Char}
    {rpos : Position} (h : Parser.operations fuel c = (operations, ⟨rest, rpos⟩))
    (hrest : Ends rest) : conditional (fuel + 1) start first c =
      (combine [] first operations, ⟨rest, rpos⟩) := by
  rw [conditional, h]
  simp only [hrest.symbol? rpos (show "?" ∉ _ by decide)]
  rfl

/-- What begins as an operand is an expression, with the operators behind it. -/
theorem Begins.assignment {fuel : Nat} {c mid behind : Cursor} {first e : Reading Expr}
    (h : Begins fuel c first mid)
    (hconditional : ∀ start, conditional fuel start first mid = (e, behind)) :
    Parser.assignment (fuel + 1) c = some (e, behind) := by
  rcases h with ⟨hsign, hread⟩ | ⟨hsign, target, d, hchain, hassign, hpostfixes⟩
  · rw [Parser.assignment, if_pos hsign, hread]
    simp only [Option.map_some, hconditional]
  · rw [Parser.assignment, hsign]
    simp only [Option.isSome_none, Bool.false_eq_true, if_false, hchain, hassign, hpostfixes,
      hconditional]
    rfl

/-- An operand is an expression by itself. -/
theorem ReadsOperand.reads (h : ReadsOperand Q text) : Reads Q text := by
  intro rest pos fuel hrest hfuel
  obtain ⟨fuel, rfl⟩ : ∃ n, fuel = n + 2 := ⟨fuel - 2, by omega⟩
  obtain ⟨e, rpos, hbegins, he⟩ := h rest pos (fuel + 1) hrest.endsOperand (by omega)
  have hread := hbegins.assignment fun start =>
    conditional_of_operations (hrest.operations rpos fuel) hrest
  exact ⟨e, rpos, hread, he⟩

/-- A row is read as the tree that its operators make up. -/
theorem reads_row {least : Nat} {row : Printer.Row} {e : Expr} (hbinds : Binds least row e)
    (hfirst : ItemReads row.first) (hmore : ∀ operation ∈ row.more, ItemReads operation.2) :
    Reads (fun e' => e'.erase = e.erase) row.text := by
  intro rest pos fuel hrest hfuel
  have htext : row.text ++ rest = row.first.1.toList ++ (moreText row.more ++ rest) :=
    List.append_assoc ..
  rw [htext] at hfuel ⊢
  obtain ⟨fuel, rfl⟩ : ∃ n, fuel = n + 2 := ⟨fuel - 2, by omega⟩
  obtain ⟨first, fpos, hbegins, herase⟩ := hfirst (moreText row.more ++ rest) pos (fuel + 1)
    (endsOperand_more hrest) (by omega)
  obtain ⟨operations, rpos, hoperations, hall⟩ := reads_more hmore rest fpos fuel hrest (by
    rw [List.length_append] at hfuel
    omega)
  obtain ⟨_, ⟨e', rfl, he'⟩, hcombine⟩ := hbinds [] (.ok first) operations []
    ⟨first, rfl, herase⟩ hall (fun _ h => (Option.not_mem_none _ h).elim)
    fun _ h => (Option.not_mem_none _ h).elim
  rw [List.append_nil] at hcombine
  have htree : combine [] (.ok first) operations = .ok e' := hcombine
  have hconditional (start : Position) : conditional (fuel + 1) start (.ok first)
      ⟨moreText row.more ++ rest, fpos⟩ = (.ok e', ⟨rest, rpos⟩) := by
    rw [conditional_of_operations hoperations hrest, htree]
  exact ⟨e', rpos, hbegins.assignment hconditional, he'⟩

end TraceLoom.Script.Parser
