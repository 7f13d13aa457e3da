import TraceLoom.Proofs.Script.Phrases
import TraceLoom.Proofs.Script.Spelled
import TraceLoom.Proofs.Script.Throughout

/-!
Programs of which the printed text can be read.  What such a program writes to can be written to,
and no statement of it opens with an object literal, which would be taken for a block.
-/

namespace TraceLoom.Script

open Numeric Printer

/-- A number that is read back from its decimal text. -/
def ReadsBack (x : Float) : Prop :=
  (Token.numeral (Notation.literal x).toList).1 = x

/-- Whether an object literal is the first thing in the text of an expression. -/
def Expr.opensObject : Expr → Bool
  | .object .. => true
  | .member _ e _ | .index _ e _ => memberLevel ≤ level e && e.opensObject
  | .call _ callee _ => memberLevel ≤ level callee && callee.opensObject
  | .binary _ op left _ => op.precedence ≤ level left && left.opensObject
  | .assign _ _ target _ => memberLevel ≤ level target && target.opensObject
  | .update _ _ isPrefix target => !isPrefix && memberLevel ≤ level target && target.opensObject
  | _ => false
termination_by structural e => e

def Expr.isObject : Expr → Bool
  | .object .. => true
  | _ => false

/-- What a program writes to can be written to. -/
def Expr.Formed : Expr → Prop
  | .assign _ _ target _ | .update _ _ _ target => target.isTarget = true
  | _ => True

/-- A number that a literal of a text can have. -/
def Expr.ReadsNumber : Expr → Prop
  | .number _ x => IsPlainNumber x ∧ ReadsBack x
  | _ => True

/-- A declaration declares something. -/
def Stmt.Formed : Stmt → Prop
  | .declare _ _ ds => ds ≠ []
  | _ => True

/-- A statement that is not taken for a block.  An object literal that is a statement by itself is
printed in parentheses; nothing else is. -/
def Stmt.OpensNoBlock : Stmt → Prop
  | .expr _ e => e.opensObject = true → e.isObject = true
  | _ => True

section

variable (e : Expr) (es : List Expr) (entries : List (String × Expr)) (s : Stmt)
  (ds : List Declarator) (ss : List Stmt)

/-- An expression of a form that a text can have. -/
abbrev Expr.Legible : Prop :=
  e.Throughout (fun e => e.Formed ∧ e.ReadsNumber) (fun s => s.Formed ∧ s.OpensNoBlock)

abbrev Expr.LegibleList : Prop :=
  Expr.ThroughoutList (fun e => e.Formed ∧ e.ReadsNumber) (fun s => s.Formed ∧ s.OpensNoBlock) es

abbrev Expr.LegibleEntries : Prop :=
  Expr.ThroughoutEntries (fun e => e.Formed ∧ e.ReadsNumber) (fun s => s.Formed ∧ s.OpensNoBlock)
    entries

/-- A statement of a form that a text can have. -/
abbrev Stmt.Legible : Prop :=
  s.Throughout (fun e => e.Formed ∧ e.ReadsNumber) (fun s => s.Formed ∧ s.OpensNoBlock)

abbrev Stmt.LegibleDeclarators : Prop :=
  Stmt.ThroughoutDeclarators (fun e => e.Formed ∧ e.ReadsNumber)
    (fun s => s.Formed ∧ s.OpensNoBlock) ds

abbrev Stmt.LegibleList : Prop :=
  Stmt.ThroughoutList (fun e => e.Formed ∧ e.ReadsNumber) (fun s => s.Formed ∧ s.OpensNoBlock) ss

end

namespace Printer

/-! ## How the text of an expression starts -/

/-- A text that starts with something other than an equals sign. -/
def Starts (text : String) : Prop :=
  ∃ c cs, text.toList = c :: cs ∧ c ≠ '='

theorem starts_append {s t : String} (h : Starts s) : Starts (s ++ t) := by
  obtain ⟨c, cs, hlist, hc⟩ := h
  exact ⟨c, cs ++ t.toList, by rw [String.toList_append, hlist, List.cons_append], hc⟩

theorem starts_enclose {e : Expr} {text : String} (h : Starts text) (least : Nat) :
    Starts (enclose e least text) := by
  unfold enclose
  split
  · exact starts_append (starts_append ⟨'(', [], rfl, by decide⟩)
  · exact h

theorem starts_numeral {text : String} (h : IsNumeral text.toList) : Starts text := by
  obtain ⟨c, cs, hlist, hc⟩ := h.exists_cons
  refine ⟨c, cs, hlist, ?_⟩
  rintro rfl
  exact absurd hc (by decide)

theorem starts_name {text : String} (h : isNameText text = true) : Starts text := by
  obtain ⟨c, cs, hlist, hc⟩ := head?_of_isNameText h
  refine ⟨c, cs, hlist, ?_⟩
  rintro rfl
  exact absurd hc (by decide)

/-- The text of an operand with an operator in front of it. -/
def unary (op : UnaryOp) (operand : String) : String :=
  match op with
  | .typeof | .void => op.symbol ++ " " ++ operand
  | .neg | .plus => sign op.symbol operand
  | .not => op.symbol ++ operand

theorem expr_unary (depth : Nat) (pos : Position) (op : UnaryOp) (operand : Expr) :
    expr depth (.unary pos op operand) = unary op (enclose operand unaryLevel (expr 0 operand)) :=
  rfl

theorem starts_unary (op : UnaryOp) (operand : String) : Starts (unary op operand) := by
  have hsymbol : Starts op.symbol := by cases op <;> exact ⟨_, _, rfl, by decide⟩
  cases op
  case typeof | void => exact starts_append (starts_append hsymbol)
  case not => exact starts_append hsymbol
  all_goals
    unfold unary sign
    dsimp only
    split
    · exact starts_append (starts_append (starts_append hsymbol))
    · exact starts_append hsymbol

theorem starts_functionHead (name : Option String) (params : List String) :
    Starts (functionHead name params) :=
  starts_append (starts_append (starts_append (starts_append ⟨'f', _, rfl, by decide⟩)))

/-- The text of an expression never starts with an equals sign. -/
theorem starts_expr (depth : Nat) : (e : Expr) → e.Proper spelled → e.Legible →
    Starts (expr depth e)
  | .number _ x, _, h => by
      simp only [expr]
      split
      · exact starts_append (starts_append ⟨'(', [], rfl, by decide⟩)
      · exact starts_numeral h.2.1.literal
  | .string _ s, _, _ => ⟨'"', _, String.toList_ofList, by decide⟩
  | .boolean _ b, _, _ => by
      cases b
      · exact show Starts "false" from starts_name (by decide)
      · exact show Starts "true" from starts_name (by decide)
  | .null _, _, _ => show Starts "null" from starts_name (by decide)
  | .name _ n, hn, _ => starts_name hn.1
  | .array _ items, _, _ => starts_append (starts_append ⟨'[', [], rfl, by decide⟩)
  | .object _ entries, _, _ => by
      simp only [expr]
      split
      · exact ⟨'\x7b', _, rfl, by decide⟩
      · exact starts_append (starts_append ⟨'\x7b', _, rfl, by decide⟩)
  | .function _ name params _, _, _ => starts_append (starts_functionHead name params)
  | .member _ e property, hn, h =>
      starts_append (starts_append (starts_enclose (starts_expr 0 e hn.1 h.2) _))
  | .index _ e i, hn, h =>
      starts_append (starts_append (starts_append (starts_enclose (starts_expr 0 e hn.1 h.2.1) _)))
  | .call _ callee args, hn, h =>
      starts_append (starts_append (starts_append
        (starts_enclose (starts_expr _ callee hn.1 h.2.1) _)))
  | .unary _ op operand, _, _ => starts_unary op _
  | .binary _ op left right, hn, h =>
      starts_append (starts_append (starts_append (starts_append
        (starts_enclose (starts_expr 0 left hn.1 h.2.1) _))))
  | .assign _ op target value, hn, h =>
      starts_append (starts_append (starts_append (starts_append
        (starts_enclose (starts_expr 0 target hn.1 h.2.1) _))))
  | .update _ op isPrefix target, hn, h => by
      simp only [expr]
      split
      · exact starts_append (by cases op <;> exact ⟨_, _, rfl, by decide⟩)
      · exact starts_append (starts_enclose (starts_expr 0 target hn h.2) _)

end Printer

namespace Parser

/-! ## The first token of an expression -/

/-- A text that can stand behind a primary expression: it goes on with no word and no number, and
with no colon, which would make a label of a name. -/
structure Follows (text : List Char) : Prop where
  number : EndsNumber text
  no_colon : ∀ pos, Cursor.symbol? ":" ⟨text, pos⟩ = none

theorem follows_mark {c : Char} {text : List Char} (hc : c ∈ ['(', ')', '[', ';']) :
    Follows (c :: text) := by
  simp only [List.mem_cons, List.not_mem_nil, or_false] at hc
  rcases hc with rfl | rfl | rfl | rfl <;>
    exact ⟨endsNumber_of_head (by decide) (by decide),
      symbol?_eq_none (.single text (by decide)) (by decide)⟩

theorem follows_point {w : String} (hw : isNameText w = true) (rest : List Char) :
    Follows ('.' :: (w.toList ++ rest)) :=
  ⟨endsNumber_point hw, symbol?_eq_none (.single _ (by decide)) (by decide)⟩

theorem follows_operator (op : BinaryOp) (text : List Char) :
    Follows (' ' :: (op.symbol.toList ++ ' ' :: text)) :=
  ⟨endsNumber_of_head (by decide) (by decide),
    symbol?_eq_none (Lexes.operator op text).space (by cases op <;> decide)⟩

theorem follows_assignment (op : AssignOp) (text : List Char) :
    Follows (' ' :: (op.symbol.toList ++ ' ' :: text)) :=
  ⟨endsNumber_of_head (by decide) (by decide),
    symbol?_eq_none (Lexes.assignment op text).space (by cases op <;> decide)⟩

theorem follows_update (op : UpdateOp) (text : List Char) : Follows (op.symbol.toList ++ text) := by
  refine ⟨?_, symbol?_eq_none (Lexes.update op text) (by cases op <;> decide)⟩
  cases op <;> exact endsNumber_of_head (by decide) (by decide)

/-- A token with which a statement starts that is an expression, and what stands behind it. -/
inductive Opener : Token → List Char → Prop
  | number {x : Float} {more : List Char} : Opener (.number x) more
  | string {s : String} {more : List Char} : Opener (.string s) more
  | symbol {s : String} {more : List Char} (hs : s ∉ ["\x7b", ";"]) : Opener (.symbol s) more
  | value {w : String} {more : List Char} (hw : w ∈ ["true", "false", "null", "typeof", "void"]) :
      Opener (.word w) more
  | name {w : String} {more : List Char} (hw : w ∉ Token.keywords)
      (hmore : ∀ pos, Cursor.symbol? ":" ⟨more, pos⟩ = none) : Opener (.word w) more

/-- A text that cannot be taken for a statement of another kind. -/
def OpensExpr (text : List Char) : Prop :=
  ∀ rest, Follows rest → ∃ token more, Lexes (text ++ rest) token more ∧ Opener token more

namespace OpensExpr

theorem append {text more : List Char} (h : OpensExpr text)
    (hmore : ∀ rest, Follows (more ++ rest)) : OpensExpr (text ++ more) := by
  intro rest _
  rw [List.append_assoc]
  exact h _ (hmore rest)

theorem mark {c : Char} (hc : c ∈ ['(', '[']) (text : List Char) : OpensExpr (c :: text) := by
  intro rest _
  simp only [List.mem_cons, List.not_mem_nil, or_false] at hc
  rcases hc with rfl | rfl <;> exact ⟨_, _, .single _ (by decide), .symbol (by decide)⟩

theorem value {w : String} (hw : w ∈ ["true", "false", "null", "typeof", "void"]) :
    OpensExpr w.toList := by
  have hname : isNameText w = true := by
    simp only [List.mem_cons, List.not_mem_nil, or_false] at hw
    rcases hw with rfl | rfl | rfl | rfl | rfl <;> decide
  exact fun rest hrest => ⟨_, rest, .word hname hrest.number.1, .value hw⟩

theorem update (op : UpdateOp) (text : List Char) : OpensExpr (op.symbol.toList ++ text) := by
  intro rest _
  rw [List.append_assoc]
  exact ⟨_, _, .update op (text ++ rest), .symbol (by cases op <;> decide)⟩

end OpensExpr

end Parser

namespace Printer

open TraceLoom.Script.Parser

theorem opensExpr_number {x : Float} (h : IsPlainNumber x) (depth : Nat) (pos : Position) :
    OpensExpr (expr depth (.number pos x)).toList := by
  simp only [expr]
  split
  · rw [String.toList_append, String.toList_append]
    exact .mark (by decide) _
  · exact fun rest hrest => ⟨_, rest, .number h.literal hrest.number, .number⟩

theorem opensExpr_unary (op : UnaryOp) {operand : String} (h : Starts operand) :
    OpensExpr (unary op operand).toList := by
  obtain ⟨c, cs, hlist, hc⟩ := h
  have hplain (hword : op ≠ .typeof ∧ op ≠ .void) (hsame : op = .not ∨ op.symbol.toList ≠ [c]) :
      OpensExpr (op.symbol ++ operand).toList := by
    intro rest _
    refine ⟨.symbol op.symbol, operand.toList ++ rest, ?_, .symbol (by cases op <;> decide)⟩
    rw [String.toList_append, List.append_assoc]
    refine .sign hword fun d hd => ?_
    rw [hlist] at hd
    cases hd
    exact ⟨hc, hsame⟩
  have hword (hop : op.symbol ∈ ["true", "false", "null", "typeof", "void"]) :
      OpensExpr (op.symbol ++ " " ++ operand).toList := by
    intro rest _
    refine ⟨.word op.symbol, " ".toList ++ (operand.toList ++ rest), ?_, .value hop⟩
    rw [String.toList_append, String.toList_append, List.append_assoc, List.append_assoc]
    refine .word ?_ (endsWord_of_head (c := ' ') (by decide))
    simp only [List.mem_cons, List.not_mem_nil, or_false] at hop
    rcases hop with hop | hop | hop | hop | hop <;> rw [hop] <;> decide
  have hsign (hword : op ≠ .typeof ∧ op ≠ .void) : OpensExpr (sign op.symbol operand).toList := by
    unfold sign
    split
    · intro rest _
      refine ⟨.symbol op.symbol, '(' :: (operand.toList ++ [')']) ++ rest, ?_,
        .symbol (by cases op <;> decide)⟩
      have htext : (op.symbol ++ "(" ++ operand ++ ")").toList ++ rest =
          op.symbol.toList ++ ('(' :: (operand.toList ++ [')']) ++ rest) := by
        simp
      rw [htext]
      refine .sign hword fun d hd => ?_
      cases hd
      exact ⟨by decide, .inr (by cases op <;> decide)⟩
    · rename_i hprefix
      refine hplain hword (.inr fun hsymbol => hprefix ?_)
      rw [hsymbol, hlist]
      simp
  cases op with
  | typeof | void => exact hword (by decide)
  | neg | plus => exact hsign (by decide)
  | not => exact hplain (by decide) (.inl rfl)

/-- In parentheses everything is an expression. -/
theorem opensExpr_enclose {e : Expr} {text : String} {least : Nat} (hleast : assignLevel < least)
    (hobject : (decide (least ≤ level e) && e.opensObject) = false)
    (h : e.opensObject = false → e.isFunction = false → OpensExpr text.toList) :
    OpensExpr (enclose e least text).toList := by
  unfold enclose
  split
  · rw [String.toList_append, String.toList_append]
    exact .mark (by decide) _
  · rename_i hlevel
    rw [decide_eq_true (Nat.le_of_not_lt hlevel), Bool.true_and] at hobject
    refine h hobject ?_
    cases e with
    | function => exact absurd hleast hlevel
    | _ => rfl

/-- A text of an expression is taken for one unless it starts with an object literal or a
function. -/
theorem opensExpr_expr (depth : Nat) : (e : Expr) → e.Proper spelled → e.Legible →
    e.opensObject = false → e.isFunction = false → OpensExpr (expr depth e).toList
  | .number pos x, _, h, _, _ => opensExpr_number h.2.1 depth pos
  | .string _ s, _, _, _, _ => fun rest _ => ⟨_, rest, .string s rest, .string⟩
  | .boolean _ b, _, _, _, _ => by
      cases b
      · exact show OpensExpr "false".toList from .value (by decide)
      · exact show OpensExpr "true".toList from .value (by decide)
  | .null _, _, _, _, _ => show OpensExpr "null".toList from .value (by decide)
  | .name _ n, hn, _, _, _ => fun rest hrest =>
      ⟨.word n, rest, .word hn.1 hrest.number.1, .name hn.2 hrest.no_colon⟩
  | .array _ items, _, _, _, _ => by
      simp only [expr, String.toList_append]
      exact .mark (by decide) _
  | .member _ e property, hn, h, hobject, _ => by
      have hopens := opensExpr_enclose (by decide) hobject (opensExpr_expr 0 e hn.1 h.2)
      simp only [expr, String.toList_append, List.append_assoc]
      exact hopens.append fun rest => follows_point hn.2 rest
  | .index _ e i, hn, h, hobject, _ => by
      have hopens := opensExpr_enclose (by decide) hobject (opensExpr_expr 0 e hn.1 h.2.1)
      simp only [expr, String.toList_append, List.append_assoc]
      exact hopens.append fun rest => follows_mark (by decide)
  | .call _ callee args, hn, h, hobject, _ => by
      have hopens := opensExpr_enclose (by decide) hobject
        (opensExpr_expr (if callee.isFunction then depth else 0) callee hn.1 h.2.1)
      simp only [expr, String.toList_append, List.append_assoc]
      exact hopens.append fun rest => follows_mark (by decide)
  | .unary _ op operand, hn, h, _, _ =>
      opensExpr_unary op (starts_enclose (starts_expr 0 operand hn h.2) unaryLevel)
  | .binary _ op left right, hn, h, hobject, _ => by
      have hopens := opensExpr_enclose (by cases op <;> decide) hobject
        (opensExpr_expr 0 left hn.1 h.2.1)
      simp only [expr, String.toList_append, List.append_assoc]
      refine hopens.append fun rest => ?_
      simpa using follows_operator op
        ((enclose right (op.precedence + 1) (expr 0 right)).toList ++ rest)
  | .assign _ op target value, hn, h, hobject, _ => by
      have hopens := opensExpr_enclose (by decide) hobject (opensExpr_expr 0 target hn.1 h.2.1)
      simp only [expr, String.toList_append, List.append_assoc]
      refine hopens.append fun rest => ?_
      simpa using follows_assignment op ((enclose value assignLevel (expr 0 value)).toList ++ rest)
  | .update _ op true target, _, _, _, _ => by
      simp only [expr, if_pos, String.toList_append]
      exact .update op _
  | .update _ op false target, hn, h, hobject, _ => by
      have hopens := opensExpr_enclose (by decide) hobject (opensExpr_expr 0 target hn h.2)
      simp only [expr, Bool.false_eq_true, if_false, String.toList_append]
      exact hopens.append fun rest => follows_update op rest

end Printer

end TraceLoom.Script
