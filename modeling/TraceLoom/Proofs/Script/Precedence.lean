import Mathlib.Data.List.Forall2
import TraceLoom.Script.Parser
import TraceLoom.Script.Printer

/-!
Binary operators without their tree.  A printed expression is a row of operands with operators
between them; by their precedence they make up the tree that was printed.
-/

namespace TraceLoom.Script

/-- A reading that is an expression up to positions. -/
def ReadBack (e : Expr) (reading : Reading Expr) : Prop :=
  ∃ e', reading = .ok e' ∧ e'.erase = e.erase

theorem ReadBack.binary {pos : Position} {op : BinaryOp} {left right : Expr}
    {l r : Reading Expr} (hl : ReadBack left l) (hr : ReadBack right r) :
    ReadBack (.binary pos op left right) (Parser.binary l op r) := by
  obtain ⟨l', rfl, hl'⟩ := hl
  obtain ⟨r', rfl, hr'⟩ := hr
  exact ⟨.binary l'.pos op l' r', rfl, by simp only [Expr.erase, hl', hr']⟩

namespace Printer

/-- An operand with its text. -/
abbrev Item := String × Expr

/-- The operands of an expression with the operators in front of all but the first. -/
structure Row where
  first : Item
  more : List (BinaryOp × Item)

/-- One row behind another, an operator between them. -/
def Row.join (left : Row) (op : BinaryOp) (right : Row) : Row :=
  ⟨left.first, left.more ++ (op, right.first) :: right.more⟩

/-- The text of a row, with a blank on both sides of each operator. -/
def Row.text (row : Row) : List Char :=
  row.first.1.toList ++
    row.more.flatMap fun (op, item) => ' ' :: (op.symbol.toList ++ ' ' :: item.1.toList)

/-- An expression in parentheses. -/
def enclosed (e : Expr) : Row :=
  ⟨("(" ++ expr 0 e ++ ")", e), []⟩

/-- The operands of the operators that an expression shows without parentheses. -/
def row : Expr → Row
  | .binary _ op left right =>
    .join (if level left < op.precedence then enclosed left else row left) op
      (if level right < op.precedence + 1 then enclosed right else row right)
  | e => ⟨(expr 0 e, e), []⟩
termination_by structural e => e

/-- The row of an expression in a place that binds at least as tightly as `least`. -/
def rowIn (least : Nat) (e : Expr) : Row :=
  if level e < least then enclosed e else row e

theorem row_binary (pos : Position) (op : BinaryOp) (left right : Expr) :
    row (.binary pos op left right) =
      .join (rowIn op.precedence left) op (rowIn (op.precedence + 1) right) :=
  rfl

theorem Row.text_join (left right : Row) (op : BinaryOp) : (Row.join left op right).text =
    left.text ++ ' ' :: (op.symbol.toList ++ ' ' :: right.text) := by
  simp [Row.join, Row.text, List.flatMap_append]

theorem text_rowIn_of_row {e : Expr} (h : (row e).text = (expr 0 e).toList) (least : Nat) :
    (rowIn least e).text = (enclose e least (expr 0 e)).toList := by
  unfold rowIn enclose
  split
  · simp [enclosed, Row.text]
  · exact h

/-- A row spells what is printed. -/
theorem text_row (e : Expr) : (row e).text = (expr 0 e).toList := by
  induction e using row.induct with
  | case1 pos op left right ihleft ihright =>
      rw [row_binary, Row.text_join, text_rowIn_of_row ihleft, text_rowIn_of_row ihright]
      simp [expr]
  | case2 e hne =>
      rw [row]
      · simp [Row.text]
      · exact hne

end Printer

namespace Parser

open Printer

/-- The operators of a row, read with their right operands. -/
def MoreRead : List (BinaryOp × Item) → List (BinaryOp × Reading Expr) → Prop :=
  List.Forall₂ fun item operation => operation.1 = item.1 ∧ ReadBack item.2.2 operation.2

/-- An operator that waits takes its right operand before one that binds no tighter. -/
theorem combine_waiting {pending : Pending} {left right : Reading Expr} {op : BinaryOp}
    {rest : List (BinaryOp × Reading Expr)}
    (hrest : ∀ next ∈ rest.head?, next.1.precedence ≤ op.precedence) :
    combine ((left, op) :: pending) right rest = combine pending (binary left op right) rest := by
  cases rest with
  | nil => simp [combine, reduce]
  | cons next rest =>
      have hle : op.precedence ≥ next.1.precedence := hrest next rfl
      simp [combine, reduce, hle]

/-- An operator that binds more tightly than the ones that wait leaves them waiting. -/
theorem combine_pending {pending : Pending} {left right : Reading Expr} {op : BinaryOp}
    {rest : List (BinaryOp × Reading Expr)}
    (hpending : ∀ waiting ∈ pending.head?, waiting.2.precedence < op.precedence) :
    combine pending left ((op, right) :: rest) = combine ((left, op) :: pending) right rest := by
  cases pending with
  | nil => rfl
  | cons waiting pending =>
      have hlt : ¬ waiting.2.precedence ≥ op.precedence := Nat.not_le_of_lt (hpending waiting rfl)
      simp [combine, reduce, hlt]

/-- What a row is read as between operators that bind more loosely in front and no more tightly
behind. -/
def Binds (least : Nat) (row : Row) (e : Expr) : Prop :=
  ∀ (pending : Pending) (first : Reading Expr) (more rest : List (BinaryOp × Reading Expr)),
    ReadBack row.first.2 first → MoreRead row.more more →
    (∀ waiting ∈ pending.head?, waiting.2.precedence < least) →
    (∀ next ∈ rest.head?, next.1.precedence ≤ least) →
    ∃ r, ReadBack e r ∧ combine pending first (more ++ rest) = combine pending r rest

theorem binds_single (least : Nat) (text : String) (e : Expr) : Binds least ⟨(text, e), []⟩ e := by
  intro pending first more rest hfirst hmore _ _
  cases hmore
  exact ⟨first, hfirst, rfl⟩

theorem Binds.rowIn {e : Expr} (h : Binds (level e) (row e) e) (least : Nat) :
    Binds least (rowIn least e) e := by
  unfold Printer.rowIn
  split
  · exact binds_single least _ e
  · rename_i hle
    intro pending first more rest hfirst hmore hpending hrest
    exact h pending first more rest hfirst hmore
      (fun waiting hw => Nat.lt_of_lt_of_le (hpending waiting hw) (Nat.le_of_not_lt hle))
      fun next hn => Nat.le_trans (hrest next hn) (Nat.le_of_not_lt hle)

theorem exists_of_forall₂_append {α β : Type} {R : α → β → Prop} {as as' : List α} {cs : List β}
    (h : List.Forall₂ R (as ++ as') cs) :
    ∃ bs bs', List.Forall₂ R as bs ∧ List.Forall₂ R as' bs' ∧ cs = bs ++ bs' := by
  induction as generalizing cs with
  | nil => exact ⟨[], cs, .nil, h, rfl⟩
  | cons a as ih =>
      obtain ⟨b, rest, hab, hrest, rfl⟩ := List.forall₂_cons_left_iff.mp h
      obtain ⟨bs, bs', hbs, hbs', rfl⟩ := ih hrest
      exact ⟨b :: bs, bs', .cons hab hbs, hbs', rfl⟩

/-- The right operand of an operator binds more tightly than the operator, the left one no less
tightly. -/
theorem Binds.join {left right : Row} {l r : Expr} {pos : Position} {op : BinaryOp}
    (hl : Binds op.precedence left l) (hr : Binds (op.precedence + 1) right r) :
    Binds op.precedence (.join left op right) (.binary pos op l r) := by
  intro pending first more rest hfirst hmore hpending hrest
  obtain ⟨more₁, operations, hmore₁, hoperations, rfl⟩ := exists_of_forall₂_append hmore
  obtain ⟨⟨op', second⟩, more₂, ⟨hop, hsecond⟩, hmore₂, rfl⟩ :=
    List.forall₂_cons_left_iff.mp hoperations
  obtain rfl : op = op' := hop.symm
  obtain ⟨l', hl', hleft⟩ := hl pending first more₁ ((op, second) :: (more₂ ++ rest)) hfirst hmore₁
    hpending fun next hn => by cases hn; exact Nat.le_refl _
  obtain ⟨r', hr', hright⟩ := hr ((l', op) :: pending) second more₂ rest hsecond hmore₂
    (fun waiting hw => by cases hw; exact Nat.lt_succ_self _)
    fun next hn => Nat.le_succ_of_le (hrest next hn)
  refine ⟨binary l' op r', hl'.binary hr', ?_⟩
  calc combine pending first (more₁ ++ (op, second) :: more₂ ++ rest)
      = combine pending l' ((op, second) :: (more₂ ++ rest)) := by
        rw [List.append_assoc, List.cons_append, hleft]
    _ = combine ((l', op) :: pending) second (more₂ ++ rest) := combine_pending hpending
    _ = combine ((l', op) :: pending) r' rest := hright
    _ = combine pending (binary l' op r') rest := combine_waiting hrest

/-- The operators of a row bind as in the expression that was printed. -/
theorem binds_row (e : Expr) : Binds (level e) (row e) e := by
  induction e using row.induct with
  | case1 pos op left right ihleft ihright => exact (ihleft.rowIn _).join (ihright.rowIn _)
  | case2 e hne =>
      rw [row]
      · exact binds_single _ _ e
      · exact hne

end Parser

end TraceLoom.Script
