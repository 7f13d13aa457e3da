import TraceLoom.Proofs.Script.Programs

/-!
A printed expression reads back as the expression it was printed from.
-/

namespace TraceLoom.Script

open Numeric

mutual

/-- An expression that a program text can spell: its numbers are those of literals, its names are
names, what it writes to can be written to, and there is no function in it. -/
def Expr.Printable : Expr → Prop
  | .number _ x => IsPlainNumber x ∧ ReadsBack x
  | .string .. => True
  | .boolean .. => True
  | .null _ => True
  | .name _ n => isNameText n = true ∧ n ∉ Token.keywords
  | .array _ items => Expr.ArePrintable items
  | .object _ entries => Expr.HasPrintableValues entries
  | .function .. => False
  | .member _ e property => e.Printable ∧ isNameText property = true
  | .index _ e i => e.Printable ∧ i.Printable
  | .call _ callee args => callee.Printable ∧ Expr.ArePrintable args
  | .unary _ _ operand => operand.Printable
  | .binary _ _ left right => left.Printable ∧ right.Printable
  | .assign _ _ target value => target.isTarget = true ∧ target.Printable ∧ value.Printable
  | .update _ _ _ target => target.isTarget = true ∧ target.Printable
termination_by structural e => e

def Expr.ArePrintable : List Expr → Prop
  | [] => True
  | e :: es => e.Printable ∧ Expr.ArePrintable es
termination_by structural es => es

def Expr.HasPrintableValues : List (String × Expr) → Prop
  | [] => True
  | (_, e) :: es => e.Printable ∧ Expr.HasPrintableValues es
termination_by structural es => es

end

namespace Parser

mutual

/-- An expression that a program text can spell is legible, and its names are names. -/
theorem legible_of_printable : (e : Expr) → e.Printable → e.Proper spelled ∧ e.Legible
  | .number .., h => ⟨trivial, trivial, h⟩
  | .string .., _ | .boolean .., _ | .null _, _ => ⟨trivial, trivial, trivial⟩
  | .name _ _, h => ⟨h, trivial, trivial⟩
  | .array _ items, h => by
      obtain ⟨hproper, hlegible⟩ := legibleList_of_printable items h
      exact ⟨hproper, ⟨trivial, trivial⟩, hlegible⟩
  | .object _ entries, h => by
      obtain ⟨hproper, hlegible⟩ := legibleEntries_of_printable entries h
      exact ⟨hproper, ⟨trivial, trivial⟩, hlegible⟩
  | .function .., h => h.elim
  | .member _ e _, h => by
      obtain ⟨hproper, hlegible⟩ := legible_of_printable e h.1
      exact ⟨⟨hproper, h.2⟩, ⟨trivial, trivial⟩, hlegible⟩
  | .index _ e i, h => by
      obtain ⟨hproper, hlegible⟩ := legible_of_printable e h.1
      obtain ⟨hproper', hlegible'⟩ := legible_of_printable i h.2
      exact ⟨⟨hproper, hproper'⟩, ⟨trivial, trivial⟩, hlegible, hlegible'⟩
  | .call _ callee args, h => by
      obtain ⟨hproper, hlegible⟩ := legible_of_printable callee h.1
      obtain ⟨hproper', hlegible'⟩ := legibleList_of_printable args h.2
      exact ⟨⟨hproper, hproper'⟩, ⟨trivial, trivial⟩, hlegible, hlegible'⟩
  | .unary _ _ operand, h => by
      obtain ⟨hproper, hlegible⟩ := legible_of_printable operand h
      exact ⟨hproper, ⟨trivial, trivial⟩, hlegible⟩
  | .binary _ _ left right, h => by
      obtain ⟨hproper, hlegible⟩ := legible_of_printable left h.1
      obtain ⟨hproper', hlegible'⟩ := legible_of_printable right h.2
      exact ⟨⟨hproper, hproper'⟩, ⟨trivial, trivial⟩, hlegible, hlegible'⟩
  | .assign _ _ target value, h => by
      obtain ⟨hproper, hlegible⟩ := legible_of_printable target h.2.1
      obtain ⟨hproper', hlegible'⟩ := legible_of_printable value h.2.2
      exact ⟨⟨hproper, hproper'⟩, ⟨h.1, trivial⟩, hlegible, hlegible'⟩
  | .update _ _ _ target, h => by
      obtain ⟨hproper, hlegible⟩ := legible_of_printable target h.2
      exact ⟨hproper, ⟨h.1, trivial⟩, hlegible⟩

theorem legibleList_of_printable : (es : List Expr) → Expr.ArePrintable es →
    Expr.ProperList spelled es ∧ Expr.LegibleList es
  | [], _ => ⟨trivial, trivial⟩
  | e :: es, h => by
      obtain ⟨hproper, hlegible⟩ := legible_of_printable e h.1
      obtain ⟨hproper', hlegible'⟩ := legibleList_of_printable es h.2
      exact ⟨⟨hproper, hproper'⟩, hlegible, hlegible'⟩

theorem legibleEntries_of_printable : (entries : List (String × Expr)) →
    Expr.HasPrintableValues entries →
      Expr.ProperEntries spelled entries ∧ Expr.LegibleEntries entries
  | [], _ => ⟨trivial, trivial⟩
  | (_, e) :: es, h => by
      obtain ⟨hproper, hlegible⟩ := legible_of_printable e h.1
      obtain ⟨hproper', hlegible'⟩ := legibleEntries_of_printable es h.2
      exact ⟨⟨hproper, hproper'⟩, hlegible, hlegible'⟩

end

theorem Faithful.of_printable {e : Expr} (h : e.Printable) : Faithful e :=
  faithful e (legible_of_printable e h).1 (legible_of_printable e h).2

/-- An expression printed as the initial value of a declaration is read as that expression, up to
positions. -/
theorem parse_let_toSource (e : Expr) (h : e.Printable) :
    ∃ pos e', parse ("let v = " ++ e.toSource ++ ";") =
      .ok [.declare pos .ofLet [(.name "v", some e')]] ∧ e'.erase = e.erase :=
  parse_let (w := "v") (by decide) (by decide) ((Faithful.of_printable h).whole 0)

/-- Signs in front of signs, operators of one precedence, a quoted text, an assignment and a keyword
as the name of a property. -/
theorem parse_let_nested :
    let e : Expr := .binary .none .sub (.ident "a") (.binary .none .sub
      (.unary .none .neg (.unary .none .neg (.num (Float.ofBits 0x3FF8000000000000))))
      (.call .none (.index .none (.text "q\n") (.assign .none .addAssign (.ident "x") (.null .none)))
        [.update .none .increment true (.dot (.ident "o") "if")]))
    e.Printable ∧ ∃ pos e', parse ("let v = " ++ e.toSource ++ ";") =
      .ok [.declare pos .ofLet [(.name "v", some e')]] ∧ e'.erase = e.erase := by
  intro e
  have hname {n : String} (h : isNameText n = true ∧ n ∉ Token.keywords) :
      (Expr.ident n).Printable := h
  have hnumber : (Expr.num (Float.ofBits 0x3FF8000000000000)).Printable :=
    ⟨⟨by rfl, by rfl, by rfl⟩, by rfl⟩
  have hassign : (Expr.assign .none .addAssign (.ident "x") (.null .none)).Printable :=
    ⟨rfl, hname (by decide), trivial⟩
  have hupdate : (Expr.update .none .increment true (.dot (.ident "o") "if")).Printable :=
    ⟨rfl, hname (by decide), by decide⟩
  have he : e.Printable :=
    ⟨hname (by decide), hnumber, ⟨trivial, hassign⟩, hupdate, trivial⟩
  exact ⟨he, parse_let_toSource e he⟩

end Parser

end TraceLoom.Script
