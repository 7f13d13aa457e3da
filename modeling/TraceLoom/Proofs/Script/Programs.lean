import TraceLoom.Proofs.Script.Blocks
import TraceLoom.Proofs.Script.Formation

/-!
A printed program reads back as the program it was printed from.
-/

namespace TraceLoom.Script

namespace Parser

open TraceLoom.Script.Printer

theorem faithful_function {name : Option String} {params : List String} {body : List Stmt}
    (hname : ∀ n ∈ name, IsName n) (hparams : ∀ n ∈ params, IsName n)
    (h : ∀ depth, ReadsBody depth body) (pos : Position) :
    Faithful (.function pos name params body) where
  whole depth := (heads_function hname hparams (h (depth + 1)) pos).readsOperand.reads
  first hlevel := absurd hlevel (Nat.lt_irrefl assignLevel)
  more hlevel := absurd hlevel (Nat.lt_irrefl assignLevel)
  head hlevel := absurd (show memberLevel ≤ assignLevel from hlevel) (by decide)

mutual

theorem faithful : (e : Expr) → e.Proper spelled → e.Legible → Faithful e
  | .number pos x, _, h => faithful_number h.2.1 h.2.2 pos
  | .string pos s, _, _ =>
      .of_primary rfl fun _ => (heads_string s).imp fun _ ⟨_, heq⟩ => by rw [heq]; rfl
  | .boolean pos b, _, _ =>
      .of_primary rfl fun _ => (heads_boolean b).imp fun _ ⟨_, heq⟩ => by rw [heq]; rfl
  | .null pos, _, _ =>
      .of_primary rfl fun _ => heads_null.imp fun _ ⟨_, heq⟩ => by rw [heq]; rfl
  | .name pos n, hn, _ =>
      .of_primary rfl fun _ => (heads_name hn.1 hn.2).imp fun _ ⟨_, heq⟩ => by rw [heq]; rfl
  | .array pos items, hn, h => faithful_array (faithfulList items hn h.2) pos
  | .object pos entries, hn, h => faithful_object (faithfulEntries entries hn h.2) pos
  | .function pos name params body, hn, h =>
      faithful_function hn.1 hn.2.1 (readsBody body hn.2.2 h.2) pos
  | .member pos e property, hn, h => faithful_member (faithful e hn.1 h.2) hn.2 pos
  | .index pos e i, hn, h => faithful_index (faithful e hn.1 h.2.1) (faithful i hn.2 h.2.2) pos
  | .call pos callee args, hn, h =>
      faithful_call (faithful callee hn.1 h.2.1) (faithfulList args hn.2 h.2.2) pos
  | .unary pos op operand, hn, h =>
      faithful_unary (faithful operand hn h.2) (starts_expr 0 operand hn h.2) pos
  | .binary pos op left right, hn, h =>
      faithful_binary (faithful left hn.1 h.2.1) (faithful right hn.2 h.2.2) pos
  | .assign pos op target value, hn, h =>
      faithful_assign h.1.1 (faithful target hn.1 h.2.1) (faithful value hn.2 h.2.2) pos
  | .update pos op isPrefix target, hn, h =>
      faithful_update h.1.1 (faithful target hn h.2) isPrefix pos

theorem faithfulList : (es : List Expr) → Expr.ProperList spelled es → Expr.LegibleList es →
    ∀ e ∈ es, Faithful e
  | [], _, _ => fun _ he => absurd he List.not_mem_nil
  | e :: es, hn, h =>
      List.forall_mem_cons.mpr ⟨faithful e hn.1 h.1, faithfulList es hn.2 h.2⟩

theorem faithfulEntries : (entries : List (String × Expr)) → Expr.ProperEntries spelled entries →
    Expr.LegibleEntries entries → ∀ entry ∈ entries, Faithful entry.2
  | [], _, _ => fun _ hmem => absurd hmem List.not_mem_nil
  | (_, e) :: es, hn, h =>
      List.forall_mem_cons.mpr ⟨faithful e hn.1 h.1, faithfulEntries es hn.2 h.2⟩

theorem faithfulDeclarators : (ds : List Declarator) → Stmt.ProperDeclarators spelled ds →
    Stmt.LegibleDeclarators ds → ∀ d ∈ ds, (∀ n ∈ d.1.names, IsName n) ∧ ∀ e ∈ d.2, Faithful e
  | [], _, _ => fun _ hmem => absurd hmem List.not_mem_nil
  | (_, none) :: ds, hn, h =>
      List.forall_mem_cons.mpr ⟨⟨hn.1, fun _ he => (Option.not_mem_none _ he).elim⟩,
        faithfulDeclarators ds hn.2 h⟩
  | (_, some e) :: ds, hn, h =>
      List.forall_mem_cons.mpr ⟨⟨hn.1, fun _ he => Option.some.inj he ▸ faithful e hn.2.1 h.1⟩,
        faithfulDeclarators ds hn.2.2 h.2⟩

/-- Every statement is read back from its text, however deep it is nested. -/
theorem readsSentence : (s : Stmt) → s.Ordinary spelled → s.Legible → ∀ depth,
    ReadsSentence (SameStmt s) (stmt depth s).toList
  | .declare pos kind ds, hn, h, depth => by
      have hds := faithfulDeclarators ds hn h.2
      exact (readsStatement_declaration h.1.1 (fun d hd =>
        ⟨(hds d hd).1, fun e he => ((hds d hd).2 e he).whole depth⟩) pos kind).sentence
  | .function pos name params body, hn, h, depth =>
      (readsStatement_function hn.1 hn.2.1 (readsBody body hn.2.2 h.2 (depth + 1)) pos).sentence
  | .ifElse pos test consequent none, hn, h, depth =>
      readsSentence_if ((faithful test hn.1 h.2.1).whole 0)
        (readsBody consequent hn.2 h.2.2 (depth + 1)) pos
  | .ifElse pos test consequent (some alternate), hn, h, depth =>
      (readsStatement_ifElse ((faithful test hn.1 h.2.1).whole 0)
        (readsBody consequent hn.2.1 h.2.2.1 (depth + 1))
        (readsBody alternate hn.2.2 h.2.2.2 (depth + 1)) pos).sentence
  | .whileDo pos test body, hn, h, depth =>
      (readsStatement_whileDo ((faithful test hn.1 h.2.1).whole 0)
        (readsBody body hn.2 h.2.2 (depth + 1)) pos).sentence
  | .labeled pos label body, hn, h, depth =>
      (readsStatement_labeled hn.1 (readsBody body hn.2 h.2 (depth + 1)) pos).sentence
  | .breakTo pos label, hn, _, _ => (readsStatement_break hn pos).sentence
  | .returnWith pos none, _, _, _ =>
      (readsStatement_return (fun _ he => (Option.not_mem_none _ he).elim) pos).sentence
  | .returnWith pos (some e), hn, h, depth =>
      (readsStatement_return (fun _ he => Option.some.inj he ▸ (faithful e hn h.2).whole depth)
        pos).sentence
  | .block pos body, hn, h, depth =>
      (readsStatement_block (readsBody body hn h.2 (depth + 1)) pos).sentence
  | .expr pos e, hn, h, _ =>
      (readsStatement_exprStmt (faithful e hn h.2) hn h.2 h.1.2 pos).sentence

theorem readsBody : (ss : List Stmt) → Stmt.ProperList spelled ss → Stmt.LegibleList ss → ∀ depth,
    ReadsBody depth ss
  | [], _, _, _ => fun _ hs => absurd hs List.not_mem_nil
  | s :: ss, hn, h, depth =>
      List.forall_mem_cons.mpr
        ⟨readsSentence s (hn.1.resolve_left id) h.1 depth, readsBody ss hn.2 h.2 depth⟩

end

/-- Printing and parsing is the identity up to positions, for a program in which names are names,
numbers those of literals and no statement opens with an object literal. -/
theorem parse_toSource (p : Program) (hproper : Stmt.ProperList spelled p)
    (hlegible : Stmt.LegibleList p) :
    ∃ p', parse p.toSource = .ok p' ∧ Stmt.eraseList p' = Stmt.eraseList p := by
  obtain ⟨p', c', rpos, hread, hc', hp'⟩ := reads_lines (c := .start p.toSource)
    (readsBody p hproper hlegible 0) stops_nil (by rw [List.append_nil]; rfl) (enough p.toSource)
    (by
      rw [List.append_nil, enough, ← String.length_toList]
      change 16 * (lines 0 p).length + 11 ≤ 16 * ((lines 0 p).length + 1)
      omega)
  refine ⟨p', ?_, stmtsErase_of_forall₂ hp'⟩
  have hend : c'.atEnd = true := by
    rw [Cursor.atEnd, hc']
    rfl
  rw [parse, hread]
  exact if_pos hend

/-- Whatever text a program comes from, it is read back from its own text, if its numbers are
those of literals and no statement opens with an object literal. -/
theorem parse_toSource_of_parse {text : String} {p : Program} (h : parse text = .ok p)
    (hplain : Stmt.ThroughoutList Expr.ReadsNumber Stmt.OpensNoBlock p) :
    ∃ p', parse p.toSource = .ok p' ∧ Stmt.eraseList p' = Stmt.eraseList p :=
  parse_toSource p (spelled_of_parse h) (Stmt.throughoutList_and p (wellFormed_of_parse h) hplain)

end Parser

end TraceLoom.Script
