import TraceLoom.Proofs.Script.Leads
import TraceLoom.Proofs.Script.Proper

/-!
Printing keeps to a vocabulary: the text of a proper program is orderly.
-/

namespace TraceLoom.Script

open TraceLoom.Text TraceLoom.Numeric Printer
open TraceLoom.Script.Parser (endsWord_of_head)

/-- How names of a printed program are read. -/
structure Vocabulary.Prints (V V' : Vocabulary) : Prop where
  own : ∀ {n}, V.own n → IsName n ∧ V'.own n
  self : ∀ {n}, V.self n → IsName n ∧ V'.self n
  label : ∀ {n}, V.label n → IsName n ∧ V'.label n
  property : ∀ {n}, V.property n → isNameText n = true ∧ V'.property n
  key : ∀ {w}, isNameText w = true → V'.label w
  special : V'.own "NaN" ∧ V'.own "Infinity"
  inserted : ∀ {s} depth {rest}, V.inserted s → Leads V' true rest →
    Leads V' true ((Printer.stmt depth s).toList ++ rest)

section

variable {V V' : Vocabulary}

namespace Vocabulary.Prints

mutual

theorem expr (hV : V.Prints V') (d : Nat) : (e : Expr) → e.Proper V →
    Phrase V' (decide (memberLevel ≤ level e)) (Printer.expr d e).toList
  | .number _ x, _ => by
      unfold Printer.expr
      split
      · simp only [String.toList_append, String.reduceToList]
        exact phrase_between (by decide) (by decide) (phrase_number x hV.special).flows
      · exact phrase_number x hV.special
  | .string _ s, _ => phrase_string s
  | .boolean _ true, _ => phrase_keyword (w := "true") (by decide) (by decide)
  | .boolean _ false, _ => phrase_keyword (w := "false") (by decide) (by decide)
  | .null _, _ => phrase_keyword (w := "null") (by decide) (by decide)
  | .name _ n, hn => phrase_word (hV.own hn).1.1 (.inr (hV.own hn).2)
  | .array _ items, hitems => by
      simp only [Printer.expr, String.toList_append, String.reduceToList]
      exact phrase_between (by decide) (by decide)
        (flows_intercalate (operands hV items hitems))
  | .object _ entries, hentries => by
      have hfields := flows_intercalate (fields hV entries hentries)
      unfold Printer.expr
      split
      · exact ⟨fun rest _ hrest => .mark (c := '\x7b') (by decide)
          (.mark (c := '\x7d') (by decide) hrest.relax), by simp⟩
      · simp only [String.toList_append, String.reduceToList, List.cons_append, List.nil_append]
        refine ⟨fun rest _ hrest => ?_, by simp⟩
        have hclose : Leads V' false (' ' :: '\x7d' :: rest) :=
          .blank (by decide) (.mark (by decide) hrest.relax)
        have hinner := hfields _ (calm_mark (by decide)) hclose
        rw [List.cons_append, List.cons_append, List.append_assoc]
        exact .mark (by decide) (.blank (by decide) hinner.relax)
  | .function _ name params body, ⟨hname, hparams, hbody⟩ => by
      refine ⟨fun rest _ hrest => ?_, ?_⟩
      · rw [Printer.expr, String.toList_append, List.append_assoc]
        exact leads_functionHead (fun n hn => hV.self (hname n hn)) (fun n hn => hV.own (hparams n hn))
          (leads_braces (stmts hV (d + 1) body hbody) hrest.relax)
      · simp [Printer.expr, functionHead]
  | .member _ object property, ⟨hobject, hproperty⟩ => by
      obtain ⟨hname, hproperty⟩ := hV.property hproperty
      simp only [Printer.expr, String.toList_append, String.reduceToList, List.append_assoc]
      refine (phrase_enclose (expr hV 0 object hobject)).append (fun rest hcalm hrest => ?_) (by simp)
      rw [List.append_assoc]
      exact ⟨calm_point hname, .property (.single (c := '.') _ (by decide))
        (.word hname hcalm.number.1) hproperty hrest⟩
  | .index _ object index, ⟨hobject, hindex⟩ => by
      simp only [Printer.expr, String.toList_append, String.reduceToList, List.append_assoc]
      refine (phrase_enclose (expr hV 0 object hobject)).append (fun rest hcalm hrest => ?_) (by simp)
      refine ⟨calm_mark (by decide), ?_⟩
      have hinner : Leads V' false _ := leads_enclosed (c := '[') (d := ']') (by decide) (by decide)
        (expr hV 0 index hindex).tighten.flows hrest
      simpa using hinner
  | .call _ callee args, ⟨hcallee, hargs⟩ => by
      simp only [Printer.expr, String.toList_append, String.reduceToList, List.append_assoc]
      refine (phrase_enclose (expr hV _ callee hcallee)).append (fun rest hcalm hrest => ?_) (by simp)
      refine ⟨calm_mark (by decide), ?_⟩
      have hinner : Leads V' false _ := leads_enclosed (c := '(') (d := ')') (by decide) (by decide)
        (flows_intercalate (arguments hV d args hargs)) hrest
      simpa using hinner
  | .unary _ op operand, hoperand => by
      have htext : Phrase V' false _ :=
        phrase_enclose (n := unaryLevel) (expr hV 0 operand hoperand)
      cases op with
      | neg => exact phrase_neg_plus (.inl rfl) htext
      | plus => exact phrase_neg_plus (.inr rfl) htext
      | not =>
          simp only [Printer.expr, String.toList_append]
          exact phrase_sign (by decide) htext (fun _ _ => .inl rfl) fun h =>
            absurd h (by simp [level, memberLevel, unaryLevel])
      | typeof | void =>
          simp only [Printer.expr, String.toList_append, String.reduceToList, List.append_assoc]
          refine ⟨fun rest hcalm hrest => ?_, by simp [UnaryOp.symbol]⟩
          rw [List.append_assoc]
          exact leads_keyword (by decide) (by decide) (htext.flows rest hcalm hrest)
  | .binary _ op left right, ⟨hleft, hright⟩ => by
      have hsymbol : op.symbol ≠ "." ∧ opensStatement op.symbol = false := by cases op <;> decide
      rw [loose_binary]
      simp only [Printer.expr, String.toList_append, String.reduceToList, List.append_assoc]
      exact phrase_infix (fun rest => .operator op _) hsymbol
        (phrase_enclose (expr hV 0 left hleft)) (phrase_enclose (expr hV 0 right hright)).tighten
  | .assign _ op target value, ⟨htarget, hvalue⟩ => by
      simp only [Printer.expr, String.toList_append, String.reduceToList, List.append_assoc]
      exact phrase_infix (fun rest => .assignment op _) (by cases op <;> decide)
        (phrase_enclose (expr hV 0 target htarget)) (phrase_enclose (expr hV 0 value hvalue)).tighten
  | .update _ op isPrefix target, htarget => by
      have htext := phrase_enclose (n := memberLevel) (expr hV 0 target htarget)
      have hsymbol : op.symbol ≠ "." ∧ opensStatement op.symbol = false := by cases op <;> decide
      cases isPrefix with
      | true =>
          simp only [Printer.expr, if_true, String.toList_append]
          refine ⟨fun rest hcalm hrest => ?_, by cases op <;> simp [UpdateOp.symbol]⟩
          rw [List.append_assoc]
          exact .symbol (.update op _) hsymbol.1
            (hsymbol.2 ▸ htext.tighten.flows rest hcalm hrest)
      | false =>
          simp only [Printer.expr, Bool.false_eq_true, if_false, String.toList_append]
          exact htext.append (fun rest _ hrest => ⟨calm_update op rest,
            .symbol (.update op _) hsymbol.1 (hsymbol.2 ▸ hrest)⟩)
            (by cases op <;> simp [UpdateOp.symbol])

theorem operands (hV : V.Prints V') : (es : List Expr) → Expr.ProperList V es →
    ∀ t ∈ Printer.operands es, Flows V' false t.toList
  | [], _ => List.forall_mem_nil _
  | e :: es, ⟨he, hes⟩ => List.forall_mem_cons.mpr
      ⟨(phrase_enclose (expr hV 0 e he)).tighten.flows, operands hV es hes⟩

theorem arguments (hV : V.Prints V') (d : Nat) : (es : List Expr) → Expr.ProperList V es →
    ∀ t ∈ Printer.arguments d es, Flows V' false t.toList
  | [], _ => List.forall_mem_nil _
  | e :: es, ⟨he, hes⟩ => by
      refine List.forall_mem_cons.mpr ⟨?_, arguments hV d es hes⟩
      split
      · exact (expr hV d e he).tighten.flows
      · exact (phrase_enclose (expr hV 0 e he)).tighten.flows

theorem fields (hV : V.Prints V') : (es : List (String × Expr)) → Expr.ProperEntries V es →
    ∀ t ∈ Printer.fields es, Flows V' false t.toList
  | [], _ => List.forall_mem_nil _
  | (name, e) :: es, ⟨he, hes⟩ => by
      refine List.forall_mem_cons.mpr ⟨?_, fields hV es hes⟩
      intro rest hcalm hrest
      have hvalue := (phrase_enclose (n := assignLevel + 1)
        (expr hV 0 e he)).tighten.flows rest hcalm hrest
      simp only [String.toList_append, String.reduceToList, List.append_assoc, List.cons_append,
        List.nil_append]
      unfold Printer.key
      split
      · rename_i hname
        exact .key (.word hname (endsWord_of_head (by decide))) (.single (c := ':') _ (by decide))
          (hV.key hname) (.blank (by decide) hvalue)
      · exact .string (.string name _) (.mark (by decide) (.blank (by decide) hvalue))

theorem stmt (hV : V.Prints V') (d : Nat) : (s : Stmt) → s.Ordinary V → ∀ rest, Leads V' true rest →
    Leads V' true ((Printer.stmt d s).toList ++ rest)
  | .declare _ kind ds, hds, rest, hrest => by
      have hds := flows_intercalate (declarators hV d ds hds)
      simp only [Printer.stmt, String.toList_append, String.reduceToList, List.append_assoc,
        List.cons_append, List.nil_append]
      exact leads_keyword (by cases kind <;> decide) (by cases kind <;> decide)
        (leads_phrase hds hrest)
  | .function _ name params body, ⟨hname, hparams, hbody⟩, rest, hrest => by
      rw [Printer.stmt, String.toList_append, List.append_assoc]
      exact leads_functionHead (by simpa using hV.self hname) (fun n hn => hV.own (hparams n hn))
        (leads_braces (stmts hV (d + 1) body hbody) hrest)
  | .ifElse _ test consequent none, ⟨htest, hyes⟩, rest, hrest => by
      have hbody : Leads V' false ((braces d (Printer.stmts (d + 1) consequent)).toList ++ rest) :=
        leads_braces (stmts hV (d + 1) consequent hyes) hrest
      simp only [Printer.stmt, String.toList_append, String.reduceToList, List.append_assoc,
        List.cons_append, List.nil_append]
      exact leads_test (w := "if") (by decide) (by decide) (expr hV 0 test htest).tighten.flows hbody
  | .ifElse _ test consequent (some alternate), ⟨htest, hyes, hno⟩, rest, hrest => by
      have hno : Leads V' false ((braces d (Printer.stmts (d + 1) alternate)).toList ++ rest) :=
        leads_braces (stmts hV (d + 1) alternate hno) hrest
      have helse : Leads V' true (' ' :: ("else".toList ++ ' ' :: _)) :=
        .blank (by decide) (leads_keyword (by decide) (by decide) hno)
      have hyes : Leads V' false ((braces d (Printer.stmts (d + 1) consequent)).toList ++ _) :=
        leads_braces (stmts hV (d + 1) consequent hyes) helse
      simp only [Printer.stmt, String.toList_append, String.reduceToList, List.append_assoc,
        List.cons_append, List.nil_append]
      exact leads_test (w := "if") (by decide) (by decide) (expr hV 0 test htest).tighten.flows hyes
  | .whileDo _ test body, ⟨htest, hbody⟩, rest, hrest => by
      have hbody : Leads V' false ((braces d (Printer.stmts (d + 1) body)).toList ++ rest) :=
        leads_braces (stmts hV (d + 1) body hbody) hrest
      simp only [Printer.stmt, String.toList_append, String.reduceToList, List.append_assoc,
        List.cons_append, List.nil_append]
      exact leads_test (w := "while") (by decide) (by decide) (expr hV 0 test htest).tighten.flows
        hbody
  | .labeled _ label body, ⟨hlabel, hbody⟩, rest, hrest => by
      obtain ⟨hname, hlabel⟩ := hV.label hlabel
      simp only [Printer.stmt, String.toList_append, String.reduceToList, List.append_assoc,
        List.cons_append, List.nil_append]
      exact .key (.word hname.1 (endsWord_of_head (by decide))) (.single (c := ':') _ (by decide))
        hlabel (.blank (by decide) (leads_braces (stmts hV (d + 1) body hbody) hrest))
  | .breakTo _ (some label), hlabel, rest, hrest => by
      obtain ⟨hname, hlabel⟩ := hV.label (hlabel label rfl)
      simp only [Printer.stmt, String.toList_append, String.reduceToList, List.append_assoc,
        List.cons_append, List.nil_append]
      exact .breakTo (.word (w := "break") (by decide) (endsWord_of_head (by decide)))
        ((Lexes.word hname.1 (endsWord_of_head (by decide))).blank (by decide)) hname.2 hlabel
        (.mark (by decide) hrest)
  | .breakTo _ none, _, rest, hrest => by
      have hword : Phrase V' false "break".toList := phrase_keyword (by decide) (by decide)
      rw [Printer.stmt]
      exact leads_phrase hword.flows hrest
  | .returnWith _ (some value), hvalue, rest, hrest => by
      simp only [Printer.stmt, String.toList_append, String.reduceToList, List.append_assoc,
        List.cons_append, List.nil_append]
      exact leads_keyword (w := "return") (by decide) (by decide)
        (leads_phrase (expr hV d value hvalue).tighten.flows hrest)
  | .returnWith _ none, _, rest, hrest => by
      have hword : Phrase V' false "return".toList := phrase_keyword (by decide) (by decide)
      rw [Printer.stmt]
      exact leads_phrase hword.flows hrest
  | .block _ body, hbody, rest, hrest => by
      rw [Printer.stmt]
      exact leads_braces (stmts hV (d + 1) body hbody) hrest
  | .expr _ e, he, rest, hrest => by
      have htext := (expr hV d e he).tighten.flows
      unfold Printer.stmt
      split
      · simp only [String.toList_append, String.reduceToList, List.append_assoc, List.cons_append,
          List.nil_append]
        exact leads_enclosed (by decide) (by decide) htext (.mark (by decide) hrest)
      · simp only [String.toList_append, String.reduceToList, List.append_assoc, List.cons_append,
          List.nil_append]
        exact leads_enclosed (by decide) (by decide) htext (.mark (by decide) hrest)
      · simp only [String.toList_append, String.reduceToList, List.append_assoc, List.cons_append,
          List.nil_append]
        exact leads_phrase htext hrest

theorem declarators (hV : V.Prints V') (d : Nat) : (ds : List (Pattern × Option Expr)) →
    Stmt.ProperDeclarators V ds → ∀ t ∈ Printer.declarators d ds, Flows V' false t.toList
  | [], _ => List.forall_mem_nil _
  | (target, none) :: ds, ⟨htarget, hds⟩ => List.forall_mem_cons.mpr
      ⟨(phrase_pattern fun n hn => hV.own (htarget n hn)).flows, declarators hV d ds hds⟩
  | (target, some e) :: ds, ⟨htarget, he, hds⟩ => by
      have hvalue := phrase_infix (s := "=") (fun rest => .assignment .assign _) (by decide)
        (phrase_pattern fun n hn => hV.own (htarget n hn)) (expr hV d e he).tighten
      refine List.forall_mem_cons.mpr ⟨?_, declarators hV d ds hds⟩
      simpa using hvalue.flows

theorem stmts (hV : V.Prints V') (d : Nat) : (ss : List Stmt) → Stmt.ProperList V ss →
    ∀ rest, Leads V' true rest →
      Leads V' true ((String.join ((Printer.stmts d ss).map (· ++ "\n"))).toList ++ rest)
  | [], _, rest, hrest => hrest
  | s :: ss, ⟨hs, hss⟩, rest, hrest => by
      have hmore := (stmts hV d ss hss rest hrest).blank (c := '\n') (by decide)
      have hfirst : Leads V' true ((Printer.stmt d s).toList ++ '\n' :: _) :=
        hs.elim (fun hs => hV.inserted d hs hmore) fun hs => stmt hV d s hs _ hmore
      have hindented := leads_indent d hfirst
      simpa [Printer.stmts, String.toList_join] using hindented

end

end Vocabulary.Prints

end

end TraceLoom.Script
