import TraceLoom.Proofs.Instrument.Written
import TraceLoom.Proofs.Script.RoundTrip
import TraceLoom.Proofs.Script.Spelling

/-!
Reading the text of an instrumented program again.  What was inserted is read as what it was, up to
how numbers are written, so that the text is that of an instrumented program, too.
-/

namespace TraceLoom.Instrument

open Script Script.Printer TraceLoom.Script.Parser

/-! ## Numbers -/

theorem readsOperand_literal {text : List Char} (h : IsLiteral text) : ReadsOperand ReadNumber text := by
  cases h with
  | name h =>
      refine (heads_name ?_ ?_).readsOperand.imp ?_
      · rcases h with rfl | rfl <;> decide
      · rcases h with rfl | rfl <;> decide
      · rintro _ ⟨pos, rfl⟩
        exact .name h
  | numeral h =>
      refine (heads_number h).readsOperand.imp ?_
      rintro _ ⟨pos, rfl⟩
      exact .number

theorem head_literal {text : List Char} (h : IsLiteral text) :
    ∃ c cs, text = c :: cs ∧ c ≠ '=' ∧ c ≠ '-' := by
  cases h with
  | name h => rcases h with rfl | rfl <;> exact ⟨_, _, rfl, by decide, by decide⟩
  | numeral h =>
      obtain ⟨c, cs, rfl, hc⟩ := h.exists_cons
      refine ⟨c, cs, rfl, ?_, ?_⟩ <;>
        (rintro rfl; exact absurd hc (by decide))

theorem readsOperand_number (x : Float) :
    ReadsOperand ReadNumber (Numeric.Notation.literal x).toList := by
  have hsigned := isSigned_literal x
  generalize (Numeric.Notation.literal x).toList = text at hsigned
  cases hsigned with
  | plain h => exact readsOperand_literal h
  | minus h =>
      obtain ⟨c, cs, rfl, hequals, hminus⟩ := head_literal h
      have hword : UnaryOp.neg ≠ .typeof ∧ UnaryOp.neg ≠ .void := by decide
      refine (readsOperand_sign hword hequals (.inr fun heq => ?_)
        (readsOperand_literal h)).imp fun _ ⟨_, _, heq, he⟩ => heq ▸ .neg he
      exact hminus (List.singleton_inj.mp heq).symm

theorem reads_number {e : Expr} (h : IsNumber e) (d : Nat) :
    Reads ReadNumber (Printer.expr d e).toList := by
  obtain ⟨pos, x, rfl⟩ := h
  have hread := (readsOperand_number x).reads
  unfold Printer.expr
  split
  · have htext : ("(" ++ Numeric.Notation.literal x ++ ")").toList =
        '(' :: ((Numeric.Notation.literal x).toList ++ [')']) := by simp
    exact htext ▸ (heads_paren hread).readsOperand.reads
  · exact hread

/-! ## Expressions that build traces -/

section

variable {strict : Bool} {e : Expr}

/-- What is inserted is never put in parentheses. -/
theorem memberLevel_le_tracer (h : Tracer IsNumber strict e) : memberLevel ≤ level e := by
  cases h <;> first | exact Nat.le_refl memberLevel | exact show memberLevel ≤ primaryLevel by decide

theorem isFunction_tracer (h : Tracer IsNumber strict e) : e.isFunction = false := by
  cases h <;> rfl

theorem enclose_tracer (h : Tracer IsNumber strict e) {least : Nat} (hleast : least ≤ memberLevel)
    (text : String) : enclose e least text = text :=
  enclose_of_le (Nat.le_trans hleast (memberLevel_le_tracer h)) text

end

theorem arguments_tracer {d : Nat} {es : List Expr}
    (h : ∀ e ∈ es, Tracer IsNumber false e ∨ IsNumber e) :
    Printer.arguments d es = es.map (Printer.expr 0) := by
  induction es with
  | nil => rfl
  | cons e es ih =>
      obtain ⟨he, hes⟩ := List.forall_mem_cons.mp h
      have hplain : e.isFunction = false ∧
          enclose e (assignLevel + 1) (Printer.expr 0 e) = Printer.expr 0 e := by
        rcases he with he | ⟨pos, x, rfl⟩
        · exact ⟨isFunction_tracer he, enclose_tracer he (by decide) _⟩
        · exact ⟨rfl, enclose_of_le (by decide : assignLevel + 1 ≤ primaryLevel) _⟩
      rw [Printer.arguments, hplain.1, hplain.2, ih hes]
      rfl

/-- A call of a part of something. -/
theorem heads_methodCall {Q : Expr → Prop} {P : Expr → Expr → Prop} {d : Nat} {object : Expr}
    {property : String} {args : List Expr} {pos mpos : Position}
    (h : Heads Q (Printer.expr 0 object).toList) (hlevel : memberLevel ≤ level object)
    (hproperty : isNameText property = true)
    (hargs : ∀ e ∈ args, Tracer IsNumber false e ∨ IsNumber e)
    (hreads : ∀ e ∈ args, Reads (P e) (Printer.expr 0 e).toList) :
    Heads (fun e => ∃ pos mpos object' args', e = .call pos (.member mpos object' property) args' ∧
        Q object' ∧ List.Forall₂ P args args')
      (Printer.expr d (.call pos (.member mpos object property) args)).toList := by
  have htext : (Printer.expr d (.call pos (.member mpos object property) args)).toList =
      ((Printer.expr 0 object).toList ++ '.' :: property.toList) ++
        '(' :: ((", ".intercalate (args.map (Printer.expr 0))).toList ++ [')']) := by
    simp [Printer.expr, arguments_tracer hargs, enclose_of_le hlevel,
      enclose_of_le (e := .member mpos object property) (Nat.le_refl memberLevel)]
  refine htext ▸ ((h.member hproperty).call hreads).imp ?_
  rintro _ ⟨cpos, _, args', rfl, ⟨mpos', object', rfl, hobject⟩, hargs'⟩
  exact ⟨cpos, mpos', object', args', rfl, hobject, hargs'⟩

theorem isNameText_builder : ∀ builder ∈ "number" :: builders, isNameText builder = true := by
  decide

theorem heads_builder {P : Expr → Expr → Prop} {d : Nat} {builder : String} {args : List Expr}
    {pos mpos npos : Position} (hmem : builder ∈ "number" :: builders)
    (hargs : ∀ e ∈ args, Tracer IsNumber false e ∨ IsNumber e)
    (hreads : ∀ e ∈ args, Reads (P e) (Printer.expr 0 e).toList) :
    Heads (fun e => ∃ pos mpos npos args', e = .call pos
        (.member mpos (.name npos standard.options.expBinding) builder) args' ∧
          List.Forall₂ P args args')
      (Printer.expr d (.call pos
        (.member mpos (.name npos standard.options.expBinding) builder) args)).toList := by
  have hname : Heads (fun e => ∃ pos, e = .name pos standard.options.expBinding)
      (Printer.expr 0 (.name npos standard.options.expBinding)).toList :=
    heads_name (by decide) (by decide)
  refine (heads_methodCall hname (show memberLevel ≤ primaryLevel by decide)
    (isNameText_builder builder hmem) hargs hreads).imp ?_
  rintro _ ⟨cpos, mpos', _, args', rfl, ⟨npos', rfl⟩, hargs'⟩
  exact ⟨cpos, mpos', npos', args', rfl, hargs'⟩

/-- What builds a trace is read as what builds a trace. -/
theorem heads_tracer {strict : Bool} {e : Expr} (h : Tracer IsNumber strict e) (d : Nat) :
    Heads (Tracer ReadNumber strict) (Printer.expr d e).toList := by
  induction h generalizing d with
  | @undefined _ pos npos =>
      have hname : Heads (fun e => ∃ pos, e = .name pos standard.options.expBinding)
          standard.options.expBinding.toList :=
        heads_name (by decide) (by decide)
      have htext : (Printer.expr d (.member pos (.name npos standard.options.expBinding)
          "undefined_")).toList = standard.options.expBinding.toList ++ '.' :: "undefined_".toList := by
        simp [Printer.expr, enclose_of_le (e := .name npos standard.options.expBinding)
          (show memberLevel ≤ primaryLevel by decide)]
      refine htext ▸ (hname.member (by decide)).imp ?_
      rintro _ ⟨mpos, _, rfl, npos, rfl⟩
      exact .undefined
  | bound hname =>
      obtain ⟨htext, hword⟩ := isName_of_generated hname
      refine (heads_name htext hword).imp ?_
      rintro _ ⟨pos, rfl⟩
      exact .bound hname
  | number hnumber =>
      refine (heads_builder (P := fun _ => ReadNumber) List.mem_cons_self
        (List.forall_mem_singleton.mpr (.inr hnumber))
        (List.forall_mem_singleton.mpr (reads_number hnumber 0))).imp ?_
      rintro _ ⟨cpos, mpos, npos, args', rfl, hargs⟩
      cases hargs with
      | cons hfirst hrest =>
          cases hrest
          exact .number hfirst
  | build hmem hall ih =>
      refine (heads_builder (P := fun _ => Tracer ReadNumber false) (List.mem_cons_of_mem _ hmem)
        (fun a ha => .inl (hall a ha)) fun a ha => (ih a ha 0).readsOperand.reads).imp ?_
      rintro _ ⟨cpos, mpos, npos, args', rfl, hargs⟩
      exact .build hmem (forall_right hargs)
  | string =>
      refine (heads_string _).imp ?_
      rintro _ ⟨pos, rfl⟩
      exact .string
  | boolean =>
      refine (heads_boolean _).imp ?_
      rintro _ ⟨pos, rfl⟩
      exact .boolean
  | @list pos items hall ih =>
      have htexts : operands items = items.map (Printer.expr 0) := by
        rw [operands_eq_map]
        exact List.map_congr_left fun a ha => enclose_tracer (hall a ha) (by decide) _
      have htext : (Printer.expr d (.array pos items)).toList =
          '[' :: ((", ".intercalate (items.map (Printer.expr 0))).toList ++ [']']) := by
        simp [Printer.expr, htexts]
      refine htext ▸ (heads_array (P := fun _ => Tracer ReadNumber true)
        fun a ha => (ih a ha 0).readsOperand.reads).imp ?_
      rintro _ ⟨apos, es, rfl, hes⟩
      exact .list (forall_right hes)
  | @record pos entries hall ih =>
      cases entries with
      | nil =>
          have htext : (Printer.expr d (.object pos [])).toList = ['\x7b', '\x7d'] := by
            simp [Printer.expr]
          refine htext ▸ heads_empty.imp ?_
          rintro _ ⟨opos, rfl⟩
          exact .record (List.forall_mem_nil _)
      | cons entry entries =>
          have htext : (Printer.expr d (.object pos (entry :: entries))).toList =
              '\x7b' :: ' ' :: ((", ".intercalate ((entry :: entries).map fun entry =>
                key entry.1 ++ ": " ++ enclose entry.2 (assignLevel + 1)
                  (Printer.expr 0 entry.2))).toList ++ [' ', '\x7d']) := by
            rw [Printer.expr, fields_eq_map]
            simp
          refine htext ▸ (heads_object (P := fun entry entry' => entry'.1 = entry.1 ∧
            Tracer ReadNumber true entry'.2) (fun entry hentry => readsItem_property ?_)
            (List.cons_ne_nil _ _)).imp ?_
          · rw [enclose_tracer (hall entry hentry) (by decide)]
            exact (ih entry hentry 0).readsOperand.reads
          · rintro _ ⟨opos, entries', rfl, hentries⟩
            exact .record fun entry hentry =>
              (forall_right (hentries.imp fun _ _ h => h.2) entry hentry)

/-! ## Statements -/

section

variable {operation : String} {args : List Expr} {e : Expr}

theorem heads_recording {P : Expr → Expr → Prop} (h : IsRecording operation args e) (d : Nat)
    (hoperation : isNameText operation = true)
    (hargs : ∀ a ∈ args, Tracer IsNumber false a ∨ IsNumber a)
    (hreads : ∀ a ∈ args, Reads (P a) (Printer.expr 0 a).toList) :
    Heads (fun e' => ∃ args', IsRecording operation args' e' ∧ List.Forall₂ P args args')
      (Printer.expr d e).toList := by
  obtain @⟨pos, mpos, tpos, npos⟩ := h
  have hname : Heads (fun e => ∃ pos, e = .name pos standard.options.callbacksBinding)
      standard.options.callbacksBinding.toList :=
    heads_name (by decide) (by decide)
  have htext : (Printer.expr 0 (.member tpos (.name npos standard.options.callbacksBinding)
      "trace")).toList = standard.options.callbacksBinding.toList ++ '.' :: "trace".toList := by
    simp [Printer.expr, enclose_of_le (e := .name npos standard.options.callbacksBinding)
      (show memberLevel ≤ primaryLevel by decide)]
  have hobject := hname.member (w := "trace") (by decide)
  rw [← htext] at hobject
  refine (heads_methodCall hobject (Nat.le_refl memberLevel) hoperation hargs hreads).imp ?_
  rintro _ ⟨cpos, mpos', _, args', rfl, ⟨tpos', _, rfl, npos', rfl⟩, hargs'⟩
  exact ⟨args', .intro, hargs'⟩

theorem text_recording (h : IsRecording operation args e) (d : Nat) : ∃ text,
    (Printer.expr d e).toList = standard.options.callbacksBinding.toList ++ '.' :: text := by
  obtain @⟨pos, mpos, tpos, npos⟩ := h
  refine ⟨"trace".toList ++ '.' :: (operation.toList ++
    '(' :: ((", ".intercalate (Printer.arguments d args)).toList ++ [')'])), ?_⟩
  simp [Printer.expr, enclose_of_le (e := .name npos standard.options.callbacksBinding)
    (show memberLevel ≤ primaryLevel by decide), enclose_of_le (e := .member _ _ _)
    (Nat.le_refl memberLevel)]

theorem text_recordingStmt (h : IsRecording operation args e) (d : Nat) (pos : Position) :
    (Printer.stmt d (.expr pos e)).toList = (Printer.expr d e).toList ++ [';'] := by
  cases h
  simp only [Printer.stmt, String.toList_append]
  rfl

/-- A call of the recorder that stands by itself. -/
theorem readsStatement_recording {P : Expr → Expr → Prop} (h : IsRecording operation args e)
    (d : Nat) (pos : Position) (hoperation : isNameText operation = true)
    (hargs : ∀ a ∈ args, Tracer IsNumber false a ∨ IsNumber a)
    (hreads : ∀ a ∈ args, Reads (P a) (Printer.expr 0 a).toList) :
    ReadsStatement (fun s => ∃ pos' e' args', s = .expr pos' e' ∧ IsRecording operation args' e' ∧
      List.Forall₂ P args args') (Printer.stmt d (.expr pos e)).toList := by
  have hread := (heads_recording h d hoperation hargs hreads).readsOperand.reads
  obtain ⟨text, htext⟩ := text_recording h d
  rw [text_recordingStmt h, htext, List.append_assoc, List.cons_append]
  rw [htext] at hread
  exact readsStatement_expr (by decide) (by decide) hread fun pos' e' ⟨args', he', hargs'⟩ =>
    ⟨pos', e', args', rfl, he', hargs'⟩

end

theorem text_let {target : Pattern} {e : Expr} (d : Nat) (pos : Position) :
    (Printer.stmt d (.declare pos .ofLet [(target, some e)])).toList =
      ("let " ++ Printer.pattern target ++ " = " ++ Printer.expr d e ++ ";").toList := by
  have hone : ", ".intercalate (Printer.declarators d [(target, some e)]) =
      Printer.pattern target ++ " = " ++ Printer.expr d e := String.intercalate_singleton
  rw [Printer.stmt, hone]
  simp [DeclKind.keyword]

theorem readsStatement_test {n : String} {e : Expr} (hname : IsTest n)
    (h : Tracer IsNumber true e) (d : Nat) (pos : Position) :
    ReadsStatement (Inserted ReadNumber)
      (Printer.stmt d (.declare pos .ofLet [(.name n, some e)])).toList := by
  rw [text_let]
  exact readsStatement_let
    (List.forall_mem_singleton.mpr (isName_of_generated (.inr (.inl hname))))
    (heads_tracer h d).readsOperand.reads fun pos e' he' => .test hname he'

theorem readsStatement_prologue {names : List String} {label : String} {arity e : Expr}
    {spos : Position} (hnames : ∀ n ∈ names, Generated n) (harity : IsNumber arity)
    (h : IsRecording "traceFunctionBody" [.string spos label, arity] e) (d : Nat) (pos : Position) :
    ReadsStatement (Inserted ReadNumber)
      (Printer.stmt d (.declare pos .ofLet [(.array names, some e)])).toList := by
  have hread : Reads (fun e' => ∃ spos arity', ReadNumber arity' ∧
      IsRecording "traceFunctionBody" [.string spos label, arity'] e') (Printer.expr d e).toList := by
    refine ((heads_recording (P := fun a a' => (a = .string spos label → ∃ pos, a' = .string pos label) ∧
      (a = arity → ReadNumber a')) h d (by decide) ?_ ?_).imp ?_).readsOperand.reads
    · exact List.forall_mem_cons.mpr ⟨.inl .string, List.forall_mem_singleton.mpr (.inr harity)⟩
    · obtain ⟨npos, x, rfl⟩ := harity
      refine List.forall_mem_cons.mpr ⟨?_, List.forall_mem_singleton.mpr ?_⟩
      · exact (heads_string label).readsOperand.reads.imp fun _ he => ⟨fun _ => he, nofun⟩
      · exact (reads_number ⟨npos, x, rfl⟩ 0).imp fun _ he => ⟨nofun, fun _ => he⟩
    · rintro e' ⟨args', he', hargs'⟩
      cases hargs' with
      | cons hlabel hrest =>
          cases hrest with
          | cons hcount hnil =>
              cases hnil
              obtain ⟨lpos, rfl⟩ := hlabel.1 rfl
              exact ⟨lpos, _, hcount.2 rfl, he'⟩
  rw [text_let]
  exact readsStatement_let (fun n hn => isName_of_generated (hnames n hn)) hread
    fun pos e' ⟨_, _, hcount, hrecording⟩ => .prologue hnames hcount hrecording

theorem readsStatement_import (binding path : String) (hname : IsName binding) (d : Nat) :
    ReadsStatement (IsImport binding path) (Printer.stmt d (requireModule binding path)).toList := by
  have hread : Reads (fun e => ∃ cpos npos spos,
      e = .call cpos (.name npos "require") [.string spos path])
      (Printer.expr d (.call .none (.ident "require") [.text path])).toList := by
    have htext : (Printer.expr d (.call .none (.ident "require") [.text path])).toList =
        "require".toList ++ '(' :: ((", ".intercalate ([path].map Text.Quoted.quote)).toList ++
          [')']) := by
      simp [Printer.expr, Expr.ident, Expr.text, Printer.arguments, Expr.isFunction,
        enclose_of_le (e := .name _ _) (show memberLevel ≤ primaryLevel by decide),
        enclose_of_le (e := .string _ _) (show assignLevel + 1 ≤ primaryLevel by decide)]
    rw [htext]
    refine (((heads_name (w := "require") (by decide) (by decide)).call
      (P := fun path e => ∃ pos, e = .string pos path)
      (List.forall_mem_singleton.mpr (heads_string path).readsOperand.reads)).imp ?_).readsOperand.reads
    rintro _ ⟨cpos, _, args', rfl, ⟨npos, rfl⟩, hargs⟩
    cases hargs with
    | cons hpath hrest =>
        cases hrest
        obtain ⟨spos, rfl⟩ := hpath
        exact ⟨cpos, npos, spos, rfl⟩
  rw [requireModule, Stmt.letNamed, text_let]
  refine readsStatement_let (List.forall_mem_singleton.mpr hname) hread ?_
  rintro pos e' ⟨cpos, npos, spos, rfl⟩
  exact .intro

/-- What was inserted is read as what is inserted. -/
theorem readsStatement_inserted {s : Stmt} (h : Inserted IsNumber s) (d : Nat) :
    ReadsStatement (Inserted ReadNumber) (Printer.stmt d s).toList := by
  have hrecordings : ∀ operation ∈ recordings, isNameText operation = true := by decide
  cases h with
  | @record pos operation args e hmem hall hcall =>
      refine (readsStatement_recording (P := fun _ => Tracer ReadNumber false) hcall d pos
        (hrecordings operation hmem) (fun a ha => .inl (hall a ha))
        fun a ha => (heads_tracer (hall a ha) 0).readsOperand.reads).imp ?_
      rintro _ ⟨pos', e', args', rfl, hcall', hargs'⟩
      exact .record hmem (forall_right hargs') hcall'
  | test hname hvalue => exact readsStatement_test hname hvalue d _
  | prologue hgenerated hcount hcall =>
      exact readsStatement_prologue hgenerated hcount hcall d _

/-! ## Texts -/

/-- A statement that starts with a word, and that is read as a whole. -/
theorem leads_whole {V : Vocabulary} {w : String} {more rest : List Char}
    (hname : isNameText w = true) (helse : w ≠ "else") (hends : EndsWord (more ++ rest))
    (hcolon : ∀ pos, Cursor.symbol? ":" ⟨more ++ rest, pos⟩ = none)
    (hread : ReadsStatement V.inserted (w.toList ++ more)) (hrest : Leads V true rest) :
    Leads V true (w.toList ++ more ++ rest) := by
  have hlex := Lexes.word hname hends
  rw [← List.append_assoc] at hlex
  refine .whole hlex helse hcolon rfl (fun hnil => ?_) hread hrest
  rw [List.append_eq_nil_iff] at hnil
  rw [isNameText, hnil.1] at hname
  cases hname

/-- How the text of an inserted statement starts. -/
theorem text_inserted {s : Stmt} (h : Inserted IsNumber s) (d : Nat) : ∃ w more,
    (Printer.stmt d s).toList = w.toList ++ more ∧ isNameText w = true ∧ w ≠ "else" ∧
      ∀ rest, EndsWord (more ++ rest) ∧ ∀ pos, Cursor.symbol? ":" ⟨more ++ rest, pos⟩ = none := by
  have hlet {target : Pattern} {e : Expr} {pos : Position}
      (htarget : ∀ rest, ∃ token behind, token ≠ .symbol ":" ∧
        Lexes ((Printer.pattern target).toList ++ ' ' :: rest) token behind) :
      ∃ w more, (Printer.stmt d (.declare pos .ofLet [(target, some e)])).toList = w.toList ++ more ∧
        isNameText w = true ∧ w ≠ "else" ∧ ∀ rest, EndsWord (more ++ rest) ∧
          ∀ pos, Cursor.symbol? ":" ⟨more ++ rest, pos⟩ = none := by
    refine ⟨"let", ' ' :: ((Printer.pattern target).toList ++
      ' ' :: '=' :: ' ' :: ((Printer.expr d e).toList ++ [';'])), ?_, by decide, by decide,
      fun rest => ⟨endsWord_of_head (by decide), fun pos => ?_⟩⟩
    · rw [text_let]
      simp
    · obtain ⟨token, behind, hne, hlex⟩ :=
        htarget ('=' :: ' ' :: ((Printer.expr d e).toList ++ ';' :: rest))
      have hspace := hlex.space
      simp only [List.cons_append, List.append_assoc, List.nil_append]
      exact symbol?_of_ne hspace hne pos
  cases h with
  | @record pos operation args e _ _ hcall =>
      obtain ⟨text, htext⟩ := text_recording hcall d
      refine ⟨standard.options.callbacksBinding, '.' :: (text ++ [';']), ?_, by decide, by decide,
        fun rest => ⟨endsWord_of_head (by decide), fun pos => ?_⟩⟩
      · rw [text_recordingStmt hcall, htext, List.append_assoc, List.cons_append]
      · exact symbol?_eq_none (.single (c := '.') _ (by decide)) (by decide) pos
  | test hname hvalue =>
      exact hlet fun rest => ⟨.word _, _, Token.noConfusion,
        .word (isName_of_generated (.inr (.inl hname))).1 (endsWord_of_head (by decide))⟩
  | prologue hgenerated hcount hcall =>
      refine hlet fun rest => ?_
      simp only [Printer.pattern, String.toList_append, String.reduceToList, List.append_assoc,
        List.cons_append, List.nil_append]
      exact ⟨.symbol "[", _, fun heq => absurd (Token.symbol.inj heq) (by decide),
        .single (c := '[') _ (by decide)⟩

/-- Printing takes the words of instrumented programs to those that are read from them. -/
theorem prints_written : written.Prints reread where
  own h := h
  self h := h
  label h := ⟨h, trivial⟩
  property h := ⟨h, trivial⟩
  key _ := trivial
  special := ⟨not_hidden (by decide) (by decide), not_hidden (by decide) (by decide)⟩
  inserted {s} d {rest} hs hrest := by
    obtain ⟨w, more, htext, hname, helse, hmore⟩ := text_inserted hs d
    have hread := readsStatement_inserted hs d
    rw [htext] at hread ⊢
    exact leads_whole hname helse (hmore rest).1 (hmore rest).2 hread hrest

/-! ## Programs -/

theorem toList_toSource_cons (s : Stmt) (ss : Program) :
    (Program.toSource (s :: ss)).toList =
      (Printer.stmt 0 s).toList ++ '\n' :: (Program.toSource ss).toList := by
  simp [Program.toSource, Printer.stmts, Printer.indent, String.toList_join]

theorem length_toSource_cons (s : Stmt) (ss : Program) :
    (Program.toSource ss).length < (Program.toSource (s :: ss)).length := by
  rw [← String.length_toList, ← String.length_toList, toList_toSource_cons, List.length_append,
    List.length_cons]
  omega

/-- The first statement of a printed program. -/
theorem statements_toSource {S : Stmt → Prop} {s : Stmt} {ss : Program} {c c' : Cursor}
    {pos : Position} {fuel : Nat} {read : List Stmt}
    (h : ReadsStatement S (Printer.stmt 0 s).toList)
    (hc : c.skip = Cursor.skip ⟨(Program.toSource (s :: ss)).toList, pos⟩)
    (hfuel : 16 * (Program.toSource (s :: ss)).length + 10 ≤ fuel)
    (hread : statements (fuel + 1) c = (.ok read, c')) :
    ∃ s' read' rpos, read = s' :: read' ∧ S s' ∧
      statements fuel ⟨'\n' :: (Program.toSource ss).toList, rpos⟩ = (.ok read', c') := by
  rw [toList_toSource_cons] at hc
  rw [← String.length_toList, toList_toSource_cons] at hfuel
  exact statements_of_reads h hc hfuel hread

/-- A text that starts with the modules and a new trace, and goes on in an orderly way. -/
theorem isInstrumented_of_leads {exp cb start : Stmt} {body p : Program}
    (hexp : ReadsStatement (IsImport standard.options.expBinding standard.options.expModule)
      (Printer.stmt 0 exp).toList)
    (hcb : ReadsStatement
      (IsImport standard.options.callbacksBinding standard.options.callbacksModule)
      (Printer.stmt 0 cb).toList)
    (hstart : ReadsStatement (fun s => ∃ pos e, s = .expr pos e ∧ IsRecording "newTrace" [] e)
      (Printer.stmt 0 start).toList)
    (hbody : Leads reread true (Program.toSource body).toList)
    (h : parse (Program.toSource (exp :: cb :: start :: body)) = .ok p) :
    IsInstrumented reread p := by
  have hskip (text : List Char) (pos : Position) :
      Cursor.skip ⟨'\n' :: text, pos⟩ = Cursor.skip ⟨text, pos.after '\n'⟩ :=
    Cursor.skip_cons_blank (by decide) text pos
  have h₁ := length_toSource_cons exp (cb :: start :: body)
  have h₂ := length_toSource_cons cb (start :: body)
  have h₃ := length_toSource_cons start body
  unfold parse at h
  rcases hread : statements (enough (Program.toSource (exp :: cb :: start :: body)))
    (.start (Program.toSource (exp :: cb :: start :: body))) with ⟨reading, behind⟩
  rw [hread] at h
  dsimp only at h
  split at h
  · rename_i hend
    subst h
    replace hread : statements (16 * (Program.toSource (exp :: cb :: start :: body)).length + 15 + 1)
        (.start (Program.toSource (exp :: cb :: start :: body))) = (.ok p, behind) := hread
    have hfront : Cursor.skip (.start (Program.toSource (exp :: cb :: start :: body))) =
        Cursor.skip ⟨(Program.toSource (exp :: cb :: start :: body)).toList, ⟨1, 1⟩⟩ := rfl
    obtain ⟨_, _, pos₁, rfl, hfirst, hread₁⟩ := statements_toSource hexp hfront (by omega) hread
    obtain ⟨_, _, pos₂, rfl, hsecond, hread₂⟩ :=
      statements_toSource hcb (hskip _ pos₁) (by omega) hread₁
    obtain ⟨_, rest, pos₃, rfl, ⟨_, _, rfl, hthird⟩, hread₃⟩ :=
      statements_toSource hstart (hskip _ pos₂) (by omega) hread₂
    refine .intro hfirst hsecond hthird
      (((hbody.blank (c := '\n') (by decide)) pos₃).statements ?_ hread₃ hend)
    have hsize : Cursor.size ⟨'\n' :: (Program.toSource body).toList, pos₃⟩ =
        (Program.toSource body).length + 1 := by
      rw [Cursor.size, List.length_cons, String.length_toList]
    rw [hsize]
    omega
  · cases h

/-- The text of an instrumented program is read as that of an instrumented program. -/
theorem isInstrumented_of_parse {body p : Program} (hbody : Stmt.ProperList written body)
    (h : parse (Program.toSource
      (requireModule standard.options.expBinding standard.options.expModule ::
        requireModule standard.options.callbacksBinding standard.options.callbacksModule ::
        traceCall standard "newTrace" [] :: body)) = .ok p) : IsInstrumented reread p := by
  have hstart : ReadsStatement (fun s => ∃ pos e, s = .expr pos e ∧ IsRecording "newTrace" [] e)
      (Printer.stmt 0 (traceCall standard "newTrace" [])).toList :=
    (readsStatement_recording (P := fun _ _ => True) .intro 0 _ (by decide) (List.forall_mem_nil _)
      (List.forall_mem_nil _)).imp fun s ⟨pos, e, args, hs, he, hargs⟩ => by
        cases hargs
        exact ⟨pos, e, hs, he⟩
  have hleads := prints_written.stmts 0 body hbody [] fun pos => .stop rfl
  rw [List.append_nil] at hleads
  exact isInstrumented_of_leads (readsStatement_import _ _ ⟨by decide, by decide⟩ 0)
    (readsStatement_import _ _ ⟨by decide, by decide⟩ 0) hstart hleads h

end TraceLoom.Instrument
