import TraceLoom.Proofs.Script.NormalNames
import TraceLoom.Proofs.Script.ProperReading

/-!
Names as they are read.  Whatever text a program comes from, its names are words that are read
back as they are written, and normal form keeps them so.
-/

namespace TraceLoom.Script

/-- The vocabulary of all texts. -/
def spelled : Vocabulary where
  own := IsName
  self := IsName
  label := IsName
  property w := isNameText w = true
  inserted _ := False
  self_of_own := id
  label_of_own := id
  not_block := id
  not_function := id

theorem Token.isNameText_of_scan? {c rest : Cursor} {w : String}
    (h : scan? c = some (.word w, rest)) : isNameText w = true := by
  unfold scan? at h
  split at h
  · cases h
  · rename_i first text htext
    rw [htext] at h
    split at h
    · rename_i hstart
      cases h
      have hfirst : isWordChar first = true := by
        rw [isWordChar, show isNameText.starts first = true from hstart, Bool.true_or]
      rw [isNameText, String.toList_ofList, List.takeWhile_cons_of_pos hfirst]
      refine Bool.and_eq_true_iff.mpr ⟨hstart, List.all_eq_true.mpr fun c hc => ?_⟩
      exact (List.all_eq_true.mp List.all_takeWhile) c hc
    · split at h
      · cases h
      · split at h
        · obtain ⟨_, -, heq⟩ := Option.map_eq_some_iff.mp h
          cases heq
        · obtain ⟨_, -, heq⟩ := Option.map_eq_some_iff.mp h
          cases heq

theorem isNameText_of_next? {c rest : Cursor} {w : String} {pos : Position}
    (h : c.next? = some ⟨.word w, pos, rest⟩) : isNameText w = true := by
  obtain ⟨⟨t, rest'⟩, hparts, heq⟩ := Option.map_eq_some_iff.mp h
  cases heq
  exact Token.isNameText_of_scan? hparts

/-- Every text is spelled. -/
theorem orderly_spelled (fresh : Bool) (c : Cursor) : Orderly spelled fresh c := by
  induction hsize : c.size using Nat.strongRecOn generalizing fresh c with
  | ind size ih =>
  have hbehind {l : Lexeme} (fresh : Bool) (h : c.next? = some l) :
      Orderly spelled fresh l.rest :=
    ih l.rest.size (hsize ▸ Cursor.next?_size h) fresh l.rest rfl
  cases hnext : c.next? with
  | none => exact .stop hnext
  | some l =>
      obtain ⟨t, pos, rest⟩ := l
      cases t with
      | number x => exact .number hnext (hbehind false hnext)
      | string s => exact .string hnext (hbehind false hnext)
      | word w =>
          refine .word hnext ?_ (hbehind false hnext)
          by_cases hword : w ∈ Token.keywords
          · exact .inl hword
          · exact .inr ⟨isNameText_of_next? hnext, hword⟩
      | symbol s =>
          by_cases hs : s = "."
          · subst hs
            cases hname : rest.next? with
            | none => exact .dot hnext (by simp [hname])
            | some l' =>
                obtain ⟨t', pos', rest'⟩ := l'
                cases t' with
                | word w =>
                    refine .property hnext hname (isNameText_of_next? hname) ?_
                    have hlt : rest.size < c.size := Cursor.next?_size hnext
                    have hlt' : rest'.size < rest.size := Cursor.next?_size hname
                    exact ih rest'.size (by omega) false rest' rfl
                | _ => exact .dot hnext (by simp [hname])
          · exact .symbol hnext hs (hbehind _ hnext)

theorem spelled_of_parse {text : String} {p : Program} (h : parse text = .ok p) :
    Stmt.ProperList spelled p :=
  proper_of_parse h (orderly_spelled true _)

/-! ## Normal form -/

open NormalForm

/-- How the names of normal programs come from those of others. -/
structure Vocabulary.Normal (V V' : Vocabulary) : Prop where
  no_inserted : ∀ s, ¬ V.inserted s
  own : ∀ {n}, V.own n → isReserved n = false → V'.own n
  own_of_self : ∀ {n}, V.self n → isReserved n = false → V'.own n
  self : ∀ {n}, V.self n → V'.self n
  label : ∀ {n}, V.label n → V'.label n
  property : ∀ {n}, V.property n → V'.property n
  result : ∀ i : Nat, V'.own ("$t" ++ toString i)
  function : ∀ i : Nat, V'.own ("$f" ++ toString i)

section

variable {V V' : Vocabulary}

theorem properList_append {ss ts : List Stmt} :
    Stmt.ProperList V (ss ++ ts) ↔ Stmt.ProperList V ss ∧ Stmt.ProperList V ts := by
  simp only [Stmt.properList_iff, List.forall_mem_append]

theorem properList_singleton {s : Stmt} (h : s.Ordinary V) : Stmt.ProperList V [s] :=
  ⟨.inr h, trivial⟩

/-- The declarations in front of a statement, and what remains of an expression in it. -/
def LiftProper (V : Vocabulary) (r : Lifted) : Prop :=
  Stmt.ProperList V r.1 ∧ r.2.Proper V

namespace Vocabulary.Normal

section

variable (hV : V.Normal V')

include hV

theorem checkedNames (pos : Position) {ns : List String} (h : ∀ n ∈ ns, V.own n) :
    Yields (ns.forM (checkName pos)) fun _ => ∀ n ∈ ns, V'.own n :=
  fun ν a ν' hrun n hn => hV.own (h n hn) (Yields.checkNames pos ns ν a ν' hrun n hn)

theorem freshResult : Yields freshResult V'.own := by
  intro ν n ν' hrun
  cases hrun
  exact hV.result _

theorem functionName (pos : Position) {name : Option String} (h : ∀ n ∈ name, V.self n) :
    Yields (functionName pos name) V'.own := by
  cases name with
  | some name =>
      exact (Yields.checkName pos name).bind fun _ hname => .pure (hV.own_of_self (h _ rfl) hname)
  | none =>
      intro ν n ν' hrun
      cases hrun
      exact hV.function _

theorem placeCall (place : Place) (pos : Position) {front : List Stmt} {callee : Expr}
    {args : List Expr} (hfront : Stmt.ProperList V' front)
    (hcall : (Expr.call pos callee args).Proper V') :
    Yields (placeCall place pos front (.call pos callee args)) (LiftProper V') := by
  cases place with
  | bound => exact .pure ⟨hfront, hcall⟩
  | free =>
      refine hV.freshResult.bind fun name hname => .pure ⟨?_, hname⟩
      exact properList_append.mpr
        ⟨hfront, properList_singleton ⟨List.forall_mem_singleton.mpr hname, hcall, trivial⟩⟩
  | guarded => exact .refuse

end

mutual

theorem lift (hV : V.Normal V') (place : Place) :
    (e : Expr) → e.Proper V → Yields (lift place e) (LiftProper V')
  | .call pos callee args, ⟨hcallee, hargs⟩ => by
      have hparts : Yields (do
          let (front, callee) ← NormalForm.lift .free callee
          let (more, args) ← NormalForm.liftList .free args
          NormalForm.placeCall place pos (front ++ more) (.call pos callee args))
          (LiftProper V') := by
        refine (lift hV .free callee hcallee).bind fun (front, callee) ⟨hfront, hcallee⟩ => ?_
        refine (liftList hV .free args hargs).bind fun (more, args) ⟨hmore, hargs⟩ => ?_
        exact hV.placeCall place pos (properList_append.mpr ⟨hfront, hmore⟩) ⟨hcallee, hargs⟩
      cases place with
      | guarded => exact .refuse
      | bound | free => exact hparts
  | .function pos name params body, ⟨hname, hparams, hbody⟩ => by
      have hfunction : Yields (do
          params.forM (checkName pos)
          let body ← NormalForm.stmts body
          return ([], .function pos name params body)) (LiftProper V') := by
        refine (hV.checkedNames pos hparams).bind fun _ hparams => ?_
        refine (stmts hV body hbody).bind fun body hbody => .pure ⟨trivial, ?_, hparams, hbody⟩
        exact fun n hn => hV.self (hname n hn)
      have hdeclared : Yields (do
          let name ← NormalForm.functionName pos name
          params.forM (checkName pos)
          let body ← NormalForm.stmts body
          return ([.function pos name params body], .name pos name)) (LiftProper V') := by
        refine (hV.functionName pos hname).bind fun name hname => ?_
        refine (hV.checkedNames pos hparams).bind fun _ hparams => ?_
        refine (stmts hV body hbody).bind fun body hbody => .pure ⟨?_, hname⟩
        exact properList_singleton ⟨V'.self_of_own hname, hparams, hbody⟩
      cases place with
      | bound => exact hfunction
      | free | guarded => exact hdeclared
  | .name pos n, hn =>
      (Yields.checkName pos n).bind fun _ hplain => .pure ⟨trivial, hV.own hn hplain⟩
  | .binary pos op left right, ⟨hleft, hright⟩ => by
      refine (lift hV place.inner left hleft).bind fun (front, left) ⟨hfront, hleft⟩ => ?_
      refine (lift hV (place.right op) right hright).bind fun (more, right) ⟨hmore, hright⟩ => ?_
      exact .pure ⟨properList_append.mpr ⟨hfront, hmore⟩, hleft, hright⟩
  | .unary pos op operand, hoperand =>
      (lift hV place.inner operand hoperand).bind fun _ ⟨hfront, hoperand⟩ => .pure ⟨hfront, hoperand⟩
  | .member pos object property, ⟨hobject, hproperty⟩ =>
      (lift hV place.inner object hobject).bind fun _ ⟨hfront, hobject⟩ =>
        .pure ⟨hfront, hobject, hV.property hproperty⟩
  | .index pos object index, ⟨hobject, hindex⟩ => by
      refine (lift hV place.inner object hobject).bind fun (front, object) ⟨hfront, hobject⟩ => ?_
      refine (lift hV place.inner index hindex).bind fun (more, index) ⟨hmore, hindex⟩ => ?_
      exact .pure ⟨properList_append.mpr ⟨hfront, hmore⟩, hobject, hindex⟩
  | .array pos items, hitems =>
      (liftList hV place.inner items hitems).bind fun _ ⟨hfront, hitems⟩ => .pure ⟨hfront, hitems⟩
  | .object pos entries, hentries =>
      (liftEntries hV place.inner entries hentries).bind fun _ ⟨hfront, hentries⟩ =>
        .pure ⟨hfront, hentries⟩
  | .assign .., _ => .refuse
  | .update .., _ => .refuse
  | .number .., _ | .string .., _ | .boolean .., _ | .null _, _ => .pure ⟨trivial, trivial⟩

theorem liftList (hV : V.Normal V') (place : Place) : (es : List Expr) → Expr.ProperList V es →
    Yields (liftList place es) fun r => Stmt.ProperList V' r.1 ∧ Expr.ProperList V' r.2
  | [], _ => .pure ⟨trivial, trivial⟩
  | e :: es, ⟨he, hes⟩ => by
      refine (lift hV place e he).bind fun (front, e) ⟨hfront, he⟩ => ?_
      refine (liftList hV place es hes).bind fun (more, es) ⟨hmore, hes⟩ => ?_
      exact .pure ⟨properList_append.mpr ⟨hfront, hmore⟩, he, hes⟩

theorem liftEntries (hV : V.Normal V') (place : Place) : (es : List (String × Expr)) → Expr.ProperEntries V es →
    Yields (liftEntries place es) fun r => Stmt.ProperList V' r.1 ∧ Expr.ProperEntries V' r.2
  | [], _ => .pure ⟨trivial, trivial⟩
  | (key, e) :: es, ⟨he, hes⟩ => by
      refine (lift hV place e he).bind fun (front, e) ⟨hfront, he⟩ => ?_
      refine (liftEntries hV place es hes).bind fun (more, es) ⟨hmore, hes⟩ => ?_
      exact .pure ⟨properList_append.mpr ⟨hfront, hmore⟩, he, hes⟩

theorem stmt (hV : V.Normal V') : (s : Stmt) → s.Ordinary V → Yields (stmt s) (Stmt.ProperList V')
  | .declare pos kind ds, hds => declarators hV pos kind ds hds
  | .function pos name params body, ⟨hname, hparams, hbody⟩ => by
      refine (Yields.checkName pos name).bind fun _ _ => ?_
      refine (hV.checkedNames pos hparams).bind fun _ hparams => ?_
      refine (stmts hV body hbody).bind fun body hbody => .pure (properList_singleton ?_)
      exact ⟨hV.self hname, hparams, hbody⟩
  | .ifElse pos test consequent none, ⟨htest, hyes⟩ => by
      refine (lift hV .free test htest).bind fun (front, test) ⟨hfront, htest⟩ => ?_
      refine (stmts hV consequent hyes).bind fun yes hyes => .pure ?_
      exact properList_append.mpr ⟨hfront, properList_singleton ⟨htest, hyes⟩⟩
  | .ifElse pos test consequent (some alternate), ⟨htest, hyes, hno⟩ => by
      refine (lift hV .free test htest).bind fun (front, test) ⟨hfront, htest⟩ => ?_
      refine (stmts hV consequent hyes).bind fun yes hyes => ?_
      refine (stmts hV alternate hno).bind fun no hno => .pure ?_
      exact properList_append.mpr ⟨hfront, properList_singleton ⟨htest, hyes, hno⟩⟩
  | .whileDo pos test body, ⟨htest, hbody⟩ => by
      refine (lift hV (.guarded .callInLoopTest) test htest).bind fun (front, test) ⟨hfront, htest⟩ => ?_
      refine (stmts hV body hbody).bind fun body hbody => .pure ?_
      exact properList_append.mpr ⟨hfront, properList_singleton ⟨htest, hbody⟩⟩
  | .labeled pos label body, ⟨hlabel, hbody⟩ =>
      (stmts hV body hbody).bind fun _ hbody =>
        .pure (properList_singleton ⟨hV.label hlabel, hbody⟩)
  | .breakTo .., hlabel => .pure (properList_singleton fun n hn => hV.label (hlabel n hn))
  | .returnWith _ none, _ => .pure (properList_singleton trivial)
  | .returnWith pos (some value), hvalue => by
      refine (lift hV .free value hvalue).bind fun (front, value) ⟨hfront, hvalue⟩ => .pure ?_
      exact properList_append.mpr ⟨hfront, properList_singleton hvalue⟩
  | .block pos body, hbody =>
      (stmts hV body hbody).bind fun _ hbody => .pure (properList_singleton hbody)
  | .expr _ (.call pos callee args), ⟨hcallee, hargs⟩ => by
      refine (lift hV .free callee hcallee).bind fun (front, callee) ⟨hfront, hcallee⟩ => ?_
      refine (liftList hV .free args hargs).bind fun (more, args) ⟨hmore, hargs⟩ => ?_
      refine hV.freshResult.bind fun name hname => .pure ?_
      exact properList_append.mpr ⟨properList_append.mpr ⟨hfront, hmore⟩, properList_singleton
        ⟨List.forall_mem_singleton.mpr hname, ⟨hcallee, hargs⟩, trivial⟩⟩
  | .expr _ (.assign pos op target value), ⟨htarget, hvalue⟩ => by
      refine (lift hV (.guarded .callInAssignTarget) target htarget).bind
        fun (front, target) ⟨hfront, htarget⟩ => ?_
      have hassign : Yields (do
          let (more, value) ← NormalForm.lift .free value
          return front ++ more ++ [.expr pos (.assign pos .assign target
            (spellOut pos op target value))]) (Stmt.ProperList V') := by
        refine (lift hV .free value hvalue).bind fun (more, value) ⟨hmore, hvalue⟩ => .pure ?_
        refine properList_append.mpr ⟨properList_append.mpr ⟨hfront, hmore⟩, ?_⟩
        refine properList_singleton ⟨htarget, ?_⟩
        unfold spellOut
        split
        · exact ⟨htarget, hvalue⟩
        · exact hvalue
      dsimp only
      split
      · exact (Yields.trivial _).bind fun _ _ => hassign
      · exact hassign
  | .expr _ (.update pos op isPrefix target), htarget => by
      refine (lift hV (.guarded .callInUpdateTarget) target htarget).bind
        fun (front, target) ⟨hfront, htarget⟩ => .pure ?_
      exact properList_append.mpr ⟨hfront, properList_singleton htarget⟩
  | .expr _ (.name ..), he | .expr _ (.number ..), he | .expr _ (.string ..), he
  | .expr _ (.boolean ..), he | .expr _ (.null _), he | .expr _ (.array ..), he
  | .expr _ (.object ..), he | .expr _ (.function ..), he | .expr _ (.member ..), he
  | .expr _ (.index ..), he | .expr _ (.unary ..), he | .expr _ (.binary ..), he =>
      (lift hV .free _ he).bind fun _ ⟨hfront, he⟩ =>
        .pure (properList_append.mpr ⟨hfront, properList_singleton he⟩)

theorem declarators (hV : V.Normal V') (pos : Position) (kind : DeclKind) :
    (ds : List (Pattern × Option Expr)) → Stmt.ProperDeclarators V ds →
      Yields (declarators pos kind ds) (Stmt.ProperList V')
  | [], _ => .pure trivial
  | (target, none) :: ds, ⟨htarget, hds⟩ => by
      refine (hV.checkedNames pos htarget).bind fun _ htarget => ?_
      refine (declarators hV pos kind ds hds).bind fun rest hrest => .pure ⟨.inr ?_, hrest⟩
      exact ⟨htarget, trivial⟩
  | (target, some e) :: ds, ⟨htarget, he, hds⟩ => by
      refine (hV.checkedNames pos htarget).bind fun _ htarget => ?_
      refine (lift hV .bound e he).bind fun (front, e) ⟨hfront, he⟩ => ?_
      refine (declarators hV pos kind ds hds).bind fun rest hrest => .pure ?_
      exact properList_append.mpr ⟨hfront, .inr ⟨htarget, he, trivial⟩, hrest⟩

theorem stmts (hV : V.Normal V') : (ss : List Stmt) → Stmt.ProperList V ss →
    Yields (stmts ss) (Stmt.ProperList V')
  | [], _ => .pure trivial
  | s :: ss, ⟨hs, hss⟩ =>
      (stmt hV s (hs.resolve_left (hV.no_inserted s))).bind fun _ hs =>
        (stmts hV ss hss).bind fun _ hss => .pure (properList_append.mpr ⟨hs, hss⟩)

end

/-- The normal form of a program has proper names if the program has. -/
theorem normalize (hV : V.Normal V') {source p : Program} (hsource : Stmt.ProperList V source)
    (h : normalize source = .ok p) : Stmt.ProperList V' p := by
  obtain ⟨ν, hrun⟩ := run'_eq_ok_iff.mp h
  exact hV.stmts source hsource _ _ _ hrun

end Vocabulary.Normal

end

/-! ## Spelled names -/

/-- A number behind a name with a dollar sign makes another name. -/
theorem isName_numbered {front : String} (hname : isNameText front = true)
    (hdollar : front.toList.head? = some '$') (i : Nat) : IsName (front ++ toString i) := by
  obtain ⟨rest, hfront⟩ := List.head?_eq_some_iff.mp hdollar
  have hlist : (front ++ toString i).toList = '$' :: (rest ++ (toString i).toList) := by
    rw [String.toList_append, hfront, List.cons_append]
  constructor
  · rw [isNameText, hfront] at hname
    rw [isNameText, hlist]
    obtain ⟨hstart, hrest⟩ := Bool.and_eq_true_iff.mp hname
    refine Bool.and_eq_true_iff.mpr ⟨hstart, ?_⟩
    rw [List.all_append, hrest, Bool.true_and, List.all_eq_true]
    intro c hc
    rw [isDigit_of_mem_toString hc, Bool.or_true]
  · intro hkeyword
    have hnone : ∀ w ∈ Token.keywords, w.toList.head? ≠ some '$' := by decide
    exact hnone _ hkeyword (by rw [hlist]; rfl)

/-- Normal form keeps names readable. -/
theorem normal_spelled : spelled.Normal spelled where
  no_inserted _ := id
  own h _ := h
  own_of_self h _ := h
  self := id
  label := id
  property := id
  result := isName_numbered (by decide) rfl
  function := isName_numbered (by decide) rfl

end TraceLoom.Script
