import TraceLoom.Proofs.Script.Literals
import TraceLoom.Proofs.Script.Orderly
import TraceLoom.Proofs.Script.Sentences
import TraceLoom.Script.Printer

/-!
Texts that are orderly, and how phrases are put together from them.
-/

namespace TraceLoom.Script

open TraceLoom.Text TraceLoom.Numeric
open TraceLoom.Script.Parser (endsWord_of_head)

/-- A text is orderly, wherever it stands. -/
def Leads (V : Vocabulary) (fresh : Bool) (text : List Char) : Prop :=
  ∀ pos, Orderly V fresh ⟨text, pos⟩

namespace Leads

variable {V : Vocabulary} {fresh : Bool} {text rest behind : List Char} {w s : String}

theorem relax (h : Leads V false text) : Leads V fresh text := by
  cases fresh with
  | false => exact h
  | true => exact fun pos => (h pos).relax

theorem blank {c : Char} (hc : Cursor.isBlank c = true) (h : Leads V fresh text) :
    Leads V fresh (c :: text) := by
  intro pos
  have hskip := Cursor.skip_cons_blank hc text pos
  have hnext : Cursor.next? ⟨c :: text, pos⟩ = Cursor.next? ⟨text, pos.after c⟩ :=
    Parser.next?_congr hskip
  cases h (pos.after c) with
  | stop next => exact .stop (hnext.trans next)
  | number next behind => exact .number (hnext.trans next) behind
  | string next behind => exact .string (hnext.trans next) behind
  | symbol next ne behind => exact .symbol (hnext.trans next) ne behind
  | word next own behind => exact .word (hnext.trans next) own behind
  | dot next no_word => exact .dot (hnext.trans next) no_word
  | property next name ok behind => exact .property (hnext.trans next) name ok behind
  | key next colon ok behind => exact .key (hnext.trans next) colon ok behind
  | breakTo next name no_keyword ok behind =>
      exact .breakTo (hnext.trans next) name no_keyword ok behind
  | function next name no_keyword ok behind =>
      exact .function (hnext.trans next) name no_keyword ok behind
  | inserted next no_else no_colon read shorter behind =>
      have hsize : Cursor.size ⟨c :: text, pos⟩ = Cursor.size ⟨text, pos.after c⟩ + 1 := rfl
      refine .inserted (hnext.trans next) no_else no_colon (fun fuel hfuel => ?_) (by omega) behind
      rw [Parser.statement_congr hskip]
      exact read fuel (by omega)

/-- A statement that is read as a whole. -/
theorem whole {word : List Char} (hlex : Lexes text (.word w) word) (helse : w ≠ "else")
    (hcolon : ∀ pos, Cursor.symbol? ":" ⟨word, pos⟩ = none) {statement : List Char}
    (htext : text = statement ++ rest) (hne : statement ≠ [])
    (hread : Parser.ReadsStatement V.inserted statement) (hrest : Leads V true rest) :
    Leads V true text := fun pos => by
  obtain ⟨wpos, bpos, hnext⟩ := hlex pos
  refine .inserted hnext helse (fun cpos after hmark => ?_) (fun fuel hfuel => ?_) ?_ hrest
  · have hsome := Cursor.symbol?_eq_some_iff.mpr ⟨cpos, hmark⟩
    rw [hcolon] at hsome
    cases hsome
  · subst htext
    obtain ⟨s, rpos, hs, hinserted⟩ := hread rest pos fuel hfuel
    exact ⟨s, rpos, hs, hinserted⟩
  · subst htext
    have hpos := List.length_pos_iff.mpr hne
    change rest.length < (statement ++ rest).length
    rw [List.length_append]
    omega

theorem number {x : Float} (h : Lexes text (.number x) rest) (hrest : Leads V false rest) :
    Leads V fresh text := fun pos => by
  obtain ⟨tpos, rpos, hnext⟩ := h pos
  exact .number hnext (hrest rpos)

theorem string (h : Lexes text (.string s) rest) (hrest : Leads V false rest) :
    Leads V fresh text := fun pos => by
  obtain ⟨tpos, rpos, hnext⟩ := h pos
  exact .string hnext (hrest rpos)

theorem symbol (h : Lexes text (.symbol s) rest) (hs : s ≠ ".")
    (hrest : Leads V (opensStatement s) rest) : Leads V fresh text := fun pos => by
  obtain ⟨tpos, rpos, hnext⟩ := h pos
  exact .symbol hnext hs (hrest rpos)

theorem word (h : Lexes text (.word w) rest) (hw : w ∈ Token.keywords ∨ V.own w)
    (hrest : Leads V false rest) : Leads V fresh text := fun pos => by
  obtain ⟨tpos, rpos, hnext⟩ := h pos
  exact .word hnext hw (hrest rpos)

theorem property (h : Lexes text (.symbol ".") rest) (hname : Lexes rest (.word w) behind)
    (hw : V.property w) (hbehind : Leads V false behind) : Leads V fresh text := fun pos => by
  obtain ⟨tpos, rpos, hnext⟩ := h pos
  obtain ⟨npos, bpos, hname⟩ := hname rpos
  exact .property hnext hname hw (hbehind bpos)

theorem key (h : Lexes text (.word w) rest) (hcolon : Lexes rest (.symbol ":") behind)
    (hw : V.label w) (hbehind : Leads V false behind) : Leads V fresh text := fun pos => by
  obtain ⟨tpos, rpos, hnext⟩ := h pos
  obtain ⟨cpos, bpos, hcolon⟩ := hcolon rpos
  exact .key hnext hcolon hw (hbehind bpos)

theorem breakTo (h : Lexes text (.word "break") rest) (hname : Lexes rest (.word w) behind)
    (hkeyword : w ∉ Token.keywords) (hw : V.label w) (hbehind : Leads V false behind) :
    Leads V fresh text := fun pos => by
  obtain ⟨tpos, rpos, hnext⟩ := h pos
  obtain ⟨npos, bpos, hname⟩ := hname rpos
  exact .breakTo hnext hname hkeyword hw (hbehind bpos)

theorem function (h : Lexes text (.word "function") rest) (hname : Lexes rest (.word w) behind)
    (hkeyword : w ∉ Token.keywords) (hw : V.self w) (hbehind : Leads V false behind) :
    Leads V fresh text := fun pos => by
  obtain ⟨tpos, rpos, hnext⟩ := h pos
  obtain ⟨npos, bpos, hname⟩ := hname rpos
  exact .function hnext hname hkeyword hw (hbehind bpos)

/-- A mark that is no part of a longer one, other than a point. -/
theorem mark {c : Char} (hc : c ∈ ['(', ')', '[', ']', '\x7b', '\x7d', ',', ';', ':', '?'])
    (hrest : Leads V (opensStatement (String.singleton c)) rest) : Leads V fresh (c :: rest) := by
  simp only [List.mem_cons, List.not_mem_nil, or_false] at hc
  rcases hc with rfl | rfl | rfl | rfl | rfl | rfl | rfl | rfl | rfl | rfl <;>
    exact symbol (.single _ (by decide)) (by decide) hrest

end Leads

/-! ## Phrases -/

/-- A text at whose start no expression goes on.  If it is not loose, not even an operator
follows without a blank. -/
structure Calm (loose : Bool) (text : List Char) : Prop where
  number : EndsNumber text
  no_operator : loose = false → ∀ c ∈ text.head?, c ∉ ['=', '+', '-', '!']

/-- A text that may stand in front of a calm one. -/
def Flows (V : Vocabulary) (loose : Bool) (text : List Char) : Prop :=
  ∀ rest, Calm loose rest → Leads V false rest → Leads V false (text ++ rest)

/-- The text of an expression. -/
structure Phrase (V : Vocabulary) (loose : Bool) (text : List Char) : Prop where
  flows : Flows V loose text
  front : text.head? ≠ some '='

theorem calm_mark {loose : Bool} {c : Char} {text : List Char}
    (hc : c ∈ [' ', '\n', '(', ')', '[', ']', '\x7d', ',', ';', ':']) : Calm loose (c :: text) := by
  simp only [List.mem_cons, List.not_mem_nil, or_false] at hc
  refine ⟨⟨fun d hd => ?_, fun more heq => ?_⟩, fun _ d hd => ?_⟩
  · cases hd
    rcases hc with rfl | rfl | rfl | rfl | rfl | rfl | rfl | rfl | rfl | rfl <;> decide
  · cases heq
    exact absurd hc (by decide)
  · cases hd
    rcases hc with rfl | rfl | rfl | rfl | rfl | rfl | rfl | rfl | rfl | rfl <;> decide

theorem Calm.loosen {loose : Bool} {text : List Char} (h : Calm false text) : Calm loose text :=
  ⟨h.number, fun _ => h.no_operator rfl⟩

theorem Phrase.tighten {V : Vocabulary} {loose : Bool} {text : List Char}
    (h : Phrase V loose text) : Phrase V false text :=
  ⟨fun rest hrest => h.flows rest hrest.loosen, h.front⟩

section

variable {V : Vocabulary} {loose : Bool}

theorem phrase_word {w : String} (hw : isNameText w = true)
    (hown : w ∈ Token.keywords ∨ V.own w) : Phrase V loose w.toList := by
  refine ⟨fun rest hrest hbehind => .word (.word hw hrest.number.1) hown hbehind, fun hfront => ?_⟩
  obtain ⟨c, cs, hlist, hstart⟩ := head?_of_isNameText hw
  rw [hlist] at hfront
  cases hfront
  exact absurd hstart (by decide)

theorem phrase_literal {text : List Char} (h : IsLiteral text)
    (hspecial : V.own "NaN" ∧ V.own "Infinity") :
    Phrase V loose text ∧ text ≠ [] ∧ ∀ c ∈ text.head?, c ≠ '-' := by
  cases h with
  | name h =>
      rcases h with rfl | rfl
      · exact ⟨phrase_word (by decide) (.inr hspecial.1), by decide, by simp⟩
      · exact ⟨phrase_word (by decide) (.inr hspecial.2), by decide, by simp⟩
  | numeral h =>
      obtain ⟨c, cs, rfl, hc⟩ := h.exists_cons
      refine ⟨⟨fun rest hrest hbehind => ?_, fun hfront => ?_⟩, List.cons_ne_nil _ _,
        fun d hd heq => ?_⟩
      · exact .number (.number h hrest.number) hbehind
      · cases hfront
        exact absurd hc (by decide)
      · cases hd
        subst heq
        exact absurd hc (by decide)

theorem phrase_sign {op : UnaryOp} (hword : op ≠ .typeof ∧ op ≠ .void) {text : List Char}
    (h : Phrase V loose text) (hhead : ∀ c ∈ text.head?, op = .not ∨ op.symbol.toList ≠ [c])
    (hne : loose = true → text ≠ []) : Phrase V loose (op.symbol.toList ++ text) := by
  refine ⟨fun rest hrest hbehind => ?_, ?_⟩
  · rw [List.append_assoc]
    refine .symbol (.sign hword fun c hc => ?_) (by cases op <;> decide) ?_
    · cases text with
      | nil =>
          have hmem := hrest.no_operator (Bool.eq_false_iff.mpr fun hloose => hne hloose rfl) c hc
          refine ⟨?_, .inr fun heq => hmem ?_⟩
          · rintro rfl
            exact hmem (by decide)
          · cases op
            case typeof => exact absurd rfl hword.1
            case void => exact absurd rfl hword.2
            all_goals
              cases heq
              decide
      | cons d text =>
          cases hc
          exact ⟨fun heq => h.front (congrArg some heq), hhead _ rfl⟩
    · have hopens : opensStatement op.symbol = false := by cases op <;> decide
      exact hopens ▸ h.flows rest hrest hbehind
  · cases op
    case typeof => exact absurd rfl hword.1
    case void => exact absurd rfl hword.2
    all_goals exact fun hfront => by cases hfront

theorem phrase_number (x : Float) (hspecial : V.own "NaN" ∧ V.own "Infinity") :
    Phrase V loose (Notation.literal x).toList := by
  have hsigned := isSigned_literal x
  generalize (Notation.literal x).toList = written at hsigned ⊢
  cases hsigned with
  | plain h => exact (phrase_literal h hspecial).1
  | @minus text h =>
      obtain ⟨hphrase, hne, hhead⟩ :
          Phrase V loose text ∧ text ≠ [] ∧ ∀ c ∈ text.head?, c ≠ '-' := phrase_literal h hspecial
      have hneg : ∀ c ∈ text.head?, UnaryOp.neg = .not ∨ UnaryOp.neg.symbol.toList ≠ [c] :=
        fun c hc => .inr fun heq => hhead c hc (List.singleton_inj.mp heq).symm
      exact phrase_sign (by decide) hphrase hneg fun _ => hne

/-- A phrase between two marks. -/
theorem phrase_between {c d : Char} {text : List Char} (hc : c ∈ ['(', '['])
    (hd : d ∈ [')', ']']) (h : Flows V false text) : Phrase V loose (c :: (text ++ [d])) := by
  refine ⟨fun rest hrest hbehind => ?_, fun hfront => ?_⟩
  · have hclose : Leads V false (d :: rest) := by
      simp only [List.mem_cons, List.not_mem_nil, or_false] at hd
      rcases hd with rfl | rfl <;> exact .mark (by decide) hbehind
    have hcalm : Calm false (d :: rest) := by
      simp only [List.mem_cons, List.not_mem_nil, or_false] at hd
      rcases hd with rfl | rfl <;> exact calm_mark (by decide)
    have hinner := h _ hcalm hclose
    rw [List.cons_append, List.append_assoc]
    simp only [List.mem_cons, List.not_mem_nil, or_false] at hc
    rcases hc with rfl | rfl <;> exact .mark (by decide) hinner
  · cases hfront
    simp at hc

/-- An expression in a place that binds at least as tightly as some level. -/
theorem phrase_enclose {e : Expr} {n : Nat} {text : String}
    (h : Phrase V (decide (Printer.memberLevel ≤ Printer.level e)) text.toList) :
    Phrase V (decide (Printer.memberLevel ≤ n)) (Printer.enclose e n text).toList := by
  unfold Printer.enclose
  split
  · simp only [String.toList_append, String.reduceToList]
    exact phrase_between (by decide) (by decide) h.tighten.flows
  · rename_i hlevel
    by_cases hmember : Printer.memberLevel ≤ n
    · have hlevel : Printer.memberLevel ≤ Printer.level e := by omega
      simpa [hmember, hlevel] using h
    · simpa [hmember] using h.tighten

/-- Phrases in a row, with commas between them. -/
theorem flows_intercalate {texts : List String} (h : ∀ t ∈ texts, Flows V false t.toList) :
    Flows V false (", ".intercalate texts).toList := by
  induction texts with
  | nil => exact fun rest _ hbehind => hbehind
  | cons t texts ih =>
      cases texts with
      | nil =>
          have heq : ", ".intercalate [t] = t := String.intercalate_singleton
          rw [heq]
          exact h t List.mem_cons_self
      | cons t' texts =>
          obtain ⟨ht, hrest⟩ := List.forall_mem_cons.mp h
          intro rest hcalm hbehind
          have hmore := ih hrest rest hcalm hbehind
          rw [String.intercalate_cons_cons]
          simp only [String.toList_append, String.reduceToList, List.append_assoc, List.cons_append,
            List.nil_append]
          exact ht _ (calm_mark (by decide)) (.mark (by decide) (.blank (by decide) hmore))

/-- A phrase, behind which a text goes on that may stand there. -/
theorem Phrase.append {loose' : Bool} {text more : List Char} (h : Phrase V loose text)
    (hmore : ∀ rest, Calm loose' rest → Leads V false rest →
      Calm loose (more ++ rest) ∧ Leads V false (more ++ rest))
    (hfront : more.head? ≠ some '=') : Phrase V loose' (text ++ more) := by
  refine ⟨fun rest hrest hbehind => ?_, ?_⟩
  · obtain ⟨hcalm, hleads⟩ := hmore rest hrest hbehind
    rw [List.append_assoc]
    exact h.flows _ hcalm hleads
  · cases text with
    | nil => exact hfront
    | cons c text => exact h.front

/-- A list between marks. -/
theorem leads_enclosed {fresh : Bool} {c d : Char} {text rest : List Char} (hc : c ∈ ['(', '['])
    (hd : d ∈ [')', ']']) (h : Flows V false text) (hrest : Leads V false rest) :
    Leads V fresh (c :: (text ++ d :: rest)) := by
  have hclose : Leads V false (d :: rest) ∧ Calm false (d :: rest) := by
    simp only [List.mem_cons, List.not_mem_nil, or_false] at hd
    rcases hd with rfl | rfl <;> exact ⟨.mark (by decide) hrest, calm_mark (by decide)⟩
  have hinner := h _ hclose.2 hclose.1
  simp only [List.mem_cons, List.not_mem_nil, or_false] at hc
  rcases hc with rfl | rfl <;> exact .mark (by decide) hinner

theorem leads_indent {fresh : Bool} {rest : List Char} (depth : Nat) (h : Leads V fresh rest) :
    Leads V fresh ((Printer.indent depth).toList ++ rest) := by
  rw [Printer.indent, String.toList_ofList]
  generalize 2 * depth = n
  induction n with
  | zero => exact h
  | succ n ih => exact ih.blank (by decide)

/-- A block, from what its statements lead to. -/
theorem leads_braces {fresh : Bool} {depth : Nat} {texts : List String} {rest : List Char}
    (h : ∀ rest, Leads V true rest →
      Leads V true ((String.join (texts.map (· ++ "\n"))).toList ++ rest))
    (hrest : Leads V true rest) : Leads V fresh ((Printer.braces depth texts).toList ++ rest) := by
  have hclose {fresh : Bool} : Leads V fresh ('\x7d' :: rest) := .mark (by decide) hrest
  unfold Printer.braces
  split
  · exact .mark (c := '\x7b') (by decide) hclose
  · simp only [String.toList_append, String.reduceToList, List.append_assoc, List.cons_append,
      List.nil_append]
    exact .mark (by decide) (.blank (by decide) (h _ (leads_indent depth hclose)))

theorem leads_functionHead {fresh : Bool} {name : Option String} {params : List String}
    {body : List Char} (hname : ∀ n ∈ name, IsName n ∧ V.self n)
    (hparams : ∀ n ∈ params, IsName n ∧ V.own n) (hbody : Leads V false body) :
    Leads V fresh ((Printer.functionHead name params).toList ++ body) := by
  have hrest : Leads V false ('(' :: ((", ".intercalate params).toList ++ ')' :: ' ' :: body)) :=
    leads_enclosed (by decide) (by decide) (flows_intercalate fun n hn =>
      (phrase_word (hparams n hn).1.1 (.inr (hparams n hn).2)).flows) (hbody.blank (by decide))
  unfold Printer.functionHead
  cases name with
  | none =>
      simp only [String.toList_append, String.reduceToList, List.append_assoc, List.cons_append,
        List.nil_append]
      exact .word (.word (w := "function") (by decide) (endsWord_of_head (by decide)))
        (.inl (by decide)) hrest
  | some n =>
      obtain ⟨hn, hself⟩ := hname n rfl
      simp only [String.toList_append, String.reduceToList, List.append_assoc, List.cons_append,
        List.nil_append]
      exact .function (.word (w := "function") (by decide) (endsWord_of_head (by decide)))
        ((Lexes.word hn.1 (endsWord_of_head (by decide))).blank (by decide)) hn.2 hself hrest

theorem phrase_keyword {w : String} (hw : w ∈ Token.keywords) (hname : isNameText w = true) :
    Phrase V loose w.toList :=
  phrase_word hname (.inl hw)

theorem phrase_string (s : String) : Phrase V loose (Quoted.quote s).toList := by
  refine ⟨fun rest _ hbehind => .string (.string s _) hbehind, fun hfront => ?_⟩
  rw [Quoted.quote, String.toList_ofList] at hfront
  cases hfront

theorem phrase_pattern {target : Pattern} (h : ∀ n ∈ target.names, IsName n ∧ V.own n) :
    Phrase V false (Printer.pattern target).toList := by
  cases target with
  | name n =>
      obtain ⟨hn, hown⟩ := h n (List.mem_singleton_self n)
      exact phrase_word hn.1 (.inr hown)
  | array ns =>
      have hwords (n : String) (hn : n ∈ ns) : Phrase V false n.toList :=
        phrase_word (h n hn).1.1 (.inr (h n hn).2)
      have hflows := flows_intercalate fun n hn => (hwords n hn).flows
      simp only [Printer.pattern, String.toList_append, String.reduceToList, List.cons_append,
        List.nil_append]
      exact phrase_between (by decide) (by decide) hflows

/-- Two phrases with an operator between them. -/
theorem phrase_infix {s : String} {left right : List Char}
    (hlex : ∀ rest, Lexes (s.toList ++ ' ' :: rest) (.symbol s) (' ' :: rest))
    (hsymbol : s ≠ "." ∧ opensStatement s = false)
    (hleft : Phrase V loose left) (hright : Phrase V false right) :
    Phrase V false (left ++ ' ' :: (s.toList ++ ' ' :: right)) := by
  refine hleft.append (fun rest hcalm hrest => ?_) (by simp)
  refine ⟨calm_mark (by decide), .blank (by decide) ?_⟩
  change Leads V false ((s.toList ++ ' ' :: right) ++ rest)
  rw [List.append_assoc]
  exact .symbol (hlex _) hsymbol.1
    (hsymbol.2 ▸ .blank (by decide) (hright.flows rest hcalm hrest))

theorem loose_binary {pos : Position} {op : BinaryOp} {left right : Expr} :
    decide (Printer.memberLevel ≤ Printer.level (.binary pos op left right)) = false := by
  cases op <;> rfl

theorem calm_update (op : UpdateOp) (rest : List Char) : Calm true (op.symbol.toList ++ rest) := by
  refine ⟨⟨fun c hc => ?_, fun more heq => ?_⟩, fun h => absurd h (by decide)⟩
  · cases op <;> (cases hc; decide)
  · cases op <;> cases heq

theorem calm_point {w : String} (hw : isNameText w = true) {rest : List Char} :
    Calm true ('.' :: (w.toList ++ rest)) :=
  ⟨endsNumber_point hw, fun h => absurd h (by decide)⟩

/-- A sign in front of a phrase, in parentheses if it would become part of a longer mark. -/
theorem phrase_neg_plus {op : UnaryOp} (hop : op = .neg ∨ op = .plus) {text : String}
    (h : Phrase V false text.toList) : Phrase V false (Printer.sign op.symbol text).toList := by
  have hword : op ≠ .typeof ∧ op ≠ .void := by rcases hop with rfl | rfl <;> decide
  unfold Printer.sign
  split
  · have hinner : Phrase V false (op.symbol.toList ++ '(' :: (text.toList ++ [')'])) := by
      refine phrase_sign hword (phrase_between (by decide) (by decide) h.flows) (fun c hc => ?_)
        fun hloose => absurd hloose (by decide)
      cases hc
      rcases hop with rfl | rfl <;> decide
    simpa using hinner
  · rename_i hprefix
    rw [String.toList_append]
    refine phrase_sign hword h (fun c hc => .inr fun heq => ?_) fun hloose => absurd hloose (by decide)
    obtain ⟨cs, hlist⟩ := List.head?_eq_some_iff.mp hc
    rw [hlist, heq] at hprefix
    simp at hprefix

/-- A statement up to its semicolon. -/
theorem leads_phrase {fresh : Bool} {text rest : List Char} (h : Flows V false text)
    (hrest : Leads V true rest) : Leads V fresh (text ++ ';' :: rest) :=
  (h _ (calm_mark (by decide)) (.mark (c := ';') (by decide) hrest)).relax

/-- A keyword in front of a blank. -/
theorem leads_keyword {fresh : Bool} {w : String} {rest : List Char} (hw : w ∈ Token.keywords)
    (hname : isNameText w = true) (hrest : Leads V false rest) :
    Leads V fresh (w.toList ++ ' ' :: rest) :=
  .word (.word hname (endsWord_of_head (by decide))) (.inl hw) (.blank (by decide) hrest)

/-- A test and the block that depends on it. -/
theorem leads_test {fresh : Bool} {w : String} {test rest : List Char} (hw : w ∈ Token.keywords)
    (hname : isNameText w = true) (htest : Flows V false test) (hrest : Leads V false rest) :
    Leads V fresh (w.toList ++ ' ' :: '(' :: (test ++ ')' :: ' ' :: rest)) :=
  leads_keyword hw hname
    (leads_enclosed (by decide) (by decide) htest (.blank (by decide) hrest))

end

end TraceLoom.Script
