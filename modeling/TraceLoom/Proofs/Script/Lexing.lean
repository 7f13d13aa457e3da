import TraceLoom.Script.Token
import TraceLoom.Proofs.Numeric.Finite

/-!
How a text falls into tokens.
-/

namespace TraceLoom.Script

open TraceLoom.Numeric TraceLoom.Text

namespace Token

/-- The digits behind the point of a number, if there are any, and the rest. -/
def fraction (text : List Char) : List Char × List Char :=
  match text with
  | '.' :: more =>
    if (more.takeWhile Char.isDigit).isEmpty then ([], text)
    else (more.takeWhile Char.isDigit, more.dropWhile Char.isDigit)
  | _ => ([], text)

/-- A number that has no exponent. -/
theorem numeral_of_no_exponent {text whole more rest : List Char}
    (hwhole : text.takeWhile Char.isDigit = whole)
    (hmore : fraction (text.dropWhile Char.isDigit) = (more, rest))
    (hrest : exponent? rest = none) :
    (numeral text).1 = (Decimal.ofParts whole more 0).toFloat ∧ (numeral text).2.2 = rest := by
  unfold numeral
  rw [hwhole]
  unfold fraction at hmore
  generalize text.dropWhile Char.isDigit = behind at hmore
  split at hmore
  · simp only [hmore, hrest, and_self]
  · obtain ⟨rfl, rfl⟩ := Prod.mk.inj hmore
    simp [hrest]

theorem symbols_ne_empty : ∀ s ∈ symbols, 0 < s.length := by
  decide

end Token

namespace Cursor

/-! ## Marks, keywords and names -/

theorem symbol?_eq_some_iff {s : String} {c rest : Cursor} :
    c.symbol? s = some rest ↔ ∃ pos, c.next? = some ⟨.symbol s, pos, rest⟩ := by
  unfold symbol?
  constructor
  · intro h
    split at h
    · rename_i t pos rest' hnext
      split at h
      · rename_i heq
        cases h
        exact ⟨pos, heq ▸ hnext⟩
      · cases h
    · cases h
  · rintro ⟨pos, hnext⟩
    rw [hnext]
    simp

theorem keyword?_eq_some_iff {w : String} {c rest : Cursor} :
    c.keyword? w = some rest ↔ ∃ pos, c.next? = some ⟨.word w, pos, rest⟩ := by
  unfold keyword?
  constructor
  · intro h
    split at h
    · rename_i t pos rest' hnext
      split at h
      · rename_i heq
        cases h
        exact ⟨pos, heq ▸ hnext⟩
      · cases h
    · cases h
  · rintro ⟨pos, hnext⟩
    rw [hnext]
    simp

theorem name?_eq_some_iff {w : String} {c rest : Cursor} :
    c.name? = some (w, rest) ↔
      w ∉ Token.keywords ∧ ∃ pos, c.next? = some ⟨.word w, pos, rest⟩ := by
  unfold name?
  constructor
  · intro h
    split at h
    · rename_i t pos rest' hnext
      split at h
      · cases h
      · rename_i hword
        cases h
        exact ⟨hword, pos, hnext⟩
    · cases h
  · rintro ⟨hword, pos, hnext⟩
    rw [hnext]
    simp [hword]

end Cursor

/-! ## Texts that start with a given token -/

/-- A text starts with a token, behind which some text is left. -/
def Lexes (text : List Char) (t : Token) (rest : List Char) : Prop :=
  ∀ pos, ∃ tpos rpos, Cursor.next? ⟨text, pos⟩ = some ⟨t, tpos, ⟨rest, rpos⟩⟩

/-- No word goes on at the start of a text. -/
def EndsWord (text : List Char) : Prop :=
  ∀ c ∈ text.head?, Token.isWordChar c = false

/-- No number goes on at the start of a text. -/
def EndsNumber (text : List Char) : Prop :=
  EndsWord text ∧ ∀ more, text = '.' :: more → ∀ c ∈ more.head?, c.isDigit = false

/-- Digits, possibly with a point among them. -/
inductive IsNumeral : List Char → Prop
  | whole {digits : List Char} (ne : digits ≠ []) (all : ∀ c ∈ digits, c.isDigit = true) :
      IsNumeral digits
  | point {digits more : List Char} (ne : digits ≠ []) (all : ∀ c ∈ digits, c.isDigit = true)
      (ne' : more ≠ []) (all' : ∀ c ∈ more, c.isDigit = true) :
      IsNumeral (digits ++ '.' :: more)

theorem IsNumeral.exists_cons {digits : List Char} (h : IsNumeral digits) :
    ∃ c cs, digits = c :: cs ∧ c.isDigit = true := by
  cases h with
  | whole ne all | point ne all =>
      obtain ⟨c, cs, rfl⟩ := List.exists_cons_of_ne_nil ne
      exact ⟨c, _, rfl, all c List.mem_cons_self⟩

theorem Token.isWordChar_of_starts {c : Char} (h : isNameText.starts c = true) :
    isWordChar c = true := by
  rw [isWordChar, h, Bool.true_or]

theorem Token.isWordChar_of_isDigit {c : Char} (h : c.isDigit = true) : isWordChar c = true := by
  rw [isWordChar, h, Bool.or_true]

theorem Cursor.skipFrom_blanks {c : Char} (h : c ≠ '/') (text : List Char) (pos : Position) :
    skipFrom .blanks (c :: text) pos =
      if isBlank c then skipFrom .blanks text (pos.after c) else ⟨c :: text, pos⟩ := by
  rw [skipFrom]
  · rintro rest heq
    exact absurd heq h
  · rintro rest heq
    exact absurd heq h

theorem Cursor.skip_cons_blank {c : Char} (hc : isBlank c = true) (text : List Char)
    (pos : Position) : Cursor.skip ⟨c :: text, pos⟩ = Cursor.skip ⟨text, pos.after c⟩ := by
  have hslash : c ≠ '/' := by
    rintro rfl
    exact absurd hc (by decide)
  rw [Cursor.skip, skipFrom_blanks hslash, if_pos hc]
  rfl

theorem starts_facts {c : Char} (h : isNameText.starts c = true) :
    Cursor.isBlank c = false ∧ c ≠ '/' := by
  constructor
  · refine Bool.eq_false_iff.mpr fun hblank => ?_
    simp only [Cursor.isBlank, Bool.or_eq_true, beq_iff_eq] at hblank
    rcases hblank with ((rfl | rfl) | rfl) | rfl <;> exact absurd h (by decide)
  · rintro rfl
    exact absurd h (by decide)

theorem isDigit_facts {c : Char} (h : c.isDigit = true) :
    Cursor.isBlank c = false ∧ c ≠ '/' ∧ Token.isWordStart c = false := by
  have hrange : 48 ≤ c.val.toNat ∧ c.val.toNat ≤ 57 := by
    simpa [Char.isDigit, UInt32.le_iff_toNat_le] using h
  have hval : c.val.toNat = c.toNat := rfl
  have hdigits : ∀ n < 10, Cursor.isBlank (Char.ofNat (48 + n)) = false ∧
      Char.ofNat (48 + n) ≠ '/' ∧ Token.isWordStart (Char.ofNat (48 + n)) = false := by
    decide
  have hc : Char.ofNat (48 + (c.toNat - 48)) = c := by
    rw [show 48 + (c.toNat - 48) = c.toNat by omega, Char.ofNat_toNat]
  exact hc ▸ hdigits (c.toNat - 48) (by omega)

theorem head?_of_isNameText {w : String} (h : isNameText w = true) :
    ∃ c cs, w.toList = c :: cs ∧ isNameText.starts c = true := by
  cases hlist : w.toList with
  | nil => simp [isNameText, hlist] at h
  | cons c cs =>
      rw [isNameText, hlist] at h
      exact ⟨c, cs, rfl, (Bool.and_eq_true_iff.mp h).1⟩

theorem endsNumber_point {w : String} (hw : isNameText w = true) {rest : List Char} :
    EndsNumber ('.' :: (w.toList ++ rest)) := by
  refine ⟨fun c hc => ?_, fun more heq c hc => ?_⟩
  · cases hc
    decide
  · obtain ⟨c', cs, hlist, hstart⟩ := head?_of_isNameText hw
    cases heq
    rw [hlist] at hc
    cases hc
    refine Bool.eq_false_iff.mpr fun hdigit => ?_
    have hno : isNameText.starts c = false := (isDigit_facts hdigit).2.2
    rw [hno] at hstart
    cases hstart

namespace Lexes

variable {text rest : List Char} {t : Token}

theorem blank {c : Char} (hc : Cursor.isBlank c = true) (h : Lexes text t rest) :
    Lexes (c :: text) t rest := by
  intro pos
  have hnext := h (pos.after c)
  unfold Cursor.next? at hnext ⊢
  rwa [Cursor.skip_cons_blank hc]

theorem space (h : Lexes text t rest) : Lexes (' ' :: text) t rest :=
  h.blank (by decide)

theorem of_scan {c : Char} (hblank : Cursor.isBlank c = false) (hslash : c ≠ '/')
    (h : ∀ pos, ∃ rpos, Token.scan? ⟨c :: text, pos⟩ = some (t, ⟨rest, rpos⟩)) :
    Lexes (c :: text) t rest := by
  intro pos
  obtain ⟨rpos, hscan⟩ := h pos
  refine ⟨pos, rpos, ?_⟩
  have hskip : Cursor.skip ⟨c :: text, pos⟩ = ⟨c :: text, pos⟩ := by
    rw [Cursor.skip, Cursor.skipFrom_blanks hslash, hblank]
    rfl
  rw [Cursor.next?, hskip, hscan]
  rfl

theorem word {w : String} (hw : isNameText w = true) (hrest : EndsWord rest) :
    Lexes (w.toList ++ rest) (.word w) rest := by
  cases hlist : w.toList with
  | nil => simp [isNameText, hlist] at hw
  | cons c cs =>
      rw [isNameText, hlist] at hw
      obtain ⟨hc, hcs⟩ := Bool.and_eq_true_iff.mp hw
      have hall : ∀ d ∈ c :: cs, Token.isWordChar d = true :=
        List.forall_mem_cons.mpr ⟨Token.isWordChar_of_starts hc, List.all_eq_true.mp hcs⟩
      obtain ⟨hblank, hslash⟩ := starts_facts hc
      have hnone : rest.takeWhile Token.isWordChar = [] ∧ rest.dropWhile Token.isWordChar = rest := by
        cases rest with
        | nil => exact ⟨rfl, rfl⟩
        | cons d rest =>
            have hd : ¬ Token.isWordChar d = true := by simp [hrest d rfl]
            exact ⟨List.takeWhile_cons_of_neg hd, List.dropWhile_cons_of_neg hd⟩
      rw [List.cons_append]
      refine of_scan hblank hslash fun pos =>
        ⟨pos.afterAll ((c :: (cs ++ rest)).takeWhile Token.isWordChar), ?_⟩
      have htake : (c :: (cs ++ rest)).takeWhile Token.isWordChar = c :: cs := by
        rw [← List.cons_append, List.takeWhile_append_of_pos hall, hnone.1, List.append_nil]
      have hdrop : (c :: (cs ++ rest)).dropWhile Token.isWordChar = rest := by
        rw [← List.cons_append, List.dropWhile_append_of_pos hall, hnone.2]
      rw [Token.scan?]
      simp only [Token.isWordStart, hc, if_true, htake, hdrop, ← hlist, String.ofList_toList,
        Cursor.past]

/-- What the first character of a mark is not. -/
def IsMark (c : Char) : Prop :=
  Token.isWordStart c = false ∧ c.isDigit = false ∧ c ≠ '"' ∧ c ≠ '\''

instance (c : Char) : Decidable (IsMark c) :=
  inferInstanceAs (Decidable (_ ∧ _))

theorem symbol {s : String} {c : Char} {l : List Char} (hs : s.toList = c :: l)
    (hblank : Cursor.isBlank c = false) (hslash : c ≠ '/') (hmark : IsMark c)
    (hfind : (Token.symbols.find? fun s => s.toList.isPrefixOf (c :: (l ++ rest))) = some s) :
    Lexes (c :: (l ++ rest)) (.symbol s) rest := by
  obtain ⟨hstart, hdigit, hquote, hquote'⟩ := hmark
  refine of_scan hblank hslash fun pos => ⟨pos.afterAll s.toList, ?_⟩
  have hdrop : (c :: (l ++ rest)).drop s.length = rest := by
    rw [← List.cons_append, ← hs, ← String.length_toList, List.drop_left]
  rw [Token.scan?]
  simp only [hstart, hdigit, hquote, hquote', Bool.false_eq_true, if_false, or_self, hfind,
    Option.map_some, hdrop, Cursor.past]

/-- A slash that does not open a comment. -/
theorem slash {s : String} {c d : Char} {cs : List Char} (hs : s.toList = c :: cs) (hc : c = '/')
    (hrest : cs ++ rest = d :: text) (hd : d ≠ '/') (hd' : d ≠ '*')
    (hfind : (Token.symbols.find? fun s => s.toList.isPrefixOf (c :: (cs ++ rest))) = some s) :
    Lexes (c :: (cs ++ rest)) (.symbol s) rest := by
  intro pos
  refine ⟨pos, pos.afterAll s.toList, ?_⟩
  have hskip : Cursor.skip ⟨c :: (cs ++ rest), pos⟩ = ⟨c :: (cs ++ rest), pos⟩ := by
    rw [hrest, hc, Cursor.skip, Cursor.skipFrom]
    · rfl
    · rintro more - heq
      cases heq
      exact hd rfl
    · rintro more - heq
      cases heq
      exact hd' rfl
  have hdrop : (c :: (cs ++ rest)).drop s.length = rest := by
    rw [← List.cons_append, ← hs, ← String.length_toList, List.drop_left]
  have hstart : Token.isWordStart c = false := hc ▸ by decide
  have hdigit : c.isDigit = false := hc ▸ by decide
  have hquote : c ≠ '"' := hc ▸ by decide
  have hquote' : c ≠ '\'' := hc ▸ by decide
  rw [Cursor.next?, hskip, Token.scan?]
  simp only [hstart, hdigit, hquote, hquote', Bool.false_eq_true, if_false, or_self, hfind,
    Option.map_some, hdrop, Cursor.past]

/-- Marks that are no part of a longer one. -/
theorem single {c : Char} (rest : List Char)
    (hc : c ∈ ['(', ')', '[', ']', '\x7b', '\x7d', ',', ';', ':', '.', '?']) :
    Lexes (c :: rest) (.symbol (String.singleton c)) rest := by
  simp only [List.mem_cons, List.not_mem_nil, or_false] at hc
  rcases hc with rfl | rfl | rfl | rfl | rfl | rfl | rfl | rfl | rfl | rfl | rfl <;>
    exact symbol (l := []) rfl (by decide) (by decide) (by decide) rfl

theorem operator (op : BinaryOp) (rest : List Char) :
    Lexes (op.symbol.toList ++ ' ' :: rest) (.symbol op.symbol) (' ' :: rest) := by
  cases op
  case div => exact slash rfl rfl rfl (by decide) (by decide) rfl
  all_goals exact symbol rfl (by decide) (by decide) (by decide) rfl

theorem assignment (op : AssignOp) (rest : List Char) :
    Lexes (op.symbol.toList ++ ' ' :: rest) (.symbol op.symbol) (' ' :: rest) := by
  cases op
  case divAssign => exact slash rfl rfl rfl (by decide) (by decide) rfl
  all_goals exact symbol rfl (by decide) (by decide) (by decide) rfl

theorem update (op : UpdateOp) (rest : List Char) :
    Lexes (op.symbol.toList ++ rest) (.symbol op.symbol) rest := by
  cases op <;> exact symbol rfl (by decide) (by decide) (by decide) rfl

theorem find?_symbols {s : String} {c : Char} (hmem : s ∈ Token.symbols) (hs : s.toList = [c])
    (hrest : ∀ t ∈ Token.symbols, ∀ d more, t.toList = c :: d :: more → rest.head? ≠ some d) :
    (Token.symbols.find? fun s => s.toList.isPrefixOf (c :: rest)) = some s := by
  have hsome : (Token.symbols.find? fun s => s.toList.isPrefixOf (c :: rest)).isSome = true :=
    List.find?_isSome.mpr ⟨s, hmem, by simp [hs]⟩
  obtain ⟨t, ht⟩ := Option.isSome_iff_exists.mp hsome
  have hprefix : t.toList <+: c :: rest := by simpa using List.find?_some ht
  have ht' := List.mem_of_find?_eq_some ht
  rw [ht]
  match htext : t.toList with
  | [] =>
      have hpos := Token.symbols_ne_empty t ht'
      rw [← String.length_toList, htext] at hpos
      exact absurd hpos (Nat.lt_irrefl _)
  | [d] =>
      obtain rfl : d = c := by simpa [htext] using hprefix
      exact congrArg some (String.toList_inj.mp (htext.trans hs.symm))
  | d :: d' :: more =>
      rw [htext] at hprefix
      obtain ⟨rfl, behind, hprefix⟩ := List.cons_prefix_cons.mp hprefix
      refine absurd ?_ (hrest t ht' d' more htext)
      rw [← hprefix]
      rfl

/-- A sign that does not become part of a longer mark. -/
theorem sign {op : UnaryOp} (hword : op ≠ .typeof ∧ op ≠ .void)
    (hrest : ∀ c ∈ rest.head?, c ≠ '=' ∧ (op = .not ∨ op.symbol.toList ≠ [c])) :
    Lexes (op.symbol.toList ++ rest) (.symbol op.symbol) rest := by
  have hsecond : ∀ t ∈ Token.symbols, t.toList.take 1 = op.symbol.toList →
      t.toList[1]? ∈ [none, some '='] ∨ op ≠ .not ∧ t.toList[1]? = op.symbol.toList.head? := by
    cases op <;> decide
  have hnot {c : Char} (hc : op.symbol.toList = [c]) : ∀ t ∈ Token.symbols, ∀ d more,
      t.toList = c :: d :: more → rest.head? ≠ some d := by
    intro t ht d more htext hd
    obtain ⟨hequals, hsame⟩ := hrest d hd
    have hmem := hsecond t ht (by simp [htext, hc])
    simp only [htext, hc, List.getElem?_cons_succ, List.getElem?_cons_zero, List.head?_cons,
      List.mem_cons, reduceCtorEq, Option.some.injEq, List.not_mem_nil, or_false, false_or] at hmem
    rcases hmem with rfl | ⟨hop, rfl⟩
    · exact hequals rfl
    · exact hsame.elim hop fun hne => hne hc
  cases op
  case typeof => exact absurd rfl hword.1
  case void => exact absurd rfl hword.2
  all_goals
    exact symbol (l := []) rfl (by decide) (by decide) (by decide)
      (find?_symbols (by decide) rfl (hnot rfl))

theorem takeWhile_isDigit (hrest : EndsWord rest) {digits : List Char}
    (hall : ∀ c ∈ digits, c.isDigit = true) :
    (digits ++ rest).takeWhile Char.isDigit = digits ∧
      (digits ++ rest).dropWhile Char.isDigit = rest := by
  rw [List.takeWhile_append_of_pos hall, List.dropWhile_append_of_pos hall]
  cases rest with
  | nil => simp
  | cons c rest =>
      have hc : ¬ c.isDigit = true := fun hdigit => by
        simpa [Token.isWordChar_of_isDigit hdigit] using hrest c rfl
      simp [hc]

theorem exponent?_eq_none (hrest : EndsWord rest) : Token.exponent? rest = none := by
  cases rest with
  | nil => rfl
  | cons c rest =>
      have hc := hrest c rfl
      have he : (c == 'e' || c == 'E') = false := by
        refine Bool.eq_false_iff.mpr fun he => ?_
        simp only [Bool.or_eq_true, beq_iff_eq] at he
        rcases he with rfl | rfl <;> exact absurd hc (by decide)
      simp [Token.exponent?, he]

theorem fraction_eq_nil (hrest : EndsNumber rest) : Token.fraction rest = ([], rest) := by
  unfold Token.fraction
  split
  · rename_i more
    have hnone : more.takeWhile Char.isDigit = [] := by
      cases more with
      | nil => rfl
      | cons c more => simp [hrest.2 _ rfl c rfl]
    simp [hnone]
  · rfl

/-- The digits of a number do not depend on what comes behind it. -/
theorem exists_parts {digits : List Char} (h : IsNumeral digits) :
    ∃ whole more, ∀ rest, EndsNumber rest →
      (digits ++ rest).takeWhile Char.isDigit = whole ∧
        Token.fraction ((digits ++ rest).dropWhile Char.isDigit) = (more, rest) := by
  cases h with
  | whole ne all =>
      refine ⟨digits, [], fun rest hrest => ?_⟩
      obtain ⟨htake, hdrop⟩ := takeWhile_isDigit hrest.1 all
      exact ⟨htake, by rw [hdrop, fraction_eq_nil hrest]⟩
  | @point digits more ne all ne' all' =>
      refine ⟨digits, more, fun rest hrest => ?_⟩
      have hdot : EndsWord ('.' :: (more ++ rest)) := fun c hc => by
        cases hc
        decide
      rw [List.append_assoc, List.cons_append]
      obtain ⟨htake, hdrop⟩ := takeWhile_isDigit hdot all
      obtain ⟨htake', hdrop'⟩ := takeWhile_isDigit hrest.1 all'
      refine ⟨htake, ?_⟩
      have hempty : more.isEmpty = false := by simpa using ne'
      simp only [hdrop, Token.fraction, htake', hdrop', hempty, Bool.false_eq_true, if_false]

theorem endsNumber_nil : EndsNumber [] :=
  ⟨fun _ h => (Option.not_mem_none _ h).elim, fun _ h => (List.cons_ne_nil _ _ h.symm).elim⟩

/-- A number is read up to its end, and its value is that of its digits. -/
theorem numeral_append {digits : List Char} (h : IsNumeral digits) (hrest : EndsNumber rest) :
    (Token.numeral (digits ++ rest)).1 = (Token.numeral digits).1 ∧
      (Token.numeral (digits ++ rest)).2.2 = rest := by
  obtain ⟨whole, more, hparts⟩ := exists_parts h
  obtain ⟨hwhole, hmore⟩ := hparts rest hrest
  obtain ⟨hwhole', hmore'⟩ := hparts [] endsNumber_nil
  rw [List.append_nil] at hwhole' hmore'
  obtain ⟨hvalue, hbehind⟩ :=
    Token.numeral_of_no_exponent hwhole hmore (exponent?_eq_none hrest.1)
  obtain ⟨hvalue', -⟩ := Token.numeral_of_no_exponent hwhole' hmore' rfl
  exact ⟨hvalue.trans hvalue'.symm, hbehind⟩

theorem number {digits : List Char} (h : IsNumeral digits) (hrest : EndsNumber rest) :
    Lexes (digits ++ rest) (.number (Token.numeral digits).1) rest := by
  obtain ⟨hvalue, hbehind⟩ := numeral_append h hrest
  obtain ⟨c, cs, rfl, hc⟩ := h.exists_cons
  rw [← hvalue]
  rw [List.cons_append] at hbehind ⊢
  obtain ⟨hblank, hslash, hstart⟩ := isDigit_facts hc
  refine of_scan hblank hslash fun pos => ⟨pos.afterAll (Token.numeral (c :: (cs ++ rest))).2.1, ?_⟩
  rw [Token.scan?]
  simp only [hstart, hc, Bool.false_eq_true, if_false, if_true, hbehind, Cursor.past]

/-- The inside of a written literal ends where it was ended. -/
theorem literal?_encode (text rest : List Char) :
    Token.literal? '"' (Quoted.encode text ++ '"' :: rest) = some (Quoted.encode text, rest) := by
  induction text with
  | nil => rfl
  | cons c text ih =>
      unfold Quoted.encode
      split
      all_goals try
        simp only [List.cons_append, Token.literal?, ih, Option.map_some]
      rename_i hquote hback hline _ _
      rw [Token.literal?]
      · rw [if_neg hquote, if_neg (not_or.mpr ⟨hline, hback⟩), ih]
        rfl
      · rintro d more rfl
        exact absurd rfl hback

theorem string (s : String) (rest : List Char) :
    Lexes ((Quoted.quote s).toList ++ rest) (.string s) rest := by
  have htext : (Quoted.quote s).toList ++ rest =
      '"' :: (Quoted.encode s.toList ++ '"' :: rest) := by
    simp [Quoted.quote]
  rw [htext]
  refine of_scan (by decide) (by decide) fun pos =>
    ⟨pos.afterAll ('"' :: Quoted.encode s.toList ++ ['"']), ?_⟩
  rw [Token.scan?]
  have hstart : Token.isWordStart '"' = false := by decide
  have hdigit : '"'.isDigit = false := by decide
  simp only [hstart, hdigit, Bool.false_eq_true, if_false, true_or, if_true, literal?_encode,
    Option.map_some, Quoted.decode_encode, String.ofList_toList, Cursor.past]

end Lexes

/-! ## Written numbers -/

theorem isNumeral_toDigits (n : Nat) : IsNumeral (Nat.toDigits 10 n) :=
  .whole (by simp [Nat.toDigits_ne_nil]) fun _ => Nat.isDigit_of_mem_toDigits (by decide) (by decide)

theorem isNumeral_positional (d : Decimal) : IsNumeral d.positional.toList := by
  have hdigits : ∀ c ∈ d.digits, c.isDigit = true := fun _ =>
    Nat.isDigit_of_mem_toDigits (by decide) (by decide)
  have hne : d.digits ≠ [] := by simp [Decimal.digits]
  have hzeros (n : Nat) : ∀ c ∈ List.replicate n '0', c.isDigit = true := fun c hc => by
    rw [(List.mem_replicate.mp hc).2]
    decide
  unfold Decimal.positional
  dsimp only
  split
  · rw [String.toList_ofList]
    exact .whole (by simp [hne]) (List.forall_mem_append.mpr ⟨hdigits, hzeros _⟩)
  · rename_i hneg
    split
    · rename_i hplaces
      rw [String.toList_ofList]
      refine .point ?_ (fun c hc => hdigits c (List.mem_of_mem_take hc)) ?_
        fun c hc => hdigits c (List.mem_of_mem_drop hc)
      · refine fun hnil => ?_
        have hlength := congrArg List.length hnil
        rw [List.length_take, List.length_nil] at hlength
        omega
      · refine fun hnil => ?_
        have hlength := congrArg List.length hnil
        rw [List.length_drop, List.length_nil] at hlength
        omega
    · rw [String.toList_ofList]
      have hzero : ∀ c ∈ ['0'], c.isDigit = true := hzeros 1
      exact .point (List.cons_ne_nil _ _) hzero (List.append_ne_nil_of_right_ne_nil _ hne)
        (List.forall_mem_append.mpr ⟨hzeros _, hdigits⟩)

theorem isNumeral_toString {n : Int} (h : 0 ≤ n) : IsNumeral (toString n).toList := by
  obtain ⟨k, rfl⟩ := Int.eq_ofNat_of_zero_le h
  have htext : (toString (Int.ofNat k)).toList = Nat.toDigits 10 k := by
    change (Nat.repr k).toList = _
    simp [Nat.repr]
  exact htext ▸ isNumeral_toDigits k

/-- Neither infinite nor not a number, and without a minus sign. -/
structure IsPlainNumber (x : Float) : Prop where
  notNaN : x.isNaN = false
  notInf : x.isInf = false
  notNegative : Binary64.isNegative x = false

theorem IsPlainNumber.special? {x : Float} (h : IsPlainNumber x) : Notation.special? x = none := by
  rw [Notation.special?, h.notNaN, h.notInf]
  rfl

theorem IsPlainNumber.plain {x : Float} (h : IsPlainNumber x) :
    IsNumeral (Notation.plain x).toList := by
  cases hmagnitude : Binary64.magnitude? x with
  | none =>
      have hspecial := Binary64.isNaN_or_isInf hmagnitude
      rw [h.notNaN, h.notInf] at hspecial
      exact absurd hspecial (by decide)
  | some m =>
      have htext : Notation.plain x = (Decimal.shortest .away m).positional := by
        rw [Notation.plain, hmagnitude]
        exact if_neg (h.notNegative ▸ Bool.false_ne_true)
      exact htext ▸ isNumeral_positional _

theorem whole?_nonneg {x : Float} (h : Binary64.isNegative x = false) {n : Int}
    (hn : Binary64.whole? x = some n) : 0 ≤ n := by
  obtain ⟨m, -, hm⟩ := Option.bind_eq_some_iff.mp hn
  dsimp only at hm
  split at hm
  · rw [h] at hm
    cases hm
    exact Int.natCast_nonneg _
  · cases hm

theorem IsPlainNumber.literal {x : Float} (h : IsPlainNumber x) :
    IsNumeral (Notation.literal x).toList := by
  unfold Notation.literal
  rw [h.special?]
  split
  · rename_i hspecial
    cases hspecial
  · rename_i n _ hwhole
    split
    · exact isNumeral_toString (whole?_nonneg h.notNegative hwhole)
    · exact h.plain
  · exact h.plain

end TraceLoom.Script
