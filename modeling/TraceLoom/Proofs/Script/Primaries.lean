import TraceLoom.Proofs.Script.Phrases

/-!
Reading primary expressions, with calls and accesses behind them.
-/

namespace TraceLoom.Script.Parser

open Cursor

variable {Q R : Expr → Prop} {text : List Char}

/-! ### Primary expressions -/

/-- What is a primary expression. -/
theorem heads_of_primary (hne : text ≠ [])
    (hsign : ∀ rest pos, EndsNumber rest → prefixOp? ⟨text ++ rest, pos⟩ = none)
    (h : ∀ rest pos fuel, EndsNumber rest → 16 * (text ++ rest).length + 2 ≤ fuel →
      ∃ e rpos, primary fuel ⟨text ++ rest, pos⟩ = some (.ok e, ⟨rest, rpos⟩) ∧ Q e) :
    Heads Q text := by
  intro rest pos fuel hrest hfuel
  obtain ⟨fuel, rfl⟩ : ∃ n, fuel = n + 1 := ⟨fuel - 1, by omega⟩
  obtain ⟨e, rpos, hprimary, he⟩ := h rest pos fuel hrest (by omega)
  refine ⟨hsign rest pos hrest, e, rpos, (skip ⟨text ++ rest, pos⟩).pos, fuel, ?_, ?_, he⟩
  · rw [chain, hprimary, Option.map_some]
  · have hlength := List.length_pos_iff.mpr hne
    rw [List.length_append] at hfuel
    omega

theorem prefixOp?_word {w : String} {c rest : Cursor} {pos : Position}
    (h : c.next? = some ⟨.word w, pos, rest⟩) (hw : UnaryOp.ofSymbol? w = none) :
    prefixOp? c = none := by
  rw [prefixOp?, h]
  simp [hw]

theorem ofSymbol?_of_name {w : String} (hname : isNameText w = true) (hw : w ∉ Token.keywords) :
    UnaryOp.ofSymbol? w = none := by
  refine Option.eq_none_iff_forall_ne_some.mpr fun op hop => ?_
  have heq : op.symbol = w := by simpa using List.find?_some hop
  subst heq
  cases op
  case typeof | void => exact absurd (by decide) hw
  all_goals exact absurd hname (by decide)

theorem heads_name {w : String} (hname : isNameText w = true) (hw : w ∉ Token.keywords) :
    Heads (fun e => ∃ pos, e = .name pos w) w.toList := by
  have hnext (rest : List Char) (pos : Position) (hrest : EndsNumber rest) :
      ∃ wpos rpos, Cursor.next? ⟨w.toList ++ rest, pos⟩ = some ⟨.word w, wpos, ⟨rest, rpos⟩⟩ :=
    Lexes.word hname hrest.1 pos
  refine heads_of_primary ?_ (fun rest pos hrest => ?_) fun rest pos fuel hrest hfuel => ?_
  · intro hnil
    simp [isNameText, hnil] at hname
  · obtain ⟨wpos, rpos, hnext⟩ := hnext rest pos hrest
    exact prefixOp?_word hnext (ofSymbol?_of_name hname hw)
  · obtain ⟨wpos, rpos, hnext⟩ := hnext rest pos hrest
    obtain ⟨fuel, rfl⟩ : ∃ n, fuel = n + 1 := ⟨fuel - 1, by omega⟩
    refine ⟨_, rpos, ?_, wpos, rfl⟩
    rw [primary, hnext]
    split
    all_goals rename_i heq
    all_goals try cases heq
    all_goals try exact absurd (by decide) hw
    · simp [hw]
    · exact absurd rfl (heq w wpos _)

theorem heads_string (s : String) :
    Heads (fun e => ∃ pos, e = .string pos s) (Text.Quoted.quote s).toList := by
  refine heads_of_primary ?_ (fun rest pos hrest => ?_) fun rest pos fuel hrest hfuel => ?_
  · rw [Text.Quoted.quote, String.toList_ofList]
    exact List.cons_ne_nil _ _
  · obtain ⟨spos, rpos, hnext⟩ := Lexes.string s rest pos
    rw [prefixOp?, hnext]
  · obtain ⟨spos, rpos, hnext⟩ := Lexes.string s rest pos
    obtain ⟨fuel, rfl⟩ : ∃ n, fuel = n + 1 := ⟨fuel - 1, by omega⟩
    exact ⟨_, rpos, by rw [primary, hnext], spos, rfl⟩

theorem heads_number {digits : List Char} (h : IsNumeral digits) :
    Heads (fun e => ∃ pos, e = .number pos (Token.numeral digits).1) digits := by
  refine heads_of_primary ?_ (fun rest pos hrest => ?_) fun rest pos fuel hrest hfuel => ?_
  · obtain ⟨c, cs, rfl, -⟩ := h.exists_cons
    exact List.cons_ne_nil c cs
  · obtain ⟨npos, rpos, hnext⟩ := Lexes.number h hrest pos
    rw [prefixOp?, hnext]
  · obtain ⟨npos, rpos, hnext⟩ := Lexes.number h hrest pos
    obtain ⟨fuel, rfl⟩ : ∃ n, fuel = n + 1 := ⟨fuel - 1, by omega⟩
    exact ⟨_, rpos, by rw [primary, hnext], npos, rfl⟩

/-- A keyword that is an expression. -/
theorem heads_keyword {w : String} {make : Position → Expr} (hname : isNameText w = true)
    (hw : UnaryOp.ofSymbol? w = none)
    (hread : ∀ fuel c pos rest, c.next? = some ⟨.word w, pos, rest⟩ →
      primary (fuel + 1) c = some (.ok (make pos), rest)) :
    Heads (fun e => ∃ pos, e = make pos) w.toList := by
  refine heads_of_primary ?_ (fun rest pos hrest => ?_) fun rest pos fuel hrest hfuel => ?_
  · intro hnil
    simp [isNameText, hnil] at hname
  · obtain ⟨wpos, rpos, hnext⟩ := Lexes.word hname hrest.1 pos
    exact prefixOp?_word hnext hw
  · obtain ⟨wpos, rpos, hnext⟩ := Lexes.word hname hrest.1 pos
    obtain ⟨fuel, rfl⟩ : ∃ n, fuel = n + 1 := ⟨fuel - 1, by omega⟩
    exact ⟨_, rpos, hread fuel _ _ _ hnext, wpos, rfl⟩

theorem heads_boolean (b : Bool) :
    Heads (fun e => ∃ pos, e = .boolean pos b) (if b then "true" else "false").toList := by
  cases b
  all_goals
    refine heads_keyword (by decide) (by decide) fun fuel c pos rest hnext => ?_
    rw [primary, hnext]
    rfl

theorem heads_null : Heads (fun e => ∃ pos, e = .null pos) "null".toList := by
  refine heads_keyword (by decide) (by decide) fun fuel c pos rest hnext => ?_
  rw [primary, hnext]
  rfl

/-- What starts with an opening mark. -/
theorem heads_of_mark {c : Char} {s : String} {text : List Char} (hs : String.singleton c = s)
    (hc : c ∈ ['(', '[', '\x7b'])
    (h : ∀ rest pos fuel mpos tpos, 16 * (text ++ rest).length + 16 ≤ fuel →
      Cursor.next? ⟨c :: (text ++ rest), pos⟩ = some ⟨.symbol s, mpos, ⟨text ++ rest, tpos⟩⟩ →
      ∃ e rpos, primary (fuel + 1) ⟨c :: (text ++ rest), pos⟩ = some (.ok e, ⟨rest, rpos⟩) ∧ Q e) :
    Heads Q (c :: text) := by
  subst hs
  have hlex (rest : List Char) :
      Lexes (c :: (text ++ rest)) (.symbol (String.singleton c)) (text ++ rest) := by
    simp only [List.mem_cons, List.not_mem_nil, or_false] at hc
    rcases hc with rfl | rfl | rfl <;> exact .single _ (by decide)
  refine heads_of_primary (List.cons_ne_nil _ _) (fun rest pos hrest => ?_)
    fun rest pos fuel hrest hfuel => ?_
  · obtain ⟨mpos, rpos, hnext⟩ := hlex rest pos
    rw [prefixOp?, List.cons_append, hnext]
    simp only [List.mem_cons, List.not_mem_nil, or_false] at hc
    rcases hc with rfl | rfl | rfl <;> rfl
  · obtain ⟨mpos, tpos, hnext⟩ := hlex rest pos
    rw [List.cons_append, List.length_cons] at hfuel
    obtain ⟨fuel, rfl⟩ : ∃ n, fuel = n + 1 := ⟨fuel - 1, by omega⟩
    exact h rest pos fuel mpos tpos (by omega) hnext

theorem heads_paren (h : Reads Q text) : Heads Q ('(' :: (text ++ [')'])) := by
  refine heads_of_mark (s := "(") rfl (by decide) fun rest pos fuel mpos tpos hfuel hnext => ?_
  rw [List.append_assoc] at hfuel hnext ⊢
  obtain ⟨e, epos, hread, he⟩ := h ([')'] ++ rest) tpos fuel (ends_mark (by decide)) (by omega)
  obtain ⟨rpos, hclose⟩ := symbol?_mark (c := ')') (s := ")") rest rfl (by decide) epos
  refine ⟨e, rpos, ?_, he⟩
  rw [primary, hnext]
  simp only [hread]
  exact congrArg (Option.map _) hclose

/-! ### Lists -/

/-- A text in which a list is over. -/
structure Closes (text : List Char) : Prop where
  ends : Ends text
  no_comma : ∀ pos, Cursor.symbol? "," ⟨text, pos⟩ = none

theorem closes_mark {c : Char} {text : List Char} (hc : c ∈ [')', ']', '\x7d']) :
    Closes (c :: text) := by
  have hlex : Lexes (c :: text) (.symbol (String.singleton c)) text := by
    simp only [List.mem_cons, List.not_mem_nil, or_false] at hc
    rcases hc with rfl | rfl | rfl <;> exact .single _ (by decide)
  simp only [List.mem_cons, List.not_mem_nil, or_false] at hc
  refine ⟨ends_mark ?_, symbol?_eq_none hlex ?_⟩
  · rcases hc with rfl | rfl | rfl <;> decide
  · rcases hc with rfl | rfl | rfl <;> decide

theorem Closes.blank {text : List Char} (h : Closes text) : Closes (' ' :: text) := by
  refine ⟨h.ends.blank, fun pos => ?_⟩
  rw [symbol?_congr (skip_blank text pos)]
  exact h.no_comma _

/-- The rest of a list, a comma and a blank in front of each item. -/
def rows (texts : List String) : List Char :=
  texts.flatMap fun t => ',' :: ' ' :: t.toList

theorem toList_intercalate (t : String) (texts : List String) :
    (", ".intercalate (t :: texts)).toList = t.toList ++ rows texts := by
  induction texts generalizing t with
  | nil =>
      have heq : ", ".intercalate [t] = t := String.intercalate_singleton
      simp [heq, rows]
  | cons t' texts ih =>
      rw [String.intercalate_cons_cons, String.toList_append, String.toList_append, ih]
      simp [rows]

theorem ends_rows {texts : List String} {rest : List Char} (hrest : Ends rest) :
    Ends (rows texts ++ rest) := by
  cases texts with
  | nil => exact hrest
  | cons t texts => exact ends_mark (by decide)

/-- A text is read as an item of a list. -/
def ReadsItem {β : Type} (F : Nat → Cursor → Option (β × Cursor)) (P : β → Prop)
    (text : List Char) : Prop :=
  ∀ (rest : List Char) (pos : Position) (fuel : Nat), Ends rest →
    16 * (text ++ rest).length + 9 ≤ fuel →
      ∃ b rpos, F fuel ⟨text ++ rest, pos⟩ = some (b, ⟨rest, rpos⟩) ∧ P b

section

variable {α β : Type} {F : Nat → Cursor → Option (β × Cursor)}
  {M : Nat → Cursor → List β × Cursor} {P : α → β → Prop} {texts : α → String}

/-- Items of a list behind the first one. -/
theorem reads_rows (hstop : ∀ fuel c, c.symbol? "," = none → M fuel c = ([], c))
    (hstep : ∀ fuel c c' b c'', c.symbol? "," = some c' → F fuel c' = some (b, c'') →
      M (fuel + 1) c = (b :: (M fuel c'').1, (M fuel c'').2))
    (hcongr : ∀ fuel c d, c.skip = d.skip → F fuel c = F fuel d)
    {items : List α} (h : ∀ a ∈ items, ReadsItem F (P a) (texts a).toList)
    (rest : List Char) (pos : Position) (fuel : Nat) (hrest : Closes rest)
    (hfuel : 16 * (rows (items.map texts) ++ rest).length + 10 ≤ fuel) :
    ∃ bs rpos, M fuel ⟨rows (items.map texts) ++ rest, pos⟩ = (bs, ⟨rest, rpos⟩) ∧
      List.Forall₂ P items bs := by
  induction items generalizing pos fuel with
  | nil => exact ⟨[], pos, hstop _ _ (hrest.no_comma pos), .nil⟩
  | cons a items ih =>
      obtain ⟨ha, hitems⟩ := List.forall_mem_cons.mp h
      have htext : rows ((a :: items).map texts) ++ rest =
          ',' :: ' ' :: ((texts a).toList ++ (rows (items.map texts) ++ rest)) := by
        simp [rows]
      rw [htext] at hfuel ⊢
      simp only [List.length_cons] at hfuel
      obtain ⟨fuel, rfl⟩ : ∃ n, fuel = n + 1 := ⟨fuel - 1, by omega⟩
      obtain ⟨cpos, hcomma⟩ := symbol?_mark (c := ',') (s := ",")
        (' ' :: ((texts a).toList ++ (rows (items.map texts) ++ rest))) rfl (by decide) pos
      obtain ⟨b, bpos, hread, hb⟩ := ha (rows (items.map texts) ++ rest) (cpos.after ' ') fuel
        (ends_rows hrest.ends) (by omega)
      have hblank := hcongr fuel ⟨' ' :: ((texts a).toList ++ (rows (items.map texts) ++ rest)),
        cpos⟩ _ (skip_blank _ _)
      obtain ⟨bs, rpos, hmore, hbs⟩ := ih hitems bpos fuel (by
        rw [List.length_append] at hfuel
        omega)
      refine ⟨b :: bs, rpos, ?_, .cons hb hbs⟩
      rw [hstep fuel _ _ b _ hcomma (hblank.trans hread), hmore]

end

theorem all_map_ok {α : Type} (xs : List α) : all (xs.map .ok) = .ok xs := by
  induction xs with
  | nil => rfl
  | cons x xs ih =>
      have hcons : all ((x :: xs).map .ok) = (do
          let x ← (.ok x : Reading α)
          let xs ← all (xs.map .ok)
          return x :: xs) := by
        simp [all, List.mapM_cons]
      rw [hcons, ih]
      rfl

/-- Readings that go well are those of a list. -/
theorem exists_of_forall₂_ok {α β : Type} {P : α → β → Prop} {items : List α}
    {readings : List (Reading β)}
    (h : List.Forall₂ (fun a r => ∃ b, r = .ok b ∧ P a b) items readings) :
    ∃ bs, readings = bs.map .ok ∧ List.Forall₂ P items bs := by
  induction h with
  | nil => exact ⟨[], rfl, .nil⟩
  | cons hhead _ ih =>
      obtain ⟨b, rfl, hb⟩ := hhead
      obtain ⟨bs, rfl, hbs⟩ := ih
      exact ⟨b :: bs, rfl, .cons hb hbs⟩

theorem Reads.item (h : Reads Q text) :
    ReadsItem assignment (fun r => ∃ e, r = .ok e ∧ Q e) text := by
  intro rest pos fuel hrest hfuel
  obtain ⟨e, rpos, hread, he⟩ := h rest pos fuel hrest (by omega)
  exact ⟨_, rpos, hread, e, rfl, he⟩

section

variable {α : Type} {texts : α → String} {items : List α} {P : α → Expr → Prop}

theorem reads_moreExpressions (h : ∀ a ∈ items, Reads (P a) (texts a).toList) (rest : List Char)
    (pos : Position) (fuel : Nat) (hrest : Closes rest)
    (hfuel : 16 * (rows (items.map texts) ++ rest).length + 10 ≤ fuel) :
    ∃ readings rpos, moreExpressions fuel ⟨rows (items.map texts) ++ rest, pos⟩ =
      (readings, ⟨rest, rpos⟩) ∧
        List.Forall₂ (fun a r => ∃ e, r = .ok e ∧ P a e) items readings := by
  refine reads_rows (F := assignment) (fun fuel c hc => ?_)
    (fun fuel c c' r c'' hcomma hread => ?_) (fun _ _ _ hskip => assignment_congr hskip)
    (fun a ha => (h a ha).item) rest pos fuel hrest hfuel
  · cases fuel with
    | zero => rfl
    | succ fuel => rw [moreExpressions, hc, Option.bind_none]
  · rw [moreExpressions, hcomma, Option.bind_some, hread]

theorem reads_expressions (h : ∀ a ∈ items, Reads (P a) (texts a).toList) (rest : List Char)
    (pos : Position) (fuel : Nat) (hrest : Closes rest)
    (hfuel : 16 * ((", ".intercalate (items.map texts)).toList ++ rest).length + 11 ≤ fuel) :
    ∃ es rpos, expressions fuel ⟨(", ".intercalate (items.map texts)).toList ++ rest, pos⟩ =
      some (es.map .ok, ⟨rest, rpos⟩) ∧ List.Forall₂ P items es := by
  obtain ⟨fuel, rfl⟩ : ∃ n, fuel = n + 1 := ⟨fuel - 1, by omega⟩
  cases items with
  | nil =>
      refine ⟨[], pos, ?_, .nil⟩
      change expressions (fuel + 1) ⟨rest, pos⟩ = _
      rw [expressions, hrest.ends.assignment]
      rfl
  | cons a items =>
      obtain ⟨ha, hitems⟩ := List.forall_mem_cons.mp h
      rw [List.map_cons, toList_intercalate, List.append_assoc] at hfuel ⊢
      obtain ⟨e, epos, hread, he⟩ := ha (rows (items.map texts) ++ rest) pos fuel
        (ends_rows hrest.ends) (by omega)
      obtain ⟨readings, rpos, hmore, hreadings⟩ := reads_moreExpressions hitems rest epos fuel hrest
        (by rw [List.length_append] at hfuel; omega)
      obtain ⟨es, rfl, hes⟩ := exists_of_forall₂_ok hreadings
      refine ⟨e :: es, rpos, ?_, .cons he hes⟩
      rw [expressions, hread]
      simp only [hmore]
      rfl

theorem heads_array (h : ∀ a ∈ items, Reads (P a) (texts a).toList) :
    Heads (fun e => ∃ pos es, e = .array pos es ∧ List.Forall₂ P items es)
      ('[' :: ((", ".intercalate (items.map texts)).toList ++ [']'])) := by
  refine heads_of_mark (s := "[") rfl (by decide) fun rest pos fuel mpos tpos hfuel hnext => ?_
  simp only [List.append_assoc, List.cons_append, List.nil_append] at hfuel hnext ⊢
  obtain ⟨es, epos, hread, hes⟩ := reads_expressions h (']' :: rest) tpos fuel
    (closes_mark (by decide)) (by omega)
  obtain ⟨rpos, hclose⟩ := symbol?_mark (c := ']') (s := "]") rest rfl (by decide) epos
  have hcomma : Cursor.symbol? "," ⟨']' :: rest, epos⟩ = none :=
    (closes_mark (by decide)).no_comma epos
  refine ⟨.array mpos es, rpos, ?_, mpos, es, rfl, hes⟩
  rw [primary, hnext]
  simp only [hread, Cursor.optionalSymbol, Option.bind_eq_bind, Option.bind_some, hcomma,
    Option.getD_none, hclose, all_map_ok]
  rfl

end

/-! ### Objects -/

theorem objectKey?_key (name : String) {rest : List Char} (hrest : EndsWord rest)
    (pos : Position) :
    ∃ rpos, objectKey? ⟨(Printer.key name).toList ++ rest, pos⟩ = some (name, ⟨rest, rpos⟩) := by
  unfold Printer.key
  split
  · rename_i hname
    obtain ⟨wpos, rpos, hnext⟩ := Lexes.word hname hrest pos
    exact ⟨rpos, by rw [objectKey?, hnext]⟩
  · obtain ⟨spos, rpos, hnext⟩ := Lexes.string name rest pos
    exact ⟨rpos, by rw [objectKey?, hnext]⟩

/-- A text is read as an entry of an object. -/
theorem readsItem_property {name text : String} (h : Reads Q text.toList) :
    ReadsItem property (fun r => ∃ entry : String × Expr, r = .ok entry ∧ entry.1 = name ∧ Q entry.2)
      (Printer.key name ++ ": " ++ text).toList := by
  intro rest pos fuel hrest hfuel
  have htext : (Printer.key name ++ ": " ++ text).toList ++ rest =
      (Printer.key name).toList ++ ':' :: ' ' :: (text.toList ++ rest) := by
    simp
  rw [htext] at hfuel ⊢
  simp only [List.length_append, List.length_cons] at hfuel
  obtain ⟨fuel, rfl⟩ : ∃ n, fuel = n + 1 := ⟨fuel - 1, by omega⟩
  have hends : EndsWord (':' :: ' ' :: (text.toList ++ rest)) := endsWord_of_head (by decide)
  obtain ⟨kpos, hkey⟩ := objectKey?_key name hends pos
  obtain ⟨cpos, hcolon⟩ :=
    symbol?_mark (c := ':') (s := ":") (' ' :: (text.toList ++ rest)) rfl (by decide) kpos
  obtain ⟨e, rpos, hread, he⟩ := h rest (cpos.after ' ') fuel hrest (by
    rw [List.length_append]
    omega)
  have hvalue := (assignment_congr (skip_blank (text.toList ++ rest) cpos)).trans hread
  refine ⟨.ok (name, e), rpos, ?_, (name, e), rfl, rfl, he⟩
  rw [property]
  simp only [hkey, hcolon, hvalue, Option.bind_eq_bind, Option.bind_some]
  rfl

section

variable {α : Type} {texts : α → String} {items : List α} {P : α → String × Expr → Prop}

theorem reads_moreProperties
    (h : ∀ a ∈ items, ReadsItem property (fun r => ∃ entry, r = .ok entry ∧ P a entry)
      (texts a).toList) (rest : List Char) (pos : Position) (fuel : Nat) (hrest : Closes rest)
    (hfuel : 16 * (rows (items.map texts) ++ rest).length + 10 ≤ fuel) :
    ∃ readings rpos, moreProperties fuel ⟨rows (items.map texts) ++ rest, pos⟩ =
      (readings, ⟨rest, rpos⟩) ∧
        List.Forall₂ (fun a r => ∃ entry, r = .ok entry ∧ P a entry) items readings := by
  refine reads_rows (F := property) (fun fuel c hc => ?_)
    (fun fuel c c' r c'' hcomma hread => ?_) (fun _ _ _ hskip => property_congr hskip) h rest pos
    fuel hrest hfuel
  · cases fuel with
    | zero => rfl
    | succ fuel => rw [moreProperties, hc, Option.bind_none]
  · rw [moreProperties, hcomma, Option.bind_some, hread]

theorem heads_object
    (h : ∀ a ∈ items, ReadsItem property (fun r => ∃ entry, r = .ok entry ∧ P a entry)
      (texts a).toList) (hne : items ≠ []) :
    Heads (fun e => ∃ pos entries, e = .object pos entries ∧ List.Forall₂ P items entries)
      ('\x7b' :: ' ' :: ((", ".intercalate (items.map texts)).toList ++ [' ', '\x7d'])) := by
  refine heads_of_mark (s := "\x7b") rfl (by decide) fun rest pos fuel mpos tpos hfuel hnext => ?_
  obtain ⟨a, items, rfl⟩ := List.exists_cons_of_ne_nil hne
  obtain ⟨ha, hitems⟩ := List.forall_mem_cons.mp h
  have htext : ' ' :: ((", ".intercalate ((a :: items).map texts)).toList ++ [' ', '\x7d']) ++ rest =
      ' ' :: ((texts a).toList ++ (rows (items.map texts) ++ ' ' :: '\x7d' :: rest)) := by
    rw [List.map_cons, toList_intercalate]
    simp
  rw [htext] at hfuel hnext ⊢
  simp only [List.length_append, List.length_cons] at hfuel
  have hcloses : Closes (' ' :: '\x7d' :: rest) := (closes_mark (by decide)).blank
  obtain ⟨fuel, rfl⟩ : ∃ n, fuel = n + 1 := ⟨fuel - 1, by omega⟩
  obtain ⟨_, epos, hread, entry, rfl, hentry⟩ := ha
    (rows (items.map texts) ++ ' ' :: '\x7d' :: rest) (tpos.after ' ') fuel
    (ends_rows hcloses.ends) (by simp only [List.length_append, List.length_cons]; omega)
  have hfirst := (property_congr (skip_blank _ tpos)).trans hread
  obtain ⟨readings, cpos, hmore, hreadings⟩ := reads_moreProperties hitems (' ' :: '\x7d' :: rest)
    epos fuel hcloses (by simp only [List.length_append, List.length_cons]; omega)
  obtain ⟨entries, rfl, hentries⟩ := exists_of_forall₂_ok hreadings
  obtain ⟨rpos, hclose⟩ :=
    symbol?_mark (c := '\x7d') (s := "\x7d") rest rfl (by decide) (cpos.after ' ')
  have hend := (symbol?_congr (skip_blank ('\x7d' :: rest) cpos) "\x7d").trans hclose
  refine ⟨.object mpos (entry :: entries), rpos, ?_, mpos, _, rfl, .cons hentry hentries⟩
  have hall : all (.ok entry :: entries.map .ok) = .ok (entry :: entries) :=
    all_map_ok (entry :: entries)
  rw [primary, hnext]
  simp only [properties, hfirst, hmore, Cursor.optionalSymbol, Option.bind_eq_bind,
    Option.bind_some, hcloses.no_comma, Option.getD_none, hend, hall]
  rfl

theorem heads_empty : Heads (fun e => ∃ pos, e = .object pos []) ['\x7b', '\x7d'] := by
  refine heads_of_mark (s := "\x7b") rfl (by decide) fun rest pos fuel mpos tpos hfuel hnext => ?_
  simp only [List.cons_append, List.nil_append] at hfuel hnext ⊢
  have hcloses : Closes ('\x7d' :: rest) := closes_mark (by decide)
  obtain ⟨rpos, hclose⟩ := symbol?_mark (c := '\x7d') (s := "\x7d") rest rfl (by decide) tpos
  have hkey : objectKey? ⟨'\x7d' :: rest, tpos⟩ = none := by
    obtain ⟨s, hs, spos, more, hnext⟩ := hcloses.ends.next? tpos
    rw [objectKey?, hnext]
  have hread : properties fuel ⟨'\x7d' :: rest, tpos⟩ = some ([], ⟨'\x7d' :: rest, tpos⟩) := by
    obtain ⟨fuel, rfl⟩ : ∃ n, fuel = n + 2 := ⟨fuel - 2, by omega⟩
    rw [properties, property, hkey]
    rfl
  refine ⟨.object mpos [], rpos, ?_, mpos, rfl⟩
  rw [primary, hnext]
  simp only [hread, Cursor.optionalSymbol, Option.bind_eq_bind, Option.bind_some,
    hcloses.no_comma tpos, Option.getD_none, hclose]
  rfl

end

/-! ### Suffixes -/

theorem Heads.member {w : String} (hw : isNameText w = true) (h : Heads Q text) :
    Heads (fun e => ∃ pos e', e = .member pos e' w ∧ Q e') (text ++ '.' :: w.toList) := by
  intro rest pos fuel hrest hfuel
  rw [List.append_assoc, List.cons_append] at hfuel ⊢
  obtain ⟨hsign, e, epos, start, fuel', hchain, hfuel', he⟩ :=
    h ('.' :: (w.toList ++ rest)) pos fuel (endsNumber_point hw) hfuel
  simp only [List.length_cons, List.length_append] at hfuel'
  obtain ⟨fuel', rfl⟩ : ∃ n, fuel' = n + 2 := ⟨fuel' - 2, by omega⟩
  obtain ⟨dpos, wpos, hnext⟩ := Lexes.single (c := '.') (w.toList ++ rest) (by decide) epos
  obtain ⟨npos, rpos, hname⟩ := Lexes.word hw hrest.1 wpos
  have hsuffix : suffix (fuel' + 1) start (.ok e) ⟨'.' :: (w.toList ++ rest), epos⟩ =
      some (.ok (.member start e w), ⟨rest, rpos⟩) := by
    have hdot : Cursor.next? ⟨'.' :: (w.toList ++ rest), epos⟩ =
      some ⟨.symbol ".", dpos, ⟨w.toList ++ rest, wpos⟩⟩ := hnext
    rw [suffix, hdot]
    simp only [hname]
    rfl
  refine ⟨hsign, .member start e w, rpos, start, fuel' + 1, ?_, by omega, start, e, rfl, he⟩
  rw [hchain, suffixes, hsuffix]

theorem Heads.index {inner : List Char} (h : Heads Q text) (hinner : Reads R inner) :
    Heads (fun e => ∃ pos e' i, e = .index pos e' i ∧ Q e' ∧ R i)
      (text ++ '[' :: (inner ++ [']'])) := by
  intro rest pos fuel hrest hfuel
  simp only [List.append_assoc, List.cons_append, List.nil_append] at hfuel ⊢
  obtain ⟨hsign, e, epos, start, fuel', hchain, hfuel', he⟩ :=
    h ('[' :: (inner ++ ']' :: rest)) pos fuel (endsNumber_of_head (by decide) (by decide)) hfuel
  simp only [List.length_cons, List.length_append] at hfuel'
  obtain ⟨fuel', rfl⟩ : ∃ n, fuel' = n + 2 := ⟨fuel' - 2, by omega⟩
  obtain ⟨opos, ipos, hnext⟩ := Lexes.single (c := '[') (inner ++ ']' :: rest) (by decide) epos
  obtain ⟨i, cpos, hread, hi⟩ := hinner (']' :: rest) ipos fuel' (ends_mark (by decide))
    (by simp only [List.length_append, List.length_cons]; omega)
  obtain ⟨rpos, hclose⟩ := symbol?_mark (c := ']') (s := "]") rest rfl (by decide) cpos
  have hsuffix : suffix (fuel' + 1) start (.ok e) ⟨'[' :: (inner ++ ']' :: rest), epos⟩ =
      some (.ok (.index start e i), ⟨rest, rpos⟩) := by
    have hopen : Cursor.next? ⟨'[' :: (inner ++ ']' :: rest), epos⟩ =
      some ⟨.symbol "[", opos, ⟨inner ++ ']' :: rest, ipos⟩⟩ := hnext
    rw [suffix, hopen]
    simp only [hread, Option.bind_eq_bind, Option.bind_some, hclose]
    rfl
  refine ⟨hsign, .index start e i, rpos, start, fuel' + 1, ?_, by omega, start, e, i, rfl, he, hi⟩
  rw [hchain, suffixes, hsuffix]

theorem Heads.call {α : Type} {texts : α → String} {items : List α} {P : α → Expr → Prop}
    (h : Heads Q text) (hargs : ∀ a ∈ items, Reads (P a) (texts a).toList) :
    Heads (fun e => ∃ pos e' es, e = .call pos e' es ∧ Q e' ∧ List.Forall₂ P items es)
      (text ++ '(' :: ((", ".intercalate (items.map texts)).toList ++ [')'])) := by
  intro rest pos fuel hrest hfuel
  simp only [List.append_assoc, List.cons_append, List.nil_append] at hfuel ⊢
  obtain ⟨hsign, e, epos, start, fuel', hchain, hfuel', he⟩ :=
    h ('(' :: ((", ".intercalate (items.map texts)).toList ++ ')' :: rest)) pos fuel
      (endsNumber_of_head (by decide) (by decide)) hfuel
  simp only [List.length_cons, List.length_append] at hfuel'
  obtain ⟨fuel', rfl⟩ : ∃ n, fuel' = n + 2 := ⟨fuel' - 2, by omega⟩
  obtain ⟨opos, apos, hnext⟩ := Lexes.single (c := '(')
    ((", ".intercalate (items.map texts)).toList ++ ')' :: rest) (by decide) epos
  obtain ⟨es, cpos, hread, hes⟩ := reads_expressions hargs (')' :: rest) apos fuel'
    (closes_mark (by decide)) (by simp only [List.length_append, List.length_cons]; omega)
  obtain ⟨rpos, hclose⟩ := symbol?_mark (c := ')') (s := ")") rest rfl (by decide) cpos
  have hsuffix : suffix (fuel' + 1) start (.ok e)
      ⟨'(' :: ((", ".intercalate (items.map texts)).toList ++ ')' :: rest), epos⟩ =
      some (.ok (.call start e es), ⟨rest, rpos⟩) := by
    have hopen : Cursor.next?
        ⟨'(' :: ((", ".intercalate (items.map texts)).toList ++ ')' :: rest), epos⟩ =
      some ⟨.symbol "(", opos, ⟨(", ".intercalate (items.map texts)).toList ++ ')' :: rest, apos⟩⟩ :=
      hnext
    rw [suffix, hopen]
    simp only [hread, Option.bind_eq_bind, Option.bind_some, hclose, all_map_ok]
    rfl
  refine ⟨hsign, .call start e es, rpos, start, fuel' + 1, ?_, by omega, start, e, es, rfl, he, hes⟩
  rw [hchain, suffixes, hsuffix]

end TraceLoom.Script.Parser
