import TraceLoom.Proofs.Script.Primaries

/-!
Reading signs, updates and assignments.
-/

namespace TraceLoom.Script.Parser

open Cursor

variable {Q R : Expr → Prop} {text : List Char}

/-! ### Signs and updates -/

/-- An operator in front of an operand, with nothing or a blank between them. -/
theorem readsOperand_prefix {front : List Char} (op : UpdateOp ⊕ UnaryOp)
    (hfront : 0 < front.length) (hop : ∀ rest pos, ∃ mpos d epos,
      prefixOp? ⟨front ++ (text ++ rest), pos⟩ = some (op, mpos, d) ∧
        d.skip = Cursor.skip ⟨text ++ rest, epos⟩)
    (h : ReadsOperand Q text) (happly : ∀ pos e, Q e → ∃ e', applyPrefix op pos (.ok e) = .ok e' ∧
      R e') : ReadsOperand R (front ++ text) := by
  intro rest pos fuel hrest hfuel
  rw [List.append_assoc] at hfuel ⊢
  rw [List.length_append] at hfuel
  obtain ⟨fuel, rfl⟩ : ∃ n, fuel = n + 1 := ⟨fuel - 1, by omega⟩
  obtain ⟨mpos, d, epos, hsign, hskip⟩ := hop rest pos
  obtain ⟨e, rpos, hread, he⟩ := h.operand rest epos fuel hrest (by omega)
  obtain ⟨e', he', hR⟩ := happly mpos e he
  refine ⟨e', rpos, .inl ⟨by rw [hsign]; rfl, ?_⟩, hR⟩
  rw [operand, hsign]
  simp only [(operand_congr hskip).trans hread, Option.map_some, he']

theorem prefixOp?_symbol {op : UnaryOp} {c rest : Cursor} {pos : Position}
    (h : c.next? = some ⟨.symbol op.symbol, pos, rest⟩) :
    prefixOp? c = some (.inr op, pos, rest) := by
  rw [prefixOp?, h]
  cases op <;> rfl

/-- A sign in front of an operand that does not start with the same sign. -/
theorem readsOperand_sign {op : UnaryOp} (hword : op ≠ .typeof ∧ op ≠ .void) {c : Char}
    {text : List Char} (hequals : c ≠ '=') (hsame : op = .not ∨ op.symbol.toList ≠ [c])
    (h : ReadsOperand Q (c :: text)) :
    ReadsOperand (fun e => ∃ pos e', e = .unary pos op e' ∧ Q e')
      (op.symbol.toList ++ c :: text) := by
  refine readsOperand_prefix (.inr op) ?_ (fun rest pos => ?_) h
    fun pos e he => ⟨_, rfl, pos, e, rfl, he⟩
  · cases op <;> decide
  · have hlex : Lexes (op.symbol.toList ++ (c :: text ++ rest)) (.symbol op.symbol)
        (c :: text ++ rest) :=
      .sign hword fun d hd => by
        cases hd
        exact ⟨hequals, hsame⟩
    obtain ⟨mpos, epos, hnext⟩ := hlex pos
    exact ⟨mpos, _, epos, prefixOp?_symbol hnext, rfl⟩

/-- An operator that is a word, and a blank behind it. -/
theorem readsOperand_word {op : UnaryOp} (hname : isNameText op.symbol = true)
    (h : ReadsOperand Q text) :
    ReadsOperand (fun e => ∃ pos e', e = .unary pos op e' ∧ Q e')
      ((op.symbol.toList ++ [' ']) ++ text) := by
  refine readsOperand_prefix (.inr op) (by simp) (fun rest pos => ?_) h
    fun pos e he => ⟨_, rfl, pos, e, rfl, he⟩
  have hends : EndsWord (' ' :: (text ++ rest)) := endsWord_of_head (by decide)
  obtain ⟨mpos, epos, hnext⟩ := Lexes.word hname hends pos
  refine ⟨mpos, ⟨' ' :: (text ++ rest), epos⟩, epos.after ' ', ?_, skip_blank _ epos⟩
  have htext : op.symbol.toList ++ [' '] ++ (text ++ rest) =
      op.symbol.toList ++ ' ' :: (text ++ rest) := by
    simp
  rw [htext, prefixOp?, hnext]
  simp only [UnaryOp.ofSymbol?_symbol, Option.map_some]

theorem updateOp?_symbol (op : UpdateOp) : updateOp? op.symbol = some op := by
  cases op <;> rfl

/-- An update in front of its target. -/
theorem readsOperand_update (op : UpdateOp) (h : ReadsOperand Q text)
    (htarget : ∀ e, Q e → e.isTarget = true) :
    ReadsOperand (fun e => ∃ pos e', e = .update pos op true e' ∧ Q e')
      (op.symbol.toList ++ text) := by
  refine readsOperand_prefix (.inl op) ?_ (fun rest pos => ?_) h
    fun pos e he => ⟨.update pos op true e, ?_, pos, e, rfl, he⟩
  · cases op <;> decide
  · obtain ⟨mpos, epos, hnext⟩ := Lexes.update op (text ++ rest) pos
    refine ⟨mpos, _, epos, ?_, rfl⟩
    rw [prefixOp?, hnext]
    simp only [updateOp?_symbol]
  · exact if_pos (htarget e he)

/-- An update behind its target. -/
theorem Heads.update (op : UpdateOp) (h : Heads Q text) (htarget : ∀ e, Q e → e.isTarget = true) :
    ReadsOperand (fun e => ∃ pos e', e = .update pos op false e' ∧ Q e')
      (text ++ op.symbol.toList) := by
  intro rest pos fuel hrest hfuel
  rw [List.append_assoc] at hfuel ⊢
  obtain ⟨fuel, rfl⟩ : ∃ n, fuel = n + 1 := ⟨fuel - 1, by omega⟩
  have hends : EndsNumber (op.symbol.toList ++ rest) := by
    cases op <;> exact endsNumber_of_head (by decide) (by decide)
  obtain ⟨hsign, e, epos, start, fuel', hchain, -, he⟩ :=
    h (op.symbol.toList ++ rest) pos (fuel + 1) hends (by omega)
  obtain ⟨mpos, rpos, hnext⟩ := Lexes.update op rest epos
  rw [suffixes_of_mark hnext (by cases op <;> decide)] at hchain
  refine ⟨.update e.pos op false e, rpos,
    .inr ⟨hsign, _, _, hchain, ?_, ?_⟩, e.pos, e, rfl, he⟩
  · rw [assignOp?, hnext]
    cases op <;> rfl
  · have happly : applyPostfix (.ok e) op = .ok (.update e.pos op false e) :=
      if_pos (htarget e he)
    rw [postfixes, hnext]
    simp only [updateOp?_symbol, happly, hrest.postfixes]

/-! ### Assignments -/

theorem Heads.assign {value : List Char} (op : AssignOp) (h : Heads Q text)
    (htarget : ∀ e, Q e → e.isTarget = true) (hvalue : Reads R value) :
    Reads (fun e => ∃ pos e' v, e = .assign pos op e' v ∧ Q e' ∧ R v)
      (text ++ ' ' :: (op.symbol.toList ++ ' ' :: value)) := by
  intro rest pos fuel hrest hfuel
  have htext : text ++ ' ' :: (op.symbol.toList ++ ' ' :: value) ++ rest =
      text ++ ' ' :: (op.symbol.toList ++ ' ' :: (value ++ rest)) := by
    simp
  rw [htext] at hfuel ⊢
  obtain ⟨fuel, rfl⟩ : ∃ n, fuel = n + 1 := ⟨fuel - 1, by omega⟩
  obtain ⟨hsign, e, epos, start, fuel', hchain, -, he⟩ :=
    h (' ' :: (op.symbol.toList ++ ' ' :: (value ++ rest))) pos fuel
      (endsNumber_of_head (by decide) (by decide)) (by omega)
  obtain ⟨mpos, vpos, hnext⟩ := (Lexes.assignment op (value ++ rest)).space epos
  rw [suffixes_of_mark hnext (by cases op <;> decide)] at hchain
  simp only [List.length_append, List.length_cons] at hfuel
  obtain ⟨v, rpos, hread, hv⟩ := hvalue rest (vpos.after ' ') fuel hrest
    (by simp only [List.length_append]; omega)
  have hright := (assignment_congr (skip_blank (value ++ rest) vpos)).trans hread
  have hop : assignOp? ⟨' ' :: (op.symbol.toList ++ ' ' :: (value ++ rest)), epos⟩ =
      some (op, ⟨' ' :: (value ++ rest), vpos⟩) := by
    rw [assignOp?, hnext]
    cases op <;> rfl
  have hassign (pos : Position) : Parser.assign pos op (.ok e) (.ok v) = .ok (.assign pos op e v) :=
    if_pos (htarget e he)
  refine ⟨.assign (Cursor.skip ⟨text ++ ' ' :: (op.symbol.toList ++ ' ' :: (value ++ rest)),
    pos⟩).pos op e v, rpos, ?_, _, e, v, rfl, he, hv⟩
  rw [assignment, hsign]
  simp only [Option.isSome_none, Bool.false_eq_true, if_false, hchain, hop, hright,
    Option.bind_eq_bind, Option.bind_some, hassign]
  rfl

end TraceLoom.Script.Parser
