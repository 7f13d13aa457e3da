import TraceLoom.Proofs.Script.Legible
import TraceLoom.Proofs.Script.Operands

/-!
Expressions that are read back from their text, one kind at a time.  Only calls and functions look
at how deep they are nested.
-/

namespace TraceLoom.Script

open Numeric

namespace Parser

open TraceLoom.Script.Printer

/-! ## Reading what was printed -/

/-- The same expression up to positions. -/
def Same (e e' : Expr) : Prop :=
  e'.erase = e.erase

theorem eraseList_eq_of_forall₂ {es es' : List Expr} (h : List.Forall₂ Same es es') :
    Expr.eraseList es' = Expr.eraseList es := by
  induction h with
  | nil => rfl
  | cons hhead _ ih => exact congrArg₂ List.cons hhead ih

theorem eraseEntries_eq_of_forall₂ {entries entries' : List (String × Expr)}
    (h : List.Forall₂ (fun entry entry' => entry'.1 = entry.1 ∧ Same entry.2 entry'.2) entries
      entries') : Expr.eraseEntries entries' = Expr.eraseEntries entries := by
  induction h with
  | nil => rfl
  | cons hhead _ ih => exact congrArg₂ List.cons (Prod.ext hhead.1 hhead.2) ih

/-- The text of an expression is read as that expression: as a whole, as a row of operands if it
is no assignment, and with more behind it if it is a primary expression with accesses. -/
structure Faithful (e : Expr) : Prop where
  whole : ∀ depth, Reads (Same e) (expr depth e).toList
  first : assignLevel < level e → ItemReads (row e).first
  more : assignLevel < level e → ∀ operation ∈ (row e).more, ItemReads operation.2
  head : memberLevel ≤ level e → ∀ depth, Heads (Same e) (expr depth e).toList

theorem precedence_bounds (op : BinaryOp) :
    assignLevel < op.precedence ∧ op.precedence < unaryLevel := by
  cases op <;> decide

theorem row_eq_of_level {e : Expr} (h : unaryLevel ≤ level e) : row e = ⟨(expr 0 e, e), []⟩ := by
  cases e with
  | binary pos op left right => exact absurd h (Nat.not_le_of_lt (precedence_bounds op).2)
  | _ => rfl

/-- Operators do not look at how deep they are nested. -/
theorem expr_eq_zero {e : Expr} (hleast : assignLevel < level e) (hlevel : level e < memberLevel)
    (depth : Nat) : expr depth e = expr 0 e := by
  cases e with
  | unary | binary | update => rfl
  | function | assign => exact absurd hleast (Nat.lt_irrefl 0)
  | member | index | call => exact absurd hlevel (Nat.lt_irrefl memberLevel)
  | _ => exact absurd (show primaryLevel < memberLevel from hlevel) (by decide)

namespace Faithful

variable {e : Expr}

/-- An expression with an operator at its top, the operands of which are read. -/
theorem of_row (hleast : assignLevel < level e) (hlevel : level e < memberLevel)
    (hfirst : ItemReads (row e).first)
    (hmore : ∀ operation ∈ (row e).more, ItemReads operation.2) : Faithful e where
  whole depth := by
    rw [expr_eq_zero hleast hlevel, ← text_row]
    exact reads_row (binds_row e) hfirst hmore
  first _ := hfirst
  more _ := hmore
  head h := absurd h (Nat.not_le_of_lt hlevel)

theorem of_operand (hlevel : unaryLevel ≤ level e) (hlevel' : level e < memberLevel)
    (h : ReadsOperand (Same e) (expr 0 e).toList) : Faithful e := by
  have hrow := row_eq_of_level hlevel
  refine of_row (Nat.lt_of_lt_of_le (by decide) hlevel) hlevel' (hrow ▸ h) fun operation hmem => ?_
  rw [hrow] at hmem
  exact absurd hmem List.not_mem_nil

theorem of_head (hlevel : memberLevel ≤ level e)
    (h : ∀ depth, Heads (Same e) (expr depth e).toList) : Faithful e := by
  have hrow := row_eq_of_level (Nat.le_trans (by decide) hlevel)
  refine ⟨fun depth => (h depth).readsOperand.reads, fun _ => ?_, fun _ operation hmem => ?_,
    fun _ => h⟩
  · rw [hrow]
    exact (h 0).readsOperand
  · rw [hrow] at hmem
    exact absurd hmem List.not_mem_nil

theorem of_primary (hlevel : level e = primaryLevel)
    (h : ∀ depth, Heads (Same e) (expr depth e).toList) : Faithful e :=
  .of_head (hlevel ▸ (by decide : memberLevel ≤ primaryLevel)) h

theorem enclosed (h : Faithful e) (depth : Nat) :
    Heads (Same e) ("(" ++ expr depth e ++ ")").toList := by
  have htext : ("(" ++ expr depth e ++ ")").toList = '(' :: ((expr depth e).toList ++ [')']) := by
    simp
  exact htext ▸ heads_paren (h.whole depth)

theorem first_rowIn (h : Faithful e) {least : Nat} (hleast : assignLevel < least) :
    ItemReads (rowIn least e).first := by
  unfold rowIn
  split
  · exact (h.enclosed 0).readsOperand
  · rename_i hle
    exact h.first (Nat.lt_of_lt_of_le hleast (Nat.le_of_not_lt hle))

theorem more_rowIn (h : Faithful e) {least : Nat} (hleast : assignLevel < least) :
    ∀ operation ∈ (rowIn least e).more, ItemReads operation.2 := by
  unfold rowIn
  split
  · exact fun operation hmem => absurd hmem List.not_mem_nil
  · rename_i hle
    exact h.more (Nat.lt_of_lt_of_le hleast (Nat.le_of_not_lt hle))

theorem reads_enclose (h : Faithful e) {least : Nat} (hleast : assignLevel < least) :
    Reads (Same e) (enclose e least (expr 0 e)).toList := by
  rw [← text_rowIn_of_row (text_row e) least]
  exact reads_row ((binds_row e).rowIn least) (h.first_rowIn hleast) (h.more_rowIn hleast)

theorem heads_enclose (h : Faithful e) (depth : Nat) :
    Heads (Same e) (enclose e memberLevel (expr depth e)).toList := by
  unfold enclose
  split
  · exact h.enclosed depth
  · rename_i hle
    exact h.head (Nat.le_of_not_lt hle) depth

theorem readsOperand_enclose (h : Faithful e) :
    ReadsOperand (Same e) (enclose e unaryLevel (expr 0 e)).toList := by
  unfold enclose
  split
  · exact (h.enclosed 0).readsOperand
  · rename_i hle
    have hfirst := h.first (Nat.lt_of_lt_of_le (by decide) (Nat.le_of_not_lt hle))
    rwa [row_eq_of_level (Nat.le_of_not_lt hle)] at hfirst

end Faithful

theorem operands_eq_map (es : List Expr) :
    operands es = es.map fun e => enclose e (assignLevel + 1) (expr 0 e) := by
  induction es with
  | nil => rfl
  | cons e es ih => exact congrArg (_ :: ·) ih

/-- The text of an argument of a call. -/
def argument (depth : Nat) (e : Expr) : String :=
  if e.isFunction then expr depth e else enclose e (assignLevel + 1) (expr 0 e)

theorem arguments_eq_map (depth : Nat) (es : List Expr) :
    arguments depth es = es.map (argument depth) := by
  induction es with
  | nil => rfl
  | cons e es ih => exact congrArg (_ :: ·) ih

theorem Faithful.reads_argument {e : Expr} (h : Faithful e) (depth : Nat) :
    Reads (Same e) (argument depth e).toList := by
  unfold argument
  split
  · exact h.whole depth
  · exact h.reads_enclose (by decide)

theorem fields_eq_map (entries : List (String × Expr)) :
    fields entries = entries.map fun entry =>
      key entry.1 ++ ": " ++ enclose entry.2 (assignLevel + 1) (expr 0 entry.2) := by
  induction entries with
  | nil => rfl
  | cons entry entries ih => exact congrArg (_ :: ·) ih

theorem isTarget_erase (e : Expr) : e.erase.isTarget = e.isTarget := by
  cases e <;> rfl

theorem isTarget_of_same {e : Expr} (he : e.isTarget = true) (e' : Expr) (h : Same e e') :
    e'.isTarget = true := by
  rw [← isTarget_erase, h, isTarget_erase, he]

/-- What can be written to is never put in parentheses. -/
theorem level_of_isTarget {e : Expr} (h : e.isTarget = true) : memberLevel ≤ level e := by
  cases e with
  | name => exact show memberLevel ≤ primaryLevel by decide
  | member | index => exact Nat.le_refl memberLevel
  | _ => exact absurd h Bool.false_ne_true

theorem enclose_of_le {e : Expr} {least : Nat} (h : least ≤ level e) (text : String) :
    enclose e least text = text :=
  if_neg (Nat.not_lt_of_le h)

/-! ### Each kind of expression -/

theorem faithful_number {x : Float} (hplain : IsPlainNumber x) (hback : ReadsBack x)
    (pos : Position) : Faithful (.number pos x) := by
  have hread : Heads (Same (.number pos x)) (Notation.literal x).toList :=
    (heads_number hplain.literal).imp fun _ ⟨npos, heq⟩ => by rw [heq, hback]; rfl
  refine .of_primary rfl fun _ => ?_
  unfold expr
  split
  · have htext : ("(" ++ Notation.literal x ++ ")").toList =
        '(' :: ((Notation.literal x).toList ++ [')']) := by simp
    exact htext ▸ heads_paren hread.readsOperand.reads
  · exact hread

theorem faithful_array {items : List Expr} (h : ∀ e ∈ items, Faithful e) (pos : Position) :
    Faithful (.array pos items) := by
  have htext : (expr 0 (.array pos items)).toList = '[' :: ((", ".intercalate
      (items.map fun e => enclose e (assignLevel + 1) (expr 0 e))).toList ++ [']']) := by
    simp [expr, operands_eq_map]
  refine .of_primary rfl fun _ => htext ▸ (heads_array (P := Same) fun e he =>
    (h e he).reads_enclose (by decide)).imp ?_
  rintro _ ⟨apos, es, rfl, hes⟩
  exact congrArg (Expr.array .none) (eraseList_eq_of_forall₂ hes)

theorem faithful_object {entries : List (String × Expr)}
    (h : ∀ entry ∈ entries, Faithful entry.2) (pos : Position) :
    Faithful (.object pos entries) := by
  refine .of_primary rfl fun _ => ?_
  cases entries with
  | nil =>
      have htext : (expr 0 (.object pos [])).toList = ['\x7b', '\x7d'] := by simp [expr]
      refine htext ▸ heads_empty.imp ?_
      rintro _ ⟨opos, rfl⟩
      rfl
  | cons entry entries =>
      have htext : (expr 0 (.object pos (entry :: entries))).toList =
          '\x7b' :: ' ' :: ((", ".intercalate ((entry :: entries).map fun entry =>
            key entry.1 ++ ": " ++ enclose entry.2 (assignLevel + 1) (expr 0 entry.2))).toList ++
              [' ', '\x7d']) := by
        rw [expr, fields_eq_map]
        simp
      refine htext ▸ (heads_object (P := fun entry entry' => entry'.1 = entry.1 ∧
        Same entry.2 entry'.2) (fun entry hentry => readsItem_property
          ((h entry hentry).reads_enclose (by decide))) (List.cons_ne_nil _ _)).imp ?_
      rintro _ ⟨opos, entries', rfl, hentries⟩
      exact congrArg (Expr.object .none) (eraseEntries_eq_of_forall₂ hentries)

theorem faithful_member {e : Expr} (h : Faithful e) {property : String}
    (hproperty : isNameText property = true) (pos : Position) :
    Faithful (.member pos e property) := by
  have htext : (expr 0 (.member pos e property)).toList =
      (enclose e memberLevel (expr 0 e)).toList ++ '.' :: property.toList := by
    simp [expr]
  refine .of_head (Nat.le_refl memberLevel) fun _ =>
    htext ▸ ((h.heads_enclose 0).member hproperty).imp ?_
  rintro _ ⟨mpos, e', rfl, he'⟩
  exact congrArg (Expr.member .none · property) he'

theorem faithful_index {e i : Expr} (h : Faithful e) (hi : Faithful i) (pos : Position) :
    Faithful (.index pos e i) := by
  have htext : (expr 0 (.index pos e i)).toList =
      (enclose e memberLevel (expr 0 e)).toList ++ '[' :: ((expr 0 i).toList ++ [']']) := by
    simp [expr]
  refine .of_head (Nat.le_refl memberLevel) fun _ =>
    htext ▸ ((h.heads_enclose 0).index (hi.whole 0)).imp ?_
  rintro _ ⟨ipos, e', i', rfl, he', hi'⟩
  exact congrArg₂ (Expr.index .none) he' hi'

theorem faithful_call {callee : Expr} {args : List Expr} (h : Faithful callee)
    (hargs : ∀ e ∈ args, Faithful e) (pos : Position) : Faithful (.call pos callee args) := by
  refine .of_head (Nat.le_refl memberLevel) fun depth => ?_
  have htext : (expr depth (.call pos callee args)).toList =
      (enclose callee memberLevel (expr (if callee.isFunction then depth else 0) callee)).toList ++
        '(' :: ((", ".intercalate (args.map (argument depth))).toList ++ [')']) := by
    simp [expr, arguments_eq_map]
  refine htext ▸ ((h.heads_enclose _).call (P := Same)
    fun e he => (hargs e he).reads_argument depth).imp ?_
  rintro _ ⟨cpos, e', es, rfl, he', hes⟩
  exact congrArg₂ (Expr.call .none) he' (eraseList_eq_of_forall₂ hes)

/-- A sign is set off from an operand that starts with the same sign. -/
theorem readsOperand_sign_enclose {op : UnaryOp} (hword : op ≠ .typeof ∧ op ≠ .void) {e : Expr}
    (h : Faithful e) (hstarts : Starts (enclose e unaryLevel (expr 0 e))) :
    ReadsOperand (fun e' => ∃ pos o, e' = .unary pos op o ∧ Same e o)
      (sign op.symbol (enclose e unaryLevel (expr 0 e))).toList := by
  unfold sign
  split
  · have htext : (op.symbol ++ "(" ++ enclose e unaryLevel (expr 0 e) ++ ")").toList =
        op.symbol.toList ++ '(' :: ((enclose e unaryLevel (expr 0 e)).toList ++ [')']) := by
      simp
    rw [htext]
    exact readsOperand_sign hword (by decide) (.inr (by cases op <;> decide))
      (heads_paren (h.reads_enclose (by decide))).readsOperand
  · rename_i hsign
    obtain ⟨c, cs, hlist, hc⟩ := hstarts
    have hoperand := h.readsOperand_enclose
    rw [String.toList_append, hlist]
    rw [hlist] at hoperand hsign
    refine readsOperand_sign hword hc (.inr fun hsymbol => hsign ?_) hoperand
    rw [hsymbol]
    simp

theorem faithful_unary {op : UnaryOp} {operand : Expr} (h : Faithful operand)
    (hstarts : Starts (expr 0 operand)) (pos : Position) : Faithful (.unary pos op operand) := by
  have hstarts : Starts (enclose operand unaryLevel (expr 0 operand)) :=
    starts_enclose hstarts unaryLevel
  have hread : ReadsOperand (fun e' => ∃ pos o, e' = .unary pos op o ∧ Same operand o)
      (unary op (enclose operand unaryLevel (expr 0 operand))).toList := by
    cases op with
    | typeof | void =>
        unfold unary
        rw [String.toList_append, String.toList_append]
        exact readsOperand_word (by decide) h.readsOperand_enclose
    | neg | plus => exact readsOperand_sign_enclose (by decide) h hstarts
    | not =>
        obtain ⟨c, cs, hlist, hc⟩ := hstarts
        have hoperand := h.readsOperand_enclose
        unfold unary
        rw [String.toList_append, hlist]
        rw [hlist] at hoperand
        exact readsOperand_sign (by decide) hc (.inl rfl) hoperand
  refine .of_operand (Nat.le_refl unaryLevel) (show unaryLevel < memberLevel by decide)
    (expr_unary 0 pos op operand ▸ hread.imp ?_)
  rintro _ ⟨upos, o, rfl, ho⟩
  exact congrArg (Expr.unary .none op) ho

theorem faithful_binary {op : BinaryOp} {left right : Expr} (hleft : Faithful left)
    (hright : Faithful right) (pos : Position) : Faithful (.binary pos op left right) := by
  obtain ⟨hassign, hunary⟩ := precedence_bounds op
  refine .of_row hassign (Nat.lt_trans hunary (by decide)) (hleft.first_rowIn hassign) ?_
  intro operation hmem
  rw [row_binary] at hmem
  rcases List.mem_append.mp hmem with hmem | hmem
  · exact hleft.more_rowIn hassign operation hmem
  · rcases List.mem_cons.mp hmem with rfl | hmem
    · exact hright.first_rowIn (Nat.lt_succ_of_lt hassign)
    · exact hright.more_rowIn (Nat.lt_succ_of_lt hassign) operation hmem

theorem faithful_assign {op : AssignOp} {target value : Expr} (htarget : target.isTarget = true)
    (h : Faithful target) (hvalue : Faithful value) (pos : Position) :
    Faithful (.assign pos op target value) := by
  have htext : (expr 0 (.assign pos op target value)).toList =
      (expr 0 target).toList ++ ' ' :: (op.symbol.toList ++ ' ' :: (expr 0 value).toList) := by
    have hvalue : enclose value assignLevel (expr 0 value) = expr 0 value :=
      enclose_of_le (Nat.zero_le _) _
    simp [expr, enclose_of_le (level_of_isTarget htarget), hvalue]
  have hhead := h.head (level_of_isTarget htarget) 0
  have hloose : ¬ assignLevel < level (.assign pos op target value) := Nat.lt_irrefl 0
  refine ⟨fun _ => htext ▸ (hhead.assign op (isTarget_of_same htarget) (hvalue.whole 0)).imp ?_,
    fun hlevel => absurd hlevel hloose, fun hlevel => absurd hlevel hloose,
    fun hlevel => absurd (Nat.lt_of_lt_of_le (by decide) hlevel) hloose⟩
  rintro _ ⟨apos, e', v, rfl, he', hv⟩
  exact congrArg₂ (Expr.assign .none op) he' hv

theorem faithful_update {op : UpdateOp} {target : Expr} (htarget : target.isTarget = true)
    (h : Faithful target) (isPrefix : Bool) (pos : Position) :
    Faithful (.update pos op isPrefix target) := by
  have hlevel := level_of_isTarget htarget
  have hhead := h.head hlevel 0
  cases isPrefix with
  | true =>
      have htext : (expr 0 (.update pos op true target)).toList =
          op.symbol.toList ++ (expr 0 target).toList := by
        simp [expr, enclose_of_le hlevel]
      refine .of_operand (Nat.le_refl unaryLevel) (show unaryLevel < memberLevel by decide)
        (htext ▸ (readsOperand_update op hhead.readsOperand (isTarget_of_same htarget)).imp ?_)
      rintro _ ⟨upos, e', rfl, he'⟩
      exact congrArg (Expr.update .none op true) he'
  | false =>
      have htext : (expr 0 (.update pos op false target)).toList =
          (expr 0 target).toList ++ op.symbol.toList := by
        simp [expr, enclose_of_le hlevel]
      refine .of_operand (show unaryLevel ≤ postfixLevel by decide)
        (show postfixLevel < memberLevel by decide)
        (htext ▸ (hhead.update op (isTarget_of_same htarget)).imp ?_)
      rintro _ ⟨upos, e', rfl, he'⟩
      exact congrArg (Expr.update .none op false) he'

end Parser

end TraceLoom.Script
