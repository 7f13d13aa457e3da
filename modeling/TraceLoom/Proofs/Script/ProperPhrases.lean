import TraceLoom.Proofs.Instrument.Lowering
import TraceLoom.Proofs.Script.Orderly

/-!
Reading an orderly text.  Whatever the parser reads from it is proper and leaves an orderly text
behind, unless it is refused later: a name that may name no variable stands before a colon, and
nothing goes on there.
-/

namespace TraceLoom.Script

open TraceLoom.Script.Parser

variable {V : Vocabulary} {fresh : Bool} {c c' rest : Cursor} {n : Nat} {good : Prop} {s : String}

/-! ## Where reading is stuck -/

namespace Stuck

theorem symbol? (h : Stuck c) (hs : s ≠ ":") : c.symbol? s = none := by
  obtain ⟨pos, rest, hnext⟩ := h
  simp [Cursor.symbol?, hnext, hs.symm]

theorem optionalSymbol (h : Stuck c) (hs : s ≠ ":") : c.optionalSymbol s = c := by
  rw [Cursor.optionalSymbol, h.symbol? hs, Option.getD_none]

end Stuck

/-! ## Marks -/

theorem Orderly.symbol? (h : Orderly V fresh c) (hs : c.symbol? s = some c') (hdot : s ≠ ".") :
    Orderly V (opensStatement s) c' ∧ c'.size < c.size := by
  obtain ⟨pos, hnext⟩ := Cursor.symbol?_eq_some_iff.mp hs
  exact ⟨h.after_symbol hnext hdot, Cursor.next?_size hnext⟩

theorem infixOp?_next {op : BinaryOp} (h : infixOp? c = some (op, rest)) :
    ∃ pos, c.next? = some ⟨.symbol op.symbol, pos, rest⟩ := by
  unfold infixOp? at h
  split at h
  · rename_i s pos rest' hnext
    obtain ⟨op', hop, heq⟩ := Option.map_eq_some_iff.mp h
    cases heq
    have hsymbol : op.symbol = s := by simpa using List.find?_some hop
    exact ⟨pos, hsymbol ▸ hnext⟩
  · cases h

theorem assignOp?_next {op : AssignOp} (h : assignOp? c = some (op, rest)) :
    ∃ pos, c.next? = some ⟨.symbol op.symbol, pos, rest⟩ := by
  unfold assignOp? at h
  split at h
  · rename_i s pos rest' hnext
    split at h <;> cases h <;> exact ⟨pos, hnext⟩
  · cases h

theorem updateOp?_eq {op : UpdateOp} (h : updateOp? s = some op) : s = op.symbol := by
  unfold updateOp? at h
  split at h <;> cases h <;> rfl

theorem prefixOp?_next {op : UpdateOp ⊕ UnaryOp} {pos : Position}
    (h : prefixOp? c = some (op, pos, rest)) :
    (∃ s, c.next? = some ⟨.symbol s, pos, rest⟩ ∧ s ≠ "." ∧ opensStatement s = false) ∨
      ∃ w, c.next? = some ⟨.word w, pos, rest⟩ ∧ w ≠ "break" ∧ w ≠ "function" := by
  unfold prefixOp? at h
  split at h
  · rename_i s pos' rest' hnext
    split at h
    · rename_i op' hop
      cases h
      refine .inl ⟨s, hnext, ?_⟩
      rw [updateOp?_eq hop]
      cases op' <;> decide
    · obtain ⟨op', hop, heq⟩ := Option.map_eq_some_iff.mp h
      cases heq
      have hsymbol : op'.symbol = s := by simpa using List.find?_some hop
      refine .inl ⟨s, hnext, ?_⟩
      rw [← hsymbol]
      cases op' <;> decide
  · rename_i w pos' rest' hnext
    obtain ⟨op', hop, heq⟩ := Option.map_eq_some_iff.mp h
    cases heq
    have hsymbol : op'.symbol = w := by simpa using List.find?_some hop
    refine .inr ⟨w, hnext, ?_⟩
    rw [← hsymbol]
    cases op' <;> decide
  · cases h

namespace Stuck

theorem infixOp? (h : Stuck c) : infixOp? c = none := by
  obtain ⟨pos, rest, hnext⟩ := h
  refine Option.eq_none_iff_forall_ne_some.mpr fun ⟨op, rest'⟩ hop => ?_
  obtain ⟨pos', hnext'⟩ := infixOp?_next hop
  rw [hnext] at hnext'
  cases op <;> simp [BinaryOp.symbol] at hnext'

theorem assignOp? (h : Stuck c) : assignOp? c = none := by
  obtain ⟨pos, rest, hnext⟩ := h
  refine Option.eq_none_iff_forall_ne_some.mpr fun ⟨op, rest'⟩ hop => ?_
  obtain ⟨pos', hnext'⟩ := assignOp?_next hop
  rw [hnext] at hnext'
  cases op <;> simp [AssignOp.symbol] at hnext'

end Stuck

namespace Orderly

theorem infixOp? {op : BinaryOp} (h : Orderly V fresh c) (hop : infixOp? c = some (op, c')) :
    Orderly V false c' ∧ c'.size < c.size := by
  obtain ⟨pos, hnext⟩ := infixOp?_next hop
  refine ⟨?_, Cursor.next?_size hnext⟩
  have hopens : opensStatement op.symbol = false := by cases op <;> decide
  exact hopens ▸ h.after_symbol hnext (by cases op <;> decide)

theorem assignOp? {op : AssignOp} (h : Orderly V fresh c) (hop : assignOp? c = some (op, c')) :
    Orderly V false c' ∧ c'.size < c.size := by
  obtain ⟨pos, hnext⟩ := assignOp?_next hop
  refine ⟨?_, Cursor.next?_size hnext⟩
  have hopens : opensStatement op.symbol = false := by cases op <;> decide
  exact hopens ▸ h.after_symbol hnext (by cases op <;> decide)

theorem prefixOp? {op : UpdateOp ⊕ UnaryOp} {pos : Position} (h : Orderly V false c)
    (hop : prefixOp? c = some (op, pos, c')) : Orderly V false c' ∧ c'.size < c.size := by
  obtain ⟨s, hnext, hdot, hopens⟩ | ⟨w, hnext, hw, hw'⟩ := prefixOp?_next hop
  · exact ⟨hopens ▸ h.after_symbol hnext hdot, Cursor.next?_size hnext⟩
  · exact ⟨(h.after_word hnext hw hw').1, Cursor.next?_size hnext⟩

end Orderly

/-! ## What reading leaves behind -/

/-- An orderly text that is shorter than some bound, behind something that is as it should be,
unless nothing goes on there. -/
structure After (V : Vocabulary) (n : Nat) (good : Prop) (c : Cursor) : Prop where
  orderly : Orderly V true c
  size : c.size < n
  good : good ∨ Stuck c

/-- A reading after which all is in order, unless it refuses something. -/
def Sane {α : Type} (V : Vocabulary) (n : Nat) (good : α → Prop) (r : Reading α) (c : Cursor) :
    Prop :=
  ∀ x, r = .ok x → After V n (good x) c

namespace After

theorem symbol? (h : After V n good c) (hs : c.symbol? s = some c') (hcolon : s ≠ ":")
    (hdot : s ≠ ".") : good ∧ Orderly V (opensStatement s) c' ∧ c'.size < n := by
  obtain ⟨horderly, hsize⟩ := h.orderly.symbol? hs hdot
  refine ⟨h.good.resolve_right fun hstuck => ?_, horderly, Nat.lt_trans hsize h.size⟩
  rw [hstuck.symbol? hcolon] at hs
  cases hs

theorem optionalSymbol (h : After V n good c) (hcolon : s ≠ ":") (hdot : s ≠ ".") :
    After V n good (c.optionalSymbol s) := by
  cases hs : c.symbol? s with
  | none => rwa [Cursor.optionalSymbol, hs, Option.getD_none]
  | some c' =>
      obtain ⟨hgood, horderly, hsize⟩ := h.symbol? hs hcolon hdot
      rw [Cursor.optionalSymbol, hs, Option.getD_some]
      exact ⟨horderly.relax, hsize, .inl hgood⟩

theorem imp {good' : Prop} (h : After V n good c) (himp : good → good') : After V n good' c :=
  ⟨h.orderly, h.size, h.good.imp_left himp⟩

theorem mono {m : Nat} (h : After V n good c) (hle : n ≤ m) : After V m good c :=
  ⟨h.orderly, Nat.lt_of_lt_of_le h.size hle, h.good⟩

end After

theorem reading_map₂_eq_ok {α β γ : Type} {x : Reading α} {y : Reading β} {f : α → β → γ} {b : γ}
    (h : (do return f (← x) (← y)) = Except.ok b) : ∃ a a', x = .ok a ∧ y = .ok a' ∧ b = f a a' := by
  cases x with
  | error e => cases h
  | ok a =>
      cases y with
      | error e => cases h
      | ok a' =>
          cases h
          exact ⟨a, a', rfl, rfl, rfl⟩

theorem reading_map_eq_ok {α β : Type} {x : Reading α} {f : α → β} {b : β}
    (h : x.map f = .ok b) : ∃ a, x = .ok a ∧ f a = b := by
  cases x with
  | error e => cases h
  | ok a => exact ⟨a, rfl, Except.ok.inj h⟩

theorem all_cons_eq_ok {α : Type} {r : Reading α} {rs : List (Reading α)} {xs : List α} :
    all (r :: rs) = .ok xs ↔ ∃ x ys, r = .ok x ∧ all rs = .ok ys ∧ xs = x :: ys := by
  simp only [all, List.mapM_cons, id_eq]
  cases r with
  | error e => simp [bind, Except.bind]
  | ok x =>
      cases rs.mapM id with
      | error e => simp [bind, Except.bind]
      | ok ys => simp [bind, Except.bind, pure, Except.pure, eq_comm]

theorem Sane.mono {α : Type} {good : α → Prop} {r : Reading α} {m : Nat}
    (h : Sane V n good r c) (hle : n ≤ m) : Sane V m good r c :=
  fun x hx => (h x hx).mono hle

/-- The first of several phrases and the others, which end where nothing goes on. -/
theorem Sane.cons {α : Type} {good : α → Prop} {first : Reading α} {others : List (Reading α)}
    (hfirst : Sane V n good first c)
    (hothers : Orderly V true c → c.size < n →
      Sane V (c.size + 1) (fun xs => ∀ x ∈ xs, good x) (all others) c')
    (hstuck : Stuck c → others = [] ∧ c' = c) :
    Sane V n (fun xs => ∀ x ∈ xs, good x) (all (first :: others)) c' := by
  intro xs hxs
  obtain ⟨x, ys, hx, hys, rfl⟩ := all_cons_eq_ok.mp hxs
  have hafter := hfirst x hx
  obtain hgood | hcolon := hafter.good
  · have hrest := hothers hafter.orderly hafter.size ys hys
    refine (hrest.mono hafter.size).imp fun hgoods => ?_
    exact List.forall_mem_cons.mpr ⟨hgood, hgoods⟩
  · obtain ⟨-, rfl⟩ := hstuck hcolon
    exact ⟨hafter.orderly, hafter.size, .inr hcolon⟩

theorem Orderly.sane_nil {α : Type} {good : α → Prop} (h : Orderly V true c) :
    Sane V (c.size + 1) (fun xs : List α => ∀ x ∈ xs, good x) (all []) c := by
  intro xs hxs
  cases hxs
  exact ⟨h, Nat.lt_succ_self _, .inl (List.forall_mem_nil _)⟩

/-- What follows a phrase keeps all in order, and does not save a refused one. -/
def Continues (V : Vocabulary) (fuel : Nat) (first : Reading Expr) (c : Cursor) (r : Reading Expr)
    (c' : Cursor) : Prop :=
  ∀ e, r = .ok e → ∃ x, first = .ok x ∧
    (16 * c.size + 5 ≤ fuel → ∀ n, After V n (x.Proper V) c → After V n (e.Proper V) c')

theorem Continues.refl (V : Vocabulary) (fuel : Nat) (first : Reading Expr) (c : Cursor) :
    Continues V fuel first c first c :=
  fun e he => ⟨e, he, fun _ _ hafter => hafter⟩

/-! ## Names and patterns -/

theorem moreNames_stuck {fuel : Nat} (hc : Stuck c) : moreNames fuel c = ([], c) := by
  cases fuel with
  | zero => rfl
  | succ fuel => simp [moreNames, hc.symbol?]

theorem Orderly.moreNames {fuel : Nat} {names : List String} (hc : Orderly V true c)
    (hread : moreNames fuel c = (names, c')) :
    After V (c.size + 1) (∀ n ∈ names, V.own n) c' := by
  induction fuel generalizing c names with
  | zero =>
      cases hread
      exact ⟨hc, Nat.lt_succ_self _, .inl (List.forall_mem_nil _)⟩
  | succ fuel ih =>
      unfold Parser.moreNames at hread
      split at hread
      · rename_i name c₂ hname
        obtain ⟨c₁, hcomma, hname⟩ := Option.bind_eq_some_iff.mp hname
        obtain ⟨hc₁, hlt⟩ := hc.symbol? hcomma (by decide)
        obtain ⟨hc₂, hlt', hown⟩ := hc₁.after_name hname
        cases hothers : Parser.moreNames fuel c₂ with
        | mk others c₃ =>
            rw [hothers] at hread
            cases hread
            obtain hown | hstuck := hown
            · have hrest := ih hc₂.relax hothers
              exact (hrest.mono (by omega)).imp fun h => List.forall_mem_cons.mpr ⟨hown, h⟩
            · rw [moreNames_stuck hstuck] at hothers
              cases hothers
              exact ⟨hc₂.relax, by omega, .inr hstuck⟩
      · cases hread
        exact ⟨hc, Nat.lt_succ_self _, .inl (List.forall_mem_nil _)⟩

theorem Orderly.arrayPattern {fuel : Nat} {r : Reading Pattern} (hc : Orderly V fresh c)
    (hread : arrayPattern fuel c = some (r, c')) :
    Sane V c.size (fun p => ∀ n ∈ p.names, V.own n) r c' := by
  intro p hp
  unfold Parser.arrayPattern at hread
  obtain ⟨c₁, hopen, hread⟩ := Option.bind_eq_some_iff.mp hread
  obtain ⟨hc₁, hlt⟩ := hc.symbol? hopen (by decide)
  dsimp only at hread
  split at hread
  · rename_i first c₂ hname
    obtain ⟨hc₂, hlt', hown⟩ := hc₁.after_name hname
    cases hothers : Parser.moreNames fuel c₂ with
    | mk others c₃ =>
        rw [hothers] at hread
        obtain ⟨c₄, hclose, heq⟩ := Option.bind_eq_some_iff.mp hread
        cases heq
        cases hp
        have hafter := hc₂.relax.moreNames hothers
        obtain ⟨hnames, hc₄, hsize⟩ := hafter.symbol? hclose (by decide) (by decide)
        refine ⟨hc₄.relax, by omega, .inl (List.forall_mem_cons.mpr ⟨?_, hnames⟩)⟩
        refine hown.resolve_right fun hstuck => ?_
        rw [moreNames_stuck hstuck] at hothers
        cases hothers
        rw [hstuck.symbol? (by decide)] at hclose
        cases hclose
  · obtain ⟨c₂, hclose, heq⟩ := Option.bind_eq_some_iff.mp hread
    cases heq
    cases hp
    obtain ⟨hc₂, hlt'⟩ := hc₁.symbol? hclose (by decide)
    exact ⟨hc₂.relax, by omega, .inl (List.forall_mem_nil _)⟩

theorem Orderly.binding {fuel : Nat} {r : Reading Pattern} (hc : Orderly V false c)
    (hread : binding fuel c = some (r, c')) :
    Sane V c.size (fun p => ∀ n ∈ p.names, V.own n) r c' := by
  unfold Parser.binding at hread
  split at hread
  · rename_i name c₁ hname
    cases hread
    rintro p hp
    cases hp
    obtain ⟨hc₁, hlt, hown⟩ := hc.after_name hname
    exact ⟨hc₁.relax, hlt, hown.imp_left List.forall_mem_singleton.mpr⟩
  · split at hread
    · rename_i phrase hphrase
      cases hread
      exact hc.arrayPattern hphrase
    · obtain ⟨c₁, -, heq⟩ := Option.map_eq_some_iff.mp hread
      cases heq
      exact fun p hp => by cases hp

theorem moreBindings_stuck {fuel : Nat} (hc : Stuck c) : moreBindings fuel c = ([], c) := by
  cases fuel with
  | zero => rfl
  | succ fuel => simp [moreBindings, hc.symbol?]

theorem Orderly.moreBindings {fuel : Nat} {rs : List (Reading Pattern)} (hc : Orderly V true c)
    (hread : moreBindings fuel c = (rs, c')) :
    Sane V (c.size + 1) (fun ps => ∀ p ∈ ps, ∀ n ∈ p.names, V.own n) (all rs) c' := by
  induction fuel generalizing c rs with
  | zero =>
      cases hread
      exact hc.sane_nil
  | succ fuel ih =>
      unfold Parser.moreBindings at hread
      split at hread
      · rename_i first c₂ hfirst
        obtain ⟨c₁, hcomma, hfirst⟩ := Option.bind_eq_some_iff.mp hfirst
        obtain ⟨hc₁, hlt⟩ := hc.symbol? hcomma (by decide)
        cases hothers : Parser.moreBindings fuel c₂ with
        | mk others c₃ =>
            rw [hothers] at hread
            cases hread
            refine Sane.cons (fun p hp => ((hc₁.binding hfirst) p hp).mono (by omega))
              (fun hc₂ _ => ih hc₂ hothers) fun hstuck => ?_
            rw [moreBindings_stuck hstuck] at hothers
            cases hothers
            exact ⟨rfl, rfl⟩
      · cases hread
        exact hc.sane_nil

theorem paramNames_eq_ok {pos : Position} {rs : List (Reading Pattern)} {names : List String}
    (h : paramNames pos rs = .ok names) : all rs = .ok (names.map Pattern.name) := by
  induction rs generalizing names with
  | nil =>
      cases h
      rfl
  | cons r rs ih =>
      cases r with
      | error => cases h
      | ok p =>
          cases p with
          | name name =>
              obtain ⟨others, hothers, h⟩ := exists_of_bind
                (x := paramNames pos rs) (f := fun others => .ok (name :: others)) h
              cases h
              exact all_cons_eq_ok.mpr ⟨_, _, rfl, ih hothers, rfl⟩
          | array names => cases h

theorem Orderly.params {fuel : Nat} {pos : Position} {rs : List (Reading Pattern)}
    {names : List String} (hc : Orderly V fresh c) (hread : params fuel c = some (rs, c'))
    (hnames : paramNames pos rs = .ok names) :
    (∀ n ∈ names, V.own n) ∧ Orderly V false c' ∧ c'.size < c.size := by
  unfold Parser.params at hread
  obtain ⟨c₁, hopen, hread⟩ := Option.bind_eq_some_iff.mp hread
  obtain ⟨hc₁, hlt⟩ := hc.symbol? hopen (by decide)
  dsimp only at hread
  split at hread
  · rename_i first c₂ hfirst
    cases hothers : Parser.moreBindings fuel c₂ with
    | mk others c₃ =>
        rw [hothers] at hread
        obtain ⟨c₄, hclose, heq⟩ := Option.bind_eq_some_iff.mp hread
        cases heq
        have hall : Sane V c₁.size (fun ps => ∀ p ∈ ps, ∀ n ∈ p.names, V.own n)
            (all (first :: others)) c₃ := by
          refine Sane.cons (hc₁.binding hfirst) (fun hc₂ _ => hc₂.moreBindings hothers)
            fun hstuck => ?_
          rw [moreBindings_stuck hstuck] at hothers
          cases hothers
          exact ⟨rfl, rfl⟩
        have hafter := hall _ (paramNames_eq_ok hnames)
        obtain ⟨hgood, hc₄, hsize⟩ := hafter.symbol? hclose (by decide) (by decide)
        exact ⟨fun n hn => hgood _ (List.mem_map_of_mem hn) n (List.mem_singleton_self n), hc₄,
          by omega⟩
  · obtain ⟨c₂, hclose, heq⟩ := Option.bind_eq_some_iff.mp hread
    cases heq
    cases hnames
    obtain ⟨hc₂, hlt'⟩ := hc₁.symbol? hclose (by decide)
    exact ⟨List.forall_mem_nil _, hc₂, by omega⟩

/-! ## Operators -/

theorem assign_eq_ok {pos : Position} {op : AssignOp} {target value : Reading Expr} {e : Expr}
    (h : Parser.assign pos op target value = .ok e) :
    ∃ x y, target = .ok x ∧ value = .ok y ∧ e = .assign pos op x y := by
  unfold Parser.assign at h
  cases target with
  | error => cases h
  | ok x =>
      simp only [bind, Except.bind] at h
      split at h
      · cases value with
        | error => cases h
        | ok y =>
            cases h
            exact ⟨x, y, rfl, rfl, rfl⟩
      · cases h

theorem update_eq_ok {pos : Position} {op : UpdateOp} {isPrefix : Bool} {target e : Expr}
    (h : Parser.update pos op isPrefix target = .ok e) : e = .update pos op isPrefix target := by
  unfold Parser.update at h
  split at h
  · cases h
    rfl
  · cases h

theorem applyPrefix_eq_ok {op : UpdateOp ⊕ UnaryOp} {pos : Position} {operand : Reading Expr}
    {e : Expr} (h : applyPrefix op pos operand = .ok e) :
    ∃ x, operand = .ok x ∧ (x.Proper V → e.Proper V) := by
  cases operand with
  | error => cases h
  | ok x =>
      refine ⟨x, rfl, fun hx => ?_⟩
      cases op with
      | inl op =>
          rw [update_eq_ok h]
          exact hx
      | inr op =>
          cases h
          exact hx

theorem applyPostfix_eq_ok {target : Reading Expr} {op : UpdateOp} {e : Expr}
    (h : applyPostfix target op = .ok e) :
    ∃ x, target = .ok x ∧ (x.Proper V → e.Proper V) := by
  cases target with
  | error => cases h
  | ok x =>
      refine ⟨x, rfl, fun hx => ?_⟩
      rw [update_eq_ok h]
      exact hx

/-- A list of waiting operands or of operators with operands, none of which is refused. -/
def AllProper (V : Vocabulary) (operands : List (Reading Expr)) : Prop :=
  ∀ r ∈ operands, ∀ x, r = .ok x → x.Proper V

theorem binary_eq_ok {left right : Reading Expr} {op : BinaryOp} {e : Expr}
    (h : Parser.binary left op right = .ok e) :
    ∃ x y, left = .ok x ∧ right = .ok y ∧ e = .binary x.pos op x y := by
  cases left with
  | error => cases h
  | ok x =>
      cases right with
      | error => cases h
      | ok y =>
          cases h
          exact ⟨x, y, rfl, rfl, rfl⟩

theorem reduce_ok {least : Nat} {pending pending' : Pending} {e e' : Reading Expr}
    (h : reduce least pending e = (pending', e')) :
    ((∀ p ∈ pending', ∃ x, p.1 = .ok x) → (∃ x, e' = .ok x) →
      (∀ p ∈ pending, ∃ x, p.1 = .ok x) ∧ ∃ x, e = .ok x) ∧
    (AllProper V (e :: pending.map (·.1)) → AllProper V (e' :: pending'.map (·.1))) := by
  induction pending generalizing e with
  | nil =>
      cases h
      exact ⟨fun hp he => ⟨hp, he⟩, id⟩
  | cons p pending ih =>
      obtain ⟨left, op⟩ := p
      unfold reduce at h
      split at h
      · obtain ⟨hok, hproper⟩ := ih h
        constructor
        · intro hp he
          obtain ⟨hpending, x, hx⟩ := hok hp he
          obtain ⟨y, z, rfl, rfl, -⟩ := binary_eq_ok hx
          exact ⟨List.forall_mem_cons.mpr ⟨⟨y, rfl⟩, hpending⟩, z, rfl⟩
        · intro hall
          obtain ⟨he, hleft, hpending⟩ : (∀ x, e = .ok x → x.Proper V) ∧
              (∀ x, left = .ok x → x.Proper V) ∧ AllProper V (pending.map (·.1)) := by
            simpa [AllProper] using hall
          refine hproper (List.forall_mem_cons.mpr ⟨fun x hx => ?_, hpending⟩)
          obtain ⟨y, z, rfl, rfl, rfl⟩ := binary_eq_ok hx
          exact ⟨hleft y rfl, he z rfl⟩
      · cases h
        exact ⟨fun hp he => ⟨hp, he⟩, id⟩

theorem combine_ok {pending : Pending} {e : Reading Expr}
    {operands : List (BinaryOp × Reading Expr)} {x : Expr} (h : combine pending e operands = .ok x) :
    ((∀ p ∈ pending, ∃ x, p.1 = .ok x) ∧ (∃ x, e = .ok x) ∧ ∀ p ∈ operands, ∃ x, p.2 = .ok x) ∧
    (AllProper V (e :: pending.map (·.1)) → AllProper V (operands.map (·.2)) → x.Proper V) := by
  induction operands generalizing pending e with
  | nil =>
      unfold combine at h
      have hreduce : reduce 0 pending e = ((reduce 0 pending e).1, (reduce 0 pending e).2) := rfl
      obtain ⟨hok, hproper⟩ := reduce_ok (V := V) hreduce
      have hempty : (reduce 0 pending e).1 = [] := by
        clear h hok hproper hreduce
        induction pending generalizing e with
        | nil => rfl
        | cons p pending ih =>
            rw [reduce, if_pos (Nat.zero_le _)]
            exact ih
      obtain ⟨hpending, he⟩ := hok (by simp [hempty]) ⟨x, h⟩
      exact ⟨⟨hpending, he, List.forall_mem_nil _⟩, fun hall _ => hproper hall _ List.mem_cons_self _ h⟩
  | cons p operands ih =>
      obtain ⟨op, right⟩ := p
      unfold combine at h
      obtain ⟨⟨hpending, hright, hoperands⟩, hproper⟩ := ih h
      have hreduce : reduce op.precedence pending e =
          ((reduce op.precedence pending e).1, (reduce op.precedence pending e).2) := rfl
      obtain ⟨hok, hreduced⟩ := reduce_ok (V := V) hreduce
      obtain ⟨hleft, hpending⟩ := List.forall_mem_cons.mp hpending
      obtain ⟨hp, he⟩ := hok hpending hleft
      refine ⟨⟨hp, he, List.forall_mem_cons.mpr ⟨hright, hoperands⟩⟩, fun hall hops => ?_⟩
      obtain ⟨hop, hops⟩ := List.forall_mem_cons.mp hops
      exact hproper (List.forall_mem_cons.mpr ⟨hop, hreduced hall⟩) hops

/-! ## Keys and bodies -/

theorem Orderly.objectKey? {key : String} {c₁ : Cursor} (hc : Orderly V true c)
    (hkey : objectKey? c = some (key, c₁)) (hcolon : c₁.symbol? ":" = some c') :
    Orderly V false c' ∧ c'.size < c.size := by
  obtain ⟨cpos, hcolon⟩ := Cursor.symbol?_eq_some_iff.mp hcolon
  have hlt : c'.size < c₁.size := Cursor.next?_size hcolon
  unfold Parser.objectKey? at hkey
  split at hkey
  · rename_i w pos rest hnext
    cases hkey
    have hlt' : c₁.size < c.size := Cursor.next?_size hnext
    exact ⟨hc.after_key hnext hcolon, by omega⟩
  · rename_i s pos rest hnext
    cases hkey
    have hlt' : c₁.size < c.size := Cursor.next?_size hnext
    exact ⟨(hc.after_string hnext).after_symbol hcolon (by decide), by omega⟩
  · cases hkey

theorem properList_asBody {s : Option Stmt} (h : ∀ t ∈ s, t.Proper V) :
    Stmt.ProperList V (asBody s) := by
  match s with
  | none => trivial
  | some (.block pos body) => exact (h _ rfl).resolve_left V.not_block
  | some (.declare ..) | some (.function ..) | some (.ifElse ..) | some (.whileDo ..)
  | some (.labeled ..) | some (.breakTo ..) | some (.returnWith ..) | some (.expr ..) =>
      exact ⟨h _ rfl, trivial⟩

theorem declKind?_next {kind : DeclKind} (h : declKind? c = some (kind, rest)) :
    ∃ pos, c.next? = some ⟨.word kind.keyword, pos, rest⟩ := by
  unfold declKind? at h
  split at h
  · rename_i hkeyword
    cases h
    exact Cursor.keyword?_eq_some_iff.mp hkeyword
  · rename_i hkeyword _
    cases h
    exact Cursor.keyword?_eq_some_iff.mp hkeyword
  · rename_i hkeyword _ _
    cases h
    exact Cursor.keyword?_eq_some_iff.mp hkeyword
  · cases h

end TraceLoom.Script
