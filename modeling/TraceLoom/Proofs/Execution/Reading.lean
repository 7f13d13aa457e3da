import TraceLoom.Proofs.Execution.Stores

/-!
What is read from corresponding values and stores: texts, JSON and comparisons are equal, and parts
correspond.
-/

namespace TraceLoom

open Numeric Script Text

variable {P : Expectation} {W W' : World} {s t : Store} {v v' w w' : Value}

/-! ## Kinds of values -/

namespace ValueRel

theorem typeName_eq (h : ValueRel P W v v') : v'.typeName = v.typeName := by
  cases h <;> rfl

theorem describe_eq (h : ValueRel P W v v') : v'.describe = v.describe := by
  cases h <;> rfl

theorem isCallable_eq (h : ValueRel P W v v') : v'.isCallable = v.isCallable := by
  cases h <;> rfl

theorem isNullish_eq (h : ValueRel P W v v') : v'.isNullish = v.isNullish := by
  cases h <;> rfl

theorem isTruthy_eq (h : ValueRel P W v v') : v'.isTruthy = v.isTruthy := by
  cases h <;> rfl

theorem toNumber_eq (h : ValueRel P W v v') : v'.toNumber = v.toNumber := by
  cases h <;> rfl

theorem unary (h : ValueRel P W v v') (op : UnaryOp) : ValueRel P W (v.unary op) (v'.unary op) := by
  cases op with
  | not => simpa only [Value.unary, h.isTruthy_eq] using .boolean _
  | neg | plus => simpa only [Value.unary, h.toNumber_eq] using .number _
  | typeof => simpa only [Value.unary, h.typeName_eq] using .string _
  | void => exact .undefined

end ValueRel

theorem map_eq_map_of_forall₂ {α β γ : Type} {r : α → β → Prop} {f : α → γ} {g : β → γ}
    {xs : List α} {ys : List β} (h : List.Forall₂ r xs ys) (hfg : ∀ x y, r x y → g y = f x) :
    ys.map g = xs.map f := by
  induction h with
  | nil => rfl
  | cons hxy _ ih => rw [List.map_cons, List.map_cons, hfg _ _ hxy, ih]

/-! ## Texts -/

namespace StoreRel

theorem textWithin_eq (h : StoreRel P W s t) (depth : Nat) (hv : ValueRel P W v v') :
    t.textWithin depth v' = s.textWithin depth v := by
  induction depth generalizing v v' with
  | zero => rfl
  | succ depth ih =>
      cases hv with
      | array hab =>
          refine congrArg (",".intercalate ·) (map_eq_map_of_forall₂ (h.items hab) ?_)
          intro x y hxy
          rw [hxy.isNullish_eq, ih hxy]
      | function _ hc => simp [Store.textWithin, hc.name]
      | _ => rfl

theorem text_eq (h : StoreRel P W s t) (hv : ValueRel P W v v') : t.text v' = s.text v :=
  h.textWithin_eq _ hv

theorem lookWithin_eq (h : StoreRel P W s t) (depth : Nat) (hv : ValueRel P W v v') :
    t.lookWithin depth v' = s.lookWithin depth v := by
  induction depth generalizing v v' with
  | zero => rfl
  | succ depth ih =>
      cases hv with
      | array hab =>
          have hitems := h.items hab
          have hlooks := map_eq_map_of_forall₂ hitems fun x y hxy => ih hxy
          unfold Store.lookWithin
          dsimp only
          generalize (s.items _).toList = xs, (t.items _).toList = ys at hitems hlooks ⊢
          cases hitems with
          | nil => rfl
          | cons => exact congrArg (fun looks => "[ " ++ ", ".intercalate looks ++ " ]") hlooks
      | object hab =>
          have hfields := h.properties hab
          have hlooks := map_eq_map_of_forall₂ hfields (γ := String)
            (f := fun field => field.1 ++ ": " ++ s.lookWithin depth field.2)
            (g := fun field => field.1 ++ ": " ++ t.lookWithin depth field.2)
            fun x y hxy => by rw [hxy.1, ih hxy.2]
          unfold Store.lookWithin
          dsimp only
          generalize s.properties _ = fs, t.properties _ = gs at hfields hlooks ⊢
          cases hfields with
          | nil => rfl
          | cons =>
              exact congrArg (fun looks => "\x7b " ++ ", ".intercalate looks ++ " \x7d") hlooks
      | function _ hc => simp [Store.lookWithin, hc.name]
      | undefined => exact h.text_eq .undefined
      | null => exact h.text_eq .null
      | boolean b => exact h.text_eq (.boolean b)
      | number x => exact h.text_eq (.number x)
      | string => rfl
      | native n => exact h.text_eq (.native n)
      | trace hij u => exact h.text_eq (.trace hij u)

theorem inspect_eq (h : StoreRel P W s t) (hv : ValueRel P W v v') :
    t.inspect v' = s.inspect v := by
  have hlook : t.look v' = s.look v := h.lookWithin_eq _ hv
  cases hv with
  | string => rfl
  | _ => exact hlook

theorem jsonWithin_eq (h : StoreRel P W s t) (depth : Nat) (hv : ValueRel P W v v') :
    t.jsonWithin depth v' = s.jsonWithin depth v := by
  induction depth generalizing v v' with
  | zero => rfl
  | succ depth ih =>
      cases hv with
      | array hab =>
          exact congrArg Json.array (map_eq_map_of_forall₂ (h.items hab) fun x y hxy => ih hxy)
      | object hab =>
          refine congrArg (fun fields => Json.object (Fields.sort fields))
            (map_eq_map_of_forall₂ (h.properties hab) fun x y hxy => ?_)
          rw [hxy.1, ih hxy.2]
      | _ => rfl

theorem toJson_eq (h : StoreRel P W s t) (hv : ValueRel P W v v') : t.toJson v' = s.toJson v :=
  h.jsonWithin_eq _ hv

/-! ## Comparisons and operators -/

theorem strictEquals_eq (h : StoreRel P W s t) (hv : ValueRel P W v v') (hw : ValueRel P W w w') :
    v'.strictEquals w' = v.strictEquals w := by
  have hplaces {places : List Nat} {size size' a b c d : Nat}
      (hp : Counterparts places size size') (hab : places[a]? = some b)
      (hcd : places[c]? = some d) : (b == d) = (a == c) := by
    rw [Bool.eq_iff_iff, beq_iff_eq, beq_iff_eq, hp.eq_iff hab hcd]
  cases hv <;> cases hw <;> first
    | rfl
    | exact hplaces h.arrays ‹_› ‹_›
    | exact hplaces h.objects ‹_› ‹_›
    | exact hplaces h.identities ‹_› ‹_›

theorem looseEquals_eq (h : StoreRel P W s t) (hv : ValueRel P W v v') (hw : ValueRel P W w w') :
    v'.looseEquals w' = v.looseEquals w := by
  rw [Value.looseEquals, Value.looseEquals, hv.isNullish_eq, hw.isNullish_eq,
    h.strictEquals_eq hv hw]

theorem sameValue_eq (h : StoreRel P W s t) (hv : ValueRel P W v v') (hw : ValueRel P W w w') :
    v'.sameValue w' = v.sameValue w := by
  have hstrict := h.strictEquals_eq hv hw
  cases hv <;> cases hw <;> first | rfl | exact hstrict

theorem order_eq (hv : ValueRel P W v v') (hw : ValueRel P W w w') :
    v'.order w' = v.order w := by
  cases hv <;> cases hw <;> rfl

theorem binary (h : StoreRel P W s t) (op : BinaryOp) (hv : ValueRel P W v v')
    (hw : ValueRel P W w w') : ValueRel P W (s.binary op v w) (t.binary op v' w') := by
  cases op with
  | add =>
      have htext := h.text_eq hw
      have htext' := h.text_eq hv
      have hnumbers := And.intro hv.toNumber_eq hw.toNumber_eq
      cases hv <;> cases hw <;>
        simp only [Store.binary, htext, htext', hnumbers] <;> constructor
  | sub | mul | div | mod =>
      simpa only [Store.binary, hv.toNumber_eq, hw.toNumber_eq] using .number _
  | strictEq | strictNe => simpa only [Store.binary, h.strictEquals_eq hv hw] using .boolean _
  | looseEq | looseNe => simpa only [Store.binary, h.looseEquals_eq hv hw] using .boolean _
  | lt | gt | le | ge => simpa only [Store.binary, order_eq hv hw] using .boolean _
  | and | or =>
      simp only [Store.binary, hv.isTruthy_eq]
      split <;> assumption

end StoreRel

/-! ## Parts -/

/-- Two readings fail with the same error, or their results correspond. -/
inductive ResultRel {α β : Type} (r : α → β → Prop) : Except EvalError α → Except EvalError β → Prop
  | ok {a : α} {b : β} (h : r a b) : ResultRel r (.ok a) (.ok b)
  | error {e : EvalError} (h : ∀ cause, e ≠ .trace cause) : ResultRel r (.error e) (.error e)

namespace FieldsRel

variable {fs gs : Fields Value}

theorem get? (h : FieldsRel P W fs gs) (n : String) :
    Option.Rel (ValueRel P W) (fs.get? n) (gs.get? n) := by
  induction h with
  | nil => exact .none
  | @cons x y _ _ hxy _ ih =>
      rw [Fields.get?, Fields.get?, hxy.1]
      split
      · exact .some hxy.2
      · exact ih

theorem insert (h : FieldsRel P W fs gs) (n : String) (hv : ValueRel P W v v') :
    FieldsRel P W (fs.insert n v) (gs.insert n v') :=
  Fields.forall₂_insert h n hv

theorem insertSorted (h : FieldsRel P W fs gs) (n : String) (hv : ValueRel P W v v') :
    FieldsRel P W (fs.insertSorted n v) (gs.insertSorted n v') := by
  induction h with
  | nil => exact .cons ⟨rfl, hv⟩ .nil
  | @cons x y xs ys hxy hrest ih =>
      rw [Fields.insertSorted, Fields.insertSorted, hxy.1]
      split
      · exact .cons ⟨rfl, hv⟩ (.cons ⟨rfl, hxy.2⟩ hrest)
      · split
        · exact .cons ⟨rfl, hv⟩ hrest
        · exact .cons ⟨rfl, hxy.2⟩ ih

theorem ofPairs (h : FieldsRel P W fs gs) : FieldsRel P W (.ofPairs fs) (.ofPairs gs) :=
  Fields.forall₂_ofPairs h

theorem sort (h : FieldsRel P W fs gs) : FieldsRel P W fs.sort gs.sort :=
  Fields.forall₂_foldl (fun hfs hname hv => hname ▸ insertSorted hfs _ hv) h .nil

end FieldsRel

theorem ValueRel.getD {x y : Option Value} (h : Option.Rel (ValueRel P W) x y) :
    ValueRel P W (x.getD .undefined) (y.getD .undefined) := by
  cases h with
  | some hv => exact hv
  | none => exact .undefined

theorem rel_getElem? {α β : Type} {r : α → β → Prop} {xs : List α} {ys : List β}
    (h : List.Forall₂ r xs ys) (i : Nat) : Option.Rel r xs[i]? ys[i]? := by
  induction h generalizing i with
  | nil => exact .none
  | cons hxy _ ih =>
      cases i with
      | zero => exact .some hxy
      | succ i => simpa using ih i

theorem rel_set {α β : Type} {r : α → β → Prop} {xs : List α} {ys : List β}
    (h : List.Forall₂ r xs ys) (i : Nat) {x : α} {y : β} (hxy : r x y) :
    List.Forall₂ r (xs.set i x) (ys.set i y) := by
  induction h generalizing i with
  | nil => exact .nil
  | cons hold hrest ih =>
      cases i with
      | zero => exact .cons hxy hrest
      | succ i => exact .cons hold (ih i)

theorem rel_replicate {α β : Type} {r : α → β → Prop} (n : Nat) {x : α} {y : β} (hxy : r x y) :
    List.Forall₂ r (List.replicate n x) (List.replicate n y) := by
  induction n with
  | zero => exact .nil
  | succ n ih => exact .cons hxy ih

/-- Locations correspond. -/
inductive LocationRel (W : World) : Location → Location → Prop
  | binding {a b : ScopeId} {n : String} (h : W.scopes[a]? = some b) (hn : ¬ Hidden n) :
      LocationRel W (.variable a n) (.variable b n)
  | item {a b : Nat} (i : Nat) (h : W.arrays[a]? = some b) : LocationRel W (.item a i) (.item b i)
  | property {a b : Nat} (n : String) (h : W.objects[a]? = some b) :
      LocationRel W (.property a n) (.property b n)

/-- Methods correspond. -/
inductive MethodRel (W : World) : Method → Method → Prop
  | push {a b : Nat} (h : W.arrays[a]? = some b) : MethodRel W (.push a) (.push b)
  | pop {a b : Nat} (h : W.arrays[a]? = some b) : MethodRel W (.pop a) (.pop b)
  | shift {a b : Nat} (h : W.arrays[a]? = some b) : MethodRel W (.shift a) (.shift b)
  | unshift {a b : Nat} (h : W.arrays[a]? = some b) : MethodRel W (.unshift a) (.unshift b)
  | contains {a b : Nat} (h : W.arrays[a]? = some b) : MethodRel W (.contains a) (.contains b)
  | startsWith (u : String) : MethodRel W (.startsWith u) (.startsWith u)
  | endsWith (u : String) : MethodRel W (.endsWith u) (.endsWith u)
  | includes (u : String) : MethodRel W (.includes u) (.includes u)

namespace StoreRel

theorem items_getElem? (h : StoreRel P W s t) {a b : Nat} (hab : W.arrays[a]? = some b) (i : Nat) :
    Option.Rel (ValueRel P W) (s.items a)[i]? (t.items b)[i]? := by
  simpa using rel_getElem? (h.items hab) i

theorem size_items (h : StoreRel P W s t) {a b : Nat} (hab : W.arrays[a]? = some b) :
    (t.items b).size = (s.items a).size := by
  simpa using (h.items hab).length_eq.symm

theorem property (h : StoreRel P W s t) (hv : ValueRel P W v v') (n : String) :
    ResultRel (ValueRel P W) (s.property v n) (t.property v' n) := by
  cases hv with
  | array hab =>
      refine .ok ?_
      rw [h.size_items hab]
      split
      · exact .number _
      · exact .undefined
  | object hab => exact .ok (.getD ((h.properties hab).get? n))
  | string u =>
      refine .ok ?_
      split
      · exact .number _
      · exact .undefined
  | undefined | null => exact .error nofun
  | _ => exact .ok .undefined

theorem element (h : StoreRel P W s t) (hv : ValueRel P W v v') (hw : ValueRel P W w w') :
    ResultRel (ValueRel P W) (s.element v w) (t.element v' w') := by
  have hproperty : ResultRel (ValueRel P W) (s.property v (s.text w)) (t.property v' (t.text w')) :=
    h.text_eq hw ▸ h.property hv (s.text w)
  cases hv with
  | array hab =>
      cases hw with
      | number x =>
          refine .ok (.getD ?_)
          cases Value.slot? x with
          | none => exact .none
          | some i => exact h.items_getElem? hab i
      | _ => exact hproperty
  | string u =>
      cases hw with
      | number x =>
          refine .ok (.getD ?_)
          cases Value.slot? x with
          | none => exact .none
          | some i =>
              simp only [Option.bind_some]
              cases (units u.toList)[i]? with
              | none => exact .none
              | some c => exact .some (.string _)
      | _ => exact hproperty
  | _ => exact hproperty

/-! ## Variables -/

theorem find? (h : StoreRel P W s t) {n : String} (hn : ¬ Hidden n) {scopes scopes' : List ScopeId}
    (hscopes : List.Forall₂ (fun scope scope' => W.scopes[scope]? = some scope') scopes scopes') :
    Option.Rel (fun x y => W.scopes[x.1]? = some y.1 ∧ VariableRel P W x.2 y.2)
      (s.find? n scopes) (t.find? n scopes') := by
  induction hscopes with
  | nil => exact .none
  | @cons a b _ _ hab _ ih =>
      rw [Store.find?, Store.find?]
      have hget := h.bindings hab hn
      generalize (s.bindings a).get? n = x, (t.bindings b).get? n = y at hget ⊢
      cases hget with
      | some hx => exact .some ⟨hab, hx⟩
      | none => exact ih

theorem lookup? (h : StoreRel P W s t) {env env' : Environment} (henv : EnvRel W env env')
    {n : String} (hn : ¬ Hidden n) :
    Option.Rel (ValueRel P W) (s.lookup? env n) (t.lookup? env' n) := by
  rw [Store.lookup?, Store.lookup?]
  have hfind := h.find? hn henv.scopes
  generalize s.find? n _ = x, t.find? n _ = y at hfind ⊢
  cases hfind with
  | some hx => exact .some hx.2.value
  | none => exact .none

theorem variableLocation (h : StoreRel P W s t) {env env' : Environment} (henv : EnvRel W env env')
    {n : String} (hn : ¬ Hidden n) :
    ResultRel (LocationRel W) (s.variableLocation env n) (t.variableLocation env' n) := by
  rw [Store.variableLocation, Store.variableLocation, Store.assignable, Store.assignable]
  have hfind := h.find? hn henv.scopes
  generalize s.find? n _ = x, t.find? n _ = y at hfind ⊢
  cases hfind with
  | @some x y hx =>
      dsimp only
      rw [hx.2.constant]
      split
      · exact .error nofun
      · exact .ok (.binding hx.1 hn)
  | none => exact .error nofun

theorem partLocation (h : StoreRel P W s t) (limit : Nat) (hv : ValueRel P W v v')
    (hw : ValueRel P W w w') :
    ResultRel (LocationRel W) (s.partLocation limit v w) (t.partLocation limit v' w') := by
  have htext := h.text_eq hw
  cases hv with
  | array hab =>
      cases hw with
      | number x =>
          rw [Store.partLocation, Store.partLocation]
          split
          · rw [htext]
            exact .error nofun
          · split
            · exact .ok (.item _ hab)
            · exact .error nofun
      | _ =>
          simp only [Store.partLocation, htext]
          exact .error nofun
  | object hab =>
      simp only [Store.partLocation, htext]
      exact .ok (.property _ hab)
  | _ =>
      simp only [Store.partLocation, htext]
      exact .error nofun

theorem setItem (i : Nat) (hv : ValueRel P W v v') {xs ys : Array Value}
    (hxs : List.Forall₂ (ValueRel P W) xs.toList ys.toList) :
    List.Forall₂ (ValueRel P W) (Store.setItem i v xs).toList (Store.setItem i v' ys).toList := by
  have hsize : ys.size = xs.size := by simpa using hxs.length_eq.symm
  simp only [Store.setItem, hsize]
  split
  · simp only [Array.toList_setIfInBounds]
    exact rel_set hxs i hv
  · simp only [Array.toList_push, Array.toList_append, Array.toList_replicate]
    exact List.rel_append (List.rel_append hxs (rel_replicate _ .undefined)) (.cons hv .nil)

theorem put (h : StoreRel P W s t) {l l' : Location} (hl : LocationRel W l l')
    (hv : ValueRel P W v v') : StoreRel P W (s.put l v) (t.put l' v') := by
  cases hl with
  | binding hab hn => exact h.write hab hn ⟨hv, rfl⟩
  | item i hab => exact h.modifyItems hab (setItem i hv (h.items hab))
  | property n hab => exact h.modifyProperties hab ((h.properties hab).insert n hv)

theorem destructure (h : StoreRel P W s t) (names : List String) (hv : ValueRel P W v v') :
    ResultRel (FieldsRel P W) (s.destructure names v) (t.destructure names v') := by
  cases hv with
  | array hab =>
      refine .ok (List.forall₂_map_left_iff.mpr (List.forall₂_map_right_iff.mpr ?_))
      exact List.forall₂_same.mpr fun entry _ => ⟨rfl, .getD (h.items_getElem? hab entry.2)⟩
  | _ => exact .error nofun

/-! ## Methods -/

theorem invoke (h : StoreRel P W s t) {m m' : Method} (hm : MethodRel W m m') {vs ws : List Value}
    (hvs : List.Forall₂ (ValueRel P W) vs ws) :
    StoreRel P W (s.invoke m vs).2 (t.invoke m' ws).2 ∧
      ValueRel P W (s.invoke m vs).1 (t.invoke m' ws).1 := by
  have hfirst : ValueRel P W (vs.head?.getD .undefined) (ws.head?.getD .undefined) := by
    cases hvs with
    | nil => exact .undefined
    | cons hv _ => exact hv
  have hcount {s t : Store} (h : StoreRel P W s t) {a b : Nat} (hab : W.arrays[a]? = some b) :
      ValueRel P W (Store.count (s.items a).size) (Store.count (t.items b).size) :=
    h.size_items hab ▸ .number _
  cases hm with
  | @push a b hab =>
      have hmodified : StoreRel P W (s.modifyItems a (· ++ vs)) (t.modifyItems b (· ++ ws)) :=
        h.modifyItems hab (by simpa using List.rel_append (h.items hab) hvs)
      exact ⟨hmodified, hcount hmodified hab⟩
  | pop hab =>
      refine ⟨h.modifyItems hab ?_, .getD ?_⟩
      · rw [Array.toList_pop, Array.toList_pop, List.dropLast_eq_take, List.dropLast_eq_take,
          (h.items hab).length_eq]
        exact List.forall₂_take _ (h.items hab)
      · rw [Array.back?_eq_getElem?, Array.back?_eq_getElem?, h.size_items hab]
        exact h.items_getElem? hab _
  | shift hab =>
      refine ⟨h.modifyItems hab ?_, .getD (h.items_getElem? hab 0)⟩
      simp only [Array.toList_extract, List.extract_eq_take_drop, h.size_items hab]
      exact List.forall₂_take _ (List.forall₂_drop _ (h.items hab))
  | @unshift a b hab =>
      have hmodified :
          StoreRel P W (s.modifyItems a (vs.toArray ++ ·)) (t.modifyItems b (ws.toArray ++ ·)) :=
        h.modifyItems hab (by simpa using List.rel_append hvs (h.items hab))
      exact ⟨hmodified, hcount hmodified hab⟩
  | @contains a b hab =>
      have hany : (t.items b).any (fun item => item.sameValue (ws.head?.getD .undefined)) =
          (s.items a).any (fun item => item.sameValue (vs.head?.getD .undefined)) := by
        rw [← Array.any_toList, ← Array.any_toList]
        have hitems := h.items hab
        generalize (s.items a).toList = xs, (t.items b).toList = ys at hitems
        induction hitems with
        | nil => rfl
        | cons hxy _ ih => rw [List.any_cons, List.any_cons, h.sameValue_eq hxy hfirst, ih]
      refine ⟨h, ?_⟩
      simp only [Store.invoke, hany]
      exact .boolean _
  | startsWith u | endsWith u | includes u =>
      refine ⟨h, ?_⟩
      simp only [Store.invoke, h.text_eq hfirst]
      exact .boolean _

end StoreRel

theorem Method.find?_rel (hv : ValueRel P W v v') (n : String) :
    Option.Rel (MethodRel W) (Method.find? v n) (Method.find? v' n) := by
  cases hv with
  | array hab =>
      by_cases h₁ : n = "push"
      · exact h₁ ▸ .some (.push hab)
      by_cases h₂ : n = "pop"
      · exact h₂ ▸ .some (.pop hab)
      by_cases h₃ : n = "shift"
      · exact h₃ ▸ .some (.shift hab)
      by_cases h₄ : n = "unshift"
      · exact h₄ ▸ .some (.unshift hab)
      by_cases h₅ : n = "includes"
      · exact h₅ ▸ .some (.contains hab)
      simp [Method.find?, h₁, h₂, h₃, h₄, h₅]
  | string u =>
      by_cases h₁ : n = "startsWith"
      · exact h₁ ▸ .some (.startsWith u)
      by_cases h₂ : n = "endsWith"
      · exact h₂ ▸ .some (.endsWith u)
      by_cases h₃ : n = "includes"
      · exact h₃ ▸ .some (.includes u)
      simp [Method.find?, h₁, h₂, h₃]
  | _ => exact .none

end TraceLoom
