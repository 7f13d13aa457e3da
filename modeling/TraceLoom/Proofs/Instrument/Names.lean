import TraceLoom.Instrument.Names
import TraceLoom.Proofs.Fields

/-!
What the operations on names do to the view of a single name.  Using names only ever adds
captures, whatever scopes were opened and left in between.
-/

namespace TraceLoom.Names

variable {ν ν' ν'' : Names} {n : String} {used more bound : List String}

theorem lookup_eq_none_iff : ν.lookup n = Option.none ↔ n ∉ Fields.keys ν := by
  rw [lookup, Option.map_eq_none_iff, Fields.get?_eq_none_iff]

theorem lookup_eq_some_iff (hν : (Fields.keys ν).Nodup) {b : Binding} :
    ν.lookup n = some b ↔ ∃ pos, (n, ⟨b, pos⟩) ∈ ν := by
  rw [lookup, Option.map_eq_some_iff]
  constructor
  · rintro ⟨⟨b', pos⟩, hget, rfl⟩
    exact ⟨pos, Fields.mem_of_get? hget⟩
  · rintro ⟨pos, hmem⟩
    exact ⟨_, Fields.get?_of_mem hν hmem, rfl⟩

theorem lookup_append (ν : Names) (m n : String) (s : Sighting) :
    lookup (ν ++ [(m, s)]) n =
      (ν.lookup n).or (if m = n then some s.binding else Option.none) := by
  induction ν with
  | nil => by_cases h : m = n <;> simp [lookup, Fields.get?, h]
  | cons entry rest ih =>
      obtain ⟨key, old⟩ := entry
      by_cases h : key = n
      · simp [lookup, Fields.get?, h]
      · simpa [lookup, Fields.get?, h] using ih

theorem nodup_append {m : String} {s : Sighting} (hν : (Fields.keys ν).Nodup)
    (hm : ν.lookup m = Option.none) : (Fields.keys (ν ++ [(m, s)])).Nodup := by
  have hkeys : Fields.keys (ν ++ [(m, s)]) = Fields.keys ν ++ [m] := by simp [Fields.keys]
  rw [hkeys, ← List.concat_eq_append, List.nodup_concat]
  exact ⟨lookup_eq_none_iff.mp hm, hν⟩

/-! ## Binding -/

/-- The names of `bound` are bound here, and all others are seen as before. -/
structure Binds (ν : Names) (bound : List String) (ν' : Names) : Prop where
  lookup : ∀ n, ν'.lookup n = if n ∈ bound then some .own else ν.lookup n
  nodup : (Fields.keys ν).Nodup → (Fields.keys ν').Nodup

theorem Binds.refl (ν : Names) : ν.Binds [] ν :=
  ⟨fun n => by simp, id⟩

theorem Binds.trans (h : ν.Binds bound ν') (h' : ν'.Binds more ν'') :
    ν.Binds (bound ++ more) ν'' := by
  refine ⟨fun n => ?_, fun hν => h'.nodup (h.nodup hν)⟩
  rw [h'.lookup, h.lookup]
  by_cases hn : n ∈ bound <;> by_cases hm : n ∈ more <;> simp [hn, hm]

theorem binds_bind (ν : Names) (m : String) (pos : Script.Position) :
    ν.Binds [m] (ν.bind m pos) := by
  unfold bind
  by_cases hown : ν.lookup m = some .own
  · rw [if_pos hown]
    refine ⟨fun n => ?_, id⟩
    by_cases hn : n = m
    · simp [hn, hown]
    · simp [hn]
  · rw [if_neg hown]
    refine ⟨fun n => ?_, fun hν => ?_⟩
    · by_cases hn : n = m
      · subst hn
        simp [Names.lookup]
      · simp [hn, Names.lookup, Fields.get?_insert_of_ne hn]
    · by_cases hmem : m ∈ Fields.keys ν
      · rwa [Fields.keys_insert_of_mem _ hmem]
      · rw [Fields.keys_insert_of_not_mem _ hmem, ← List.concat_eq_append, List.nodup_concat]
        exact ⟨hmem, hν⟩

theorem binds_ofParams (params : List String) (pos : Script.Position) :
    Names.none.Binds params (Names.ofParams params pos) := by
  have hfold : ∀ ν : Names,
      ν.Binds params (params.foldl (fun names param => names.bind param pos) ν) := by
    induction params with
    | nil => exact Binds.refl
    | cons param params ih => exact fun ν => (binds_bind ν param pos).trans (ih _)
  exact hfold _

/-! ## Using -/

/-- The names of `used` are seen besides the old ones, and those that are new are captured. -/
structure Uses (ν : Names) (used : List String) (ν' : Names) : Prop where
  keeps : ∀ {n b}, ν.lookup n = some b → ν'.lookup n = some b
  adds : ∀ {n}, ν.lookup n = Option.none →
    ν'.lookup n = if n ∈ used then some .captured else Option.none
  nodup : (Fields.keys ν).Nodup → (Fields.keys ν').Nodup

namespace Uses

theorem refl (ν : Names) : ν.Uses [] ν :=
  ⟨id, fun h => by simpa using h, id⟩

theorem trans (h : ν.Uses used ν') (h' : ν'.Uses more ν'') : ν.Uses (used ++ more) ν'' := by
  refine ⟨fun hn => h'.keeps (h.keeps hn), fun {n} hn => ?_, fun hν => h'.nodup (h.nodup hν)⟩
  have hadds := h.adds hn
  by_cases hused : n ∈ used
  · rw [if_pos hused] at hadds
    simp [hused, h'.keeps hadds]
  · rw [if_neg hused] at hadds
    simp [hused, h'.adds hadds]

theorem congr (h : ν.Uses used ν') (hmem : ∀ n, n ∈ used ↔ n ∈ more) : ν.Uses more ν' :=
  ⟨h.keeps, fun hn => by simpa [hmem] using h.adds hn, h.nodup⟩

theorem own_iff (h : ν.Uses used ν') : ν'.lookup n = some .own ↔ ν.lookup n = some .own := by
  cases hn : ν.lookup n with
  | some b => simp [h.keeps hn]
  | none =>
      rw [h.adds hn]
      split <;> simp

/-- Using names does not change how a function around them would see a name. -/
theorem getD_lookup (h : ν.Uses used ν') :
    (ν'.lookup n).getD .captured = (ν.lookup n).getD .captured := by
  cases hn : ν.lookup n with
  | some b => simp [h.keeps hn]
  | none =>
      rw [h.adds hn]
      split <;> rfl

theorem captured_iff (h : ν.Uses used ν') (hν : ν.lookup n ≠ some .captured) :
    ν'.lookup n = some .captured ↔ n ∈ used ∧ ν.lookup n ≠ some .own := by
  cases hn : ν.lookup n with
  | none =>
      rw [h.adds hn]
      by_cases hused : n ∈ used <;> simp [hused]
  | some b =>
      rw [h.keeps hn]
      cases b with
      | own => simp
      | captured => exact absurd hn hν

end Uses

theorem fst_resolve (ν : Names) (m : String) (pos : Script.Position) :
    (ν.resolve m pos).1 = (ν.lookup m).getD .captured := by
  unfold resolve
  cases ν.lookup m <;> rfl

theorem uses_resolve (ν : Names) (m : String) (pos : Script.Position) :
    ν.Uses [m] (ν.resolve m pos).2 := by
  unfold resolve
  cases hm : ν.lookup m with
  | some b =>
      refine ⟨id, fun {n} hn => ?_, id⟩
      have hne : n ≠ m := by
        rintro rfl
        simp [hm] at hn
      simpa [hne] using hn
  | none =>
      refine ⟨fun hn => ?_, fun {n} hn => ?_, fun hν => nodup_append hν hm⟩
      · simp [lookup_append, hn]
      · by_cases hne : n = m
        · simp [lookup_append, hne, hm]
        · simp [lookup_append, hn, hne, Ne.symm hne]

/-! ## Leaving scopes and joining branches -/

theorem captures_cons (m : String) (s : Sighting) (ν : Names) :
    captures ((m, s) :: ν) =
      if s.binding = .captured then (m, s.pos) :: ν.captures else ν.captures := by
  unfold captures
  rw [List.filterMap_cons]
  by_cases hs : s.binding = .captured <;> simp [hs]

theorem mem_captures_iff (hν : (Fields.keys ν).Nodup) :
    n ∈ ν.captures.map (·.1) ↔ ν.lookup n = some .captured := by
  rw [lookup_eq_some_iff hν]
  clear hν
  induction ν with
  | nil => simp [captures]
  | cons entry rest ih =>
      obtain ⟨m, ⟨b, pos⟩⟩ := entry
      rw [captures_cons]
      cases b <;> simp [ih, exists_or]

theorem nodup_captures (hν : (Fields.keys ν).Nodup) : (ν.captures.map (·.1)).Nodup := by
  have hsublist : (ν.captures.map (·.1)).Sublist (Fields.keys ν) := by
    clear hν
    induction ν with
    | nil => simp [captures]
    | cons entry rest ih =>
        obtain ⟨m, s⟩ := entry
        rw [captures_cons]
        split
        · exact ih.cons_cons m
        · exact ih.cons m
  exact hν.sublist hsublist

theorem lookup_addCaptures (ν inner : Names) (n : String) :
    (ν.addCaptures inner).lookup n =
      (ν.lookup n).or (if n ∈ inner.captures.map (·.1) then some .captured
        else Option.none) := by
  induction inner generalizing ν with
  | nil => simp [addCaptures, captures]
  | cons entry rest ih =>
      obtain ⟨m, s⟩ := entry
      by_cases hs : s.binding = .captured
      · have hmem : n ∈ (captures ((m, s) :: rest)).map (·.1) ↔
            n = m ∨ n ∈ (captures rest).map (·.1) := by
          simp [captures_cons, hs]
        by_cases hm : ν.lookup m = Option.none
        · simp only [addCaptures, hs, hm, and_self, if_true, ih, lookup_append, hmem]
          by_cases hn : n = m
          · subst hn
            simp [hm]
          · rw [if_neg (Ne.symm hn), Option.or_none, if_congr (or_iff_right hn) rfl rfl]
        · simp only [addCaptures, hs, hm, and_false, if_false, ih, hmem]
          by_cases hn : n = m
          · subst hn
            obtain ⟨b, hb⟩ := Option.ne_none_iff_exists'.mp hm
            simp [hb]
          · rw [if_congr (or_iff_right hn) rfl rfl]
      · simp only [addCaptures, captures_cons, hs, false_and, if_false, ih]

theorem nodup_addCaptures (inner : Names) (hν : (Fields.keys ν).Nodup) :
    (Fields.keys (ν.addCaptures inner)).Nodup := by
  induction inner generalizing ν with
  | nil => exact hν
  | cons entry rest ih =>
      obtain ⟨m, s⟩ := entry
      unfold addCaptures
      split
      · rename_i hadd
        exact ih (nodup_append hν hadd.2)
      · exact ih hν

/-- What a scope uses and does not bind itself is used outside of it. -/
theorem Uses.leave {inner : Names} (hν : (Fields.keys ν).Nodup) (hbinds : ν.Binds bound ν')
    (huses : ν'.Uses used inner) : ν.Uses (used.filter (· ∉ bound)) (inner.leave ν) := by
  have hinner := huses.nodup (hbinds.nodup hν)
  refine ⟨fun hn => ?_, fun {n} hn => ?_, fun _ => nodup_addCaptures inner hν⟩
  · simp [Names.leave, lookup_addCaptures, hn]
  · rw [Names.leave, lookup_addCaptures, hn, Option.none_or]
    have hnot : ν'.lookup n ≠ some .captured := by
      rw [hbinds.lookup]
      split <;> simp [hn]
    have hmem : n ∈ inner.captures.map (·.1) ↔ n ∈ used.filter (· ∉ bound) := by
      rw [mem_captures_iff hinner, huses.captured_iff hnot, hbinds.lookup]
      by_cases hbound : n ∈ bound <;> simp [hbound, hn]
    simp only [hmem]

theorem lookup_of_join {other joined : Names} (h : ν.join other = .ok joined) (n : String) :
    joined.lookup n = (ν.lookup n).or (other.lookup n) := by
  induction other generalizing ν with
  | nil =>
      obtain rfl : ν = joined := by simpa [join] using h
      simp [lookup, Fields.get?]
  | cons entry rest ih =>
      obtain ⟨m, s⟩ := entry
      have hcons : lookup ((m, s) :: rest) n =
          if m = n then some s.binding else Names.lookup rest n := by
        by_cases hn : m = n <;> simp [lookup, Fields.get?, hn]
      rw [hcons]
      unfold join at h
      cases hm : ν.lookup m with
      | none =>
          simp only [hm] at h
          rw [ih h, lookup_append]
          by_cases hn : m = n
          · subst hn
            simp [hm]
          · simp [hn]
      | some b =>
          simp only [hm] at h
          split at h
          · rw [ih h]
            by_cases hn : m = n
            · subst hn
              simp [hm]
            · simp [hn]
          · cases h

theorem nodup_of_join {other joined : Names} (h : ν.join other = .ok joined)
    (hν : (Fields.keys ν).Nodup) : (Fields.keys joined).Nodup := by
  induction other generalizing ν with
  | nil =>
      obtain rfl : ν = joined := by simpa [join] using h
      exact hν
  | cons entry rest ih =>
      obtain ⟨m, s⟩ := entry
      unfold join at h
      cases hm : ν.lookup m with
      | none =>
          simp only [hm] at h
          exact ih h (nodup_append hν hm)
      | some b =>
          simp only [hm] at h
          split at h
          · exact ih h hν
          · cases h

/-- After two branches what either of them used is used. -/
theorem Uses.join {yes no joined : Names} (hyes : ν.Uses used yes) (hno : ν.Uses more no)
    (h : yes.join no = .ok joined) : ν.Uses (used ++ more) joined := by
  refine ⟨fun hn => ?_, fun {n} hn => ?_, fun hν => nodup_of_join h (hyes.nodup hν)⟩
  · rw [lookup_of_join h, hyes.keeps hn, Option.some_or]
  · rw [lookup_of_join h, hyes.adds hn, hno.adds hn]
    by_cases hused : n ∈ used <;> simp [hused]

/-! ## Functions -/

theorem lookup_forget (ν : Names) (m n : String) :
    (ν.forget m).1.lookup n =
      if n = m ∧ ν.lookup m = some .captured then Option.none else ν.lookup n := by
  unfold forget
  split
  · rename_i hcaptured
    have hfilter : ∀ fields : Names, lookup (Fields.erase m fields) n =
        if n = m then Option.none else fields.lookup n := by
      intro fields
      induction fields with
      | nil => simp [Fields.erase, lookup, Fields.get?]
      | cons entry rest ih =>
          obtain ⟨key, s⟩ := entry
          simp only [Fields.erase, lookup, Fields.get?] at ih ⊢
          by_cases hkey : key = m
          · by_cases hn : n = m <;> simp_all [Ne.symm]
          · by_cases hn : key = n <;> simp_all [Fields.get?]
    simp [hfilter, hcaptured]
  · rename_i hcaptured
    simp [hcaptured]

theorem snd_forget (ν : Names) (m : String) :
    (ν.forget m).2 = decide (ν.lookup m = some .captured) := by
  unfold forget
  split <;> simp_all

theorem nodup_forget (m : String) (hν : (Fields.keys ν).Nodup) :
    (Fields.keys (ν.forget m).1).Nodup := by
  unfold forget
  split
  · exact hν.sublist (List.filter_sublist.map _)
  · exact hν

theorem captured_forget_iff {m : String} :
    (ν.forget m).1.lookup n = some .captured ↔ ν.lookup n = some .captured ∧ n ≠ m := by
  rw [lookup_forget]
  by_cases hn : n = m
  · subst hn
    by_cases hcaptured : ν.lookup n = some .captured <;> simp [hcaptured]
  · simp [hn]

/-- A function captures what it uses and does not bind. -/
theorem captured_iff_of_binds (hbinds : Names.none.Binds bound ν) (huses : ν.Uses used ν') :
    ν'.lookup n = some .captured ↔ n ∈ used.filter (· ∉ bound) := by
  have hlookup : ν.lookup n = if n ∈ bound then some .own else Option.none := hbinds.lookup n
  have hnot : ν.lookup n ≠ some .captured := by
    rw [hlookup]
    split <;> simp
  rw [huses.captured_iff hnot, hlookup]
  by_cases hn : n ∈ bound <;> simp [hn]

/-- Closing over an inner function uses its captures; each is recorded as the function around it
sees the name. -/
theorem closeOver_eq (ν inner : Names) :
    ν.Uses (inner.captures.map (·.1)) (ν.closeOver inner).1 ∧
      (ν.closeOver inner).2 =
        inner.captures.map fun capture => (capture.1, (ν.lookup capture.1).getD .captured) := by
  have hfold : ∀ (captures : List (String × Script.Position)) (ν₀ : Names)
      (sources : List (String × Binding)),
      ν₀.Uses (captures.map (·.1)) (captures.foldl (fun acc capture =>
        ((acc.1.resolve capture.1 capture.2).2,
          acc.2 ++ [(capture.1, (acc.1.resolve capture.1 capture.2).1)])) (ν₀, sources)).1 ∧
      (captures.foldl (fun acc capture =>
        ((acc.1.resolve capture.1 capture.2).2,
          acc.2 ++ [(capture.1, (acc.1.resolve capture.1 capture.2).1)])) (ν₀, sources)).2 =
        sources ++ captures.map fun capture =>
          (capture.1, (ν₀.lookup capture.1).getD .captured) := by
    intro captures
    induction captures with
    | nil => exact fun ν₀ sources => ⟨Uses.refl ν₀, by simp⟩
    | cons capture captures ih =>
        obtain ⟨m, pos⟩ := capture
        intro ν₀ sources
        have hresolve := uses_resolve ν₀ m pos
        obtain ⟨huses, hsources⟩ := ih (ν₀.resolve m pos).2
          (sources ++ [(m, (ν₀.resolve m pos).1)])
        refine ⟨hresolve.trans huses, hsources.trans ?_⟩
        simp [fst_resolve, hresolve.getD_lookup]
  exact hfold inner.captures ν []

/-! ## What is bound -/

/-- The names of `bound` are the names bound here. -/
structure Sees (ν : Names) (bound : List String) : Prop where
  own : ∀ n, ν.lookup n = some .own ↔ n ∈ bound
  nodup : (Fields.keys ν).Nodup

namespace Sees

theorem none : Names.none.Sees [] :=
  ⟨fun n => by simp [Names.none, lookup, Fields.get?], List.nodup_nil⟩

theorem binds (hν : ν.Sees bound) (h : ν.Binds more ν') : ν'.Sees (bound ++ more) := by
  refine ⟨fun n => ?_, h.nodup hν.nodup⟩
  rw [h.lookup, List.mem_append]
  by_cases hn : n ∈ more
  · simp [hn]
  · simp [hn, hν.own]

theorem uses (hν : ν.Sees bound) (h : ν.Uses used ν') : ν'.Sees bound :=
  ⟨fun n => h.own_iff.trans (hν.own n), h.nodup hν.nodup⟩

theorem bind_eq_self (hν : ν.Sees bound) (hn : n ∈ bound) (pos : Script.Position) :
    ν.bind n pos = ν :=
  if_pos ((hν.own n).mpr hn)

theorem getD_lookup (hν : ν.Sees bound) (n : String) :
    (ν.lookup n).getD .captured = if n ∈ bound then .own else .captured := by
  by_cases hn : n ∈ bound
  · rw [(hν.own n).mpr hn, if_pos hn]
    rfl
  · rw [if_neg hn]
    cases h : ν.lookup n with
    | none => rfl
    | some b =>
        cases b with
        | own => exact absurd ((hν.own n).mp h) hn
        | captured => rfl

end Sees

end TraceLoom.Names
