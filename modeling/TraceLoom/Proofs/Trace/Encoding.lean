import TraceLoom.Proofs.Json.Canonical
import TraceLoom.Proofs.Numeric.Finite
import TraceLoom.Proofs.Trace.Order
import TraceLoom.Trace.Encoding

/-!
The JSON form of traces loses nothing.  A tree is read back from every arrangement of its JSON form,
up to the order in which its records have their fields.
-/

namespace TraceLoom

open Numeric
open Script (BinaryOp UnaryOp)

namespace Trace

variable {t u : Trace}

/-! ## What is written -/

/-- Whether a node is no number that is infinite or not-a-number. -/
def hasFiniteNumber : Trace → Bool
  | number x => x.isFinite
  | _ => true

/-- Whether a node is a finite number, if it is one, and has no name twice, if it is a record. -/
def isWritable (t : Trace) : Bool :=
  hasFiniteNumber t && hasDistinctKeys t

/-- Numbers are finite, and no record has a name twice. -/
def Writable (t : Trace) : Prop :=
  every isWritable t = true

namespace Writable

theorem of_mem {s : Trace} (h : t.Writable) (hs : s ∈ t.children) : s.Writable :=
  (every_eq_true_iff.mp h).2 s hs

theorem nodup (h : t.Writable) : t.parts.fields.keys.Nodup := by
  have hnode := (every_eq_true_iff.mp h).1
  simp only [isWritable, hasDistinctKeys, Bool.and_eq_true, decide_eq_true_eq] at hnode
  exact hnode.2

theorem isFinite {x : Float} (h : (number x).Writable) : x.isFinite = true := by
  simpa [Writable, every, isWritable, hasFiniteNumber, hasDistinctKeys, parts, Fields.keys] using h

end Writable

mutual

/-- The tree with the fields of every record in the order of their names. -/
def sorted : Trace → Trace
  | .captured t field => .captured (sorted t) field
  | .property t field => .property (sorted t) field
  | .binary op l r => .binary op (sorted l) (sorted r)
  | .unary op t => .unary op (sorted t)
  | .bind n t => .bind n (sorted t)
  | .assign x t => .assign (sortedTarget x) (sorted t)
  | .block b => .block (sortedItems b)
  | .ifElse c t e => .ifElse (sorted c) (sortedItems t) (sortedItems e)
  | .whileDo c b => .whileDo (sorted c) (sortedItems b)
  | .callback event arg params record b =>
    .callback event (sorted arg) params (sorted record) (sortedItems b)
  | .label n b => .label n (sortedItems b)
  | .breakTo n t => .breakTo n (sorted t)
  | .closure fs => .closure (Fields.sort (sortedFields fs))
  | .object fs => .object (Fields.sort (sortedFields fs))
  | .array ts => .array (sortedItems ts)
  | .index t i => .index (sorted t) (sorted i)
  | .methodCall t m ts => .methodCall (sorted t) m (sortedItems ts)
  | .primitive event ts => .primitive event (sortedItems ts)
  | t => t
termination_by structural t => t

def sortedTarget : Target → Target
  | .name n => .name n
  | .captured t field => .captured (sorted t) field
  | .index t i => .index (sorted t) (sorted i)
termination_by structural x => x

def sortedItems : List Trace → List Trace
  | [] => []
  | t :: ts => sorted t :: sortedItems ts
termination_by structural ts => ts

def sortedFields : List (String × Trace) → List (String × Trace)
  | [] => []
  | (key, t) :: fs => (key, sorted t) :: sortedFields fs
termination_by structural fs => fs

end

theorem sortedItems_eq_map (ts : List Trace) : sortedItems ts = ts.map sorted := by
  induction ts with
  | nil => rfl
  | cons t ts ih => rw [sortedItems, ih, List.map_cons]

theorem sortedFields_eq_mapValues (fs : Fields Trace) : sortedFields fs = fs.mapValues sorted := by
  induction fs with
  | nil => rfl
  | cons field fs ih =>
      rw [sortedFields, ih]
      rfl

/-- The first tree could be written and is the second one up to the order of fields. -/
abbrev Restores (u t : Trace) : Prop :=
  every isWritable u = true ∧ u.sorted = t.sorted

abbrev RestoresTarget (y x : Target) : Prop :=
  everyTarget isWritable y = true ∧ sortedTarget y = sortedTarget x

abbrev RestoresItems (us ts : List Trace) : Prop :=
  everyItem isWritable us = true ∧ sortedItems us = sortedItems ts

namespace Encoding

theorem nodes_eq_map (ts : List Trace) : nodes ts = ts.map node := by
  induction ts with
  | nil => rfl
  | cons t ts ih => rw [nodes, ih, List.map_cons]

theorem fields_eq_mapValues (fs : Fields Trace) : fields fs = fs.mapValues node := by
  induction fs with
  | nil => rfl
  | cons field fs ih =>
      rw [fields, ih]
      rfl

/-! ## Reading back -/

/-- The tree is read from every arrangement of its JSON form, up to the order of fields. -/
def Readable (t : Trace) : Prop :=
  ∀ (j : Json) (n : Nat), j.Rearranged (node t) → 2 * j.depth < n →
    ∃ u, node? n j = some u ∧ u.Restores t

section

variable {j k : Json} {n : Nat}

theorem exists_mapM {ts : List Trace} {js : List Json} (hts : ∀ t ∈ ts, Readable t)
    (hjs : List.Forall₂ Json.Rearranged js (ts.map node)) (hn : ∀ j ∈ js, 2 * j.depth < n) :
    ∃ us, js.mapM (node? n) = some us ∧ RestoresItems us ts := by
  induction ts generalizing js with
  | nil =>
      cases hjs
      exact ⟨[], rfl, rfl, rfl⟩
  | cons t ts ih =>
      cases hjs with
      | @cons j _ js _ hj hjs =>
          obtain ⟨ht, hts⟩ := List.forall_mem_cons.mp hts
          obtain ⟨hfirst, hn⟩ := List.forall_mem_cons.mp hn
          obtain ⟨u, hu, hsame⟩ := ht j n hj hfirst
          obtain ⟨us, hus, hsames⟩ := ih hts hjs hn
          refine ⟨u :: us, ?_, ?_, ?_⟩
          · simp [List.mapM_cons, hu, hus]
          · rw [everyItem, hsame.1, hsames.1, Bool.and_self]
          · rw [sortedItems, sortedItems, hsame.2, hsames.2]

theorem mapM_string? {texts : List String} {js : List Json}
    (h : List.Forall₂ Json.Rearranged js (texts.map .string)) :
    js.mapM Json.string? = some texts := by
  induction texts generalizing js with
  | nil =>
      cases h
      rfl
  | cons text texts ih =>
      cases h with
      | @cons j _ js _ hj hjs =>
          have htext : j.string? = some text := hj.string?
          simp [List.mapM_cons, htext, ih hjs]

theorem exists_fields? {P : String → Trace → Prop} {js : Fields Json}
    (h : ∀ field ∈ js, ∃ u, node? n field.2 = some u ∧ P field.1 u) :
    ∃ us : Fields Trace, fields? (n + 1) js = some us ∧ us.keys = js.keys ∧
      ∀ field ∈ us, P field.1 field.2 := by
  rw [fields?]
  induction js with
  | nil => exact ⟨[], rfl, rfl, List.forall_mem_nil _⟩
  | cons field js ih =>
      obtain ⟨hfield, hjs⟩ := List.forall_mem_cons.mp h
      obtain ⟨u, hu, hP⟩ := hfield
      obtain ⟨us, hus, hkeys, hPs⟩ := ih hjs
      refine ⟨(field.1, u) :: us, ?_, ?_, List.forall_mem_cons.mpr ⟨hP, hPs⟩⟩
      · simp [List.mapM_cons, hu, hus]
      · simpa [Fields.keys] using hkeys

/-- Records that have readable values under the same names are sorted alike once they are read. -/
theorem exists_record {fs : Fields Trace} {js : Fields Json} (hfs : ∀ field ∈ fs, Readable field.2)
    (hkeys : fs.keys.Nodup) (h : (Json.object js).Rearranged (.object (fields fs)))
    (hn : ∀ field ∈ js, 2 * field.2.depth < n) :
    ∃ us : Fields Trace, fields? (n + 1) js = some us ∧ us.keys.Nodup ∧
      everyField isWritable us = true ∧
      Fields.sort (sortedFields us) = Fields.sort (sortedFields fs) := by
  have hjs : js.keys.Nodup := (Json.distinct_object_iff.mp h.left).1
  have hget (name : String) : Option.Rel Json.Rearranged (js.get? name)
      ((fs.get? name).map node) := by
    rw [← Fields.get?_mapValues, ← fields_eq_mapValues]
    exact h.field? name
  have hvalues : ∀ field ∈ js, ∃ u, node? n field.2 = some u ∧
      ∃ t, fs.get? field.1 = some t ∧ u.Restores t := by
    intro field hfield
    have hrel := hget field.1
    rw [Fields.get?_of_mem hjs hfield] at hrel
    cases ht : fs.get? field.1 with
    | none => rw [ht] at hrel; cases hrel
    | some t =>
        rw [ht] at hrel
        cases hrel with
        | some hrel =>
            obtain ⟨u, hu, hsame⟩ := hfs _ (Fields.mem_of_get? ht) _ n hrel (hn field hfield)
            exact ⟨u, hu, t, rfl, hsame⟩
  obtain ⟨us, hus, husKeys, hread⟩ := exists_fields?
    (P := fun name u => ∃ t, fs.get? name = some t ∧ u.Restores t) hvalues
  have husNodup : us.keys.Nodup := husKeys ▸ hjs
  refine ⟨us, hus, husNodup, ?_, ?_⟩
  · refine everyField_eq_true_iff.mpr (List.forall_mem_map.mpr fun field hfield => ?_)
    obtain ⟨t, -, hsame⟩ := hread field hfield
    exact hsame.1
  rw [sortedFields_eq_mapValues, sortedFields_eq_mapValues,
    Fields.sort_eq_sort_iff (by simpa using husNodup) (by simpa using hkeys)]
  intro name
  rw [Fields.get?_mapValues, Fields.get?_mapValues]
  cases hu : us.get? name with
  | some u =>
      obtain ⟨t, ht, hsame⟩ := hread _ (Fields.mem_of_get? hu)
      rw [ht, Option.map_some, Option.map_some, hsame.2]
  | none =>
      have hrel := hget name
      rw [Fields.get?_eq_none_iff.mpr (husKeys ▸ Fields.get?_eq_none_iff.mp hu)] at hrel
      cases ht : fs.get? name with
      | none => rfl
      | some t => rw [ht] at hrel; cases hrel

/-- An arrangement of a JSON form is to be read with some fuel, and of the trees whose forms stand
in it some are known to be readable. -/
structure Reading (known : List Trace) (j k : Json) (n : Nat) : Prop where
  rearranged : j.Rearranged k
  fuel : 2 * j.depth < n + 1
  readable : ∀ t ∈ known, Readable t

namespace Reading

variable {known : List Trace}

theorem text (h : Reading known j k n) (name : String) {text : String}
    (hk : k.text? name = some text) : j.text? name = some text :=
  h.rearranged.text? hk

theorem part (h : Reading known j k n) (name : String) (t : Trace) (ht : t ∈ known)
    (hk : k.field? name = some (node t)) :
    ∃ u, (j.field? name).bind (node? n) = some u ∧ u.Restores t := by
  obtain ⟨j', hj', h'⟩ := h.rearranged.exists_field? hk
  have hdepth := Json.depth_lt_of_field? hj'
  have hfuel := h.fuel
  rw [hj', Option.bind_some]
  exact h.readable t ht j' n h' (by omega)

theorem body (h : Reading known j k n) (name : String) (ts : List Trace) (hts : ts ⊆ known)
    (hk : k.field? name = some (.array (nodes ts))) :
    ∃ us, (j.items? name).bind (nodes? n) = some us ∧ RestoresItems us ts := by
  obtain ⟨j', hj', h'⟩ := h.rearranged.exists_field? hk
  obtain ⟨js, rfl, hjs⟩ := h'.array
  have hdepth := Json.depth_lt_of_field? hj'
  have hfuel := h.fuel
  rw [Json.depth] at hdepth
  rw [nodes_eq_map] at hjs
  cases n with
  | zero => omega
  | succ n =>
      have hn : ∀ j ∈ js, 2 * j.depth < n := fun j hj => by
        have hle := Json.depthItems_le_iff.mp le_rfl j hj
        omega
      obtain ⟨us, hus, hsame⟩ := exists_mapM (fun t ht => h.readable t (hts ht)) hjs hn
      refine ⟨us, ?_, hsame⟩
      rw [Json.items?, hj', Option.bind_some, Json.array?, Option.bind_some, nodes?, hus]

theorem record (h : Reading known j k n) (name : String) (fs : Fields Trace)
    (hfs : fs.values ⊆ known) (hkeys : fs.keys.Nodup)
    (hk : k.field? name = some (.object (fields fs))) :
    ∃ us : Fields Trace, (((j.field? name).bind Json.object?).bind fun js =>
        (fields? n js).bind fun us => some (Fields.ofPairs us)) = some us ∧
      us.keys.Nodup ∧ everyField isWritable us = true ∧
      Fields.sort (sortedFields us) = Fields.sort (sortedFields fs) := by
  obtain ⟨j', hj', h'⟩ := h.rearranged.exists_field? hk
  obtain ⟨js, rfl⟩ := h'.object
  have hdepth := Json.depth_lt_of_field? hj'
  have hfuel := h.fuel
  rw [Json.depth] at hdepth
  cases n with
  | zero => omega
  | succ n =>
      have hn : ∀ field ∈ js, 2 * field.2.depth < n := fun field hfield => by
        have hle := Json.depthFields_le_iff.mp le_rfl field hfield
        omega
      obtain ⟨us, hus, hnodup, hsame⟩ := exists_record
        (fun field hfield => h.readable _ (hfs (List.mem_map.mpr ⟨field, hfield, rfl⟩))) hkeys h' hn
      refine ⟨us, ?_, hnodup, hsame⟩
      rw [hj', Option.bind_some, Json.object?, Option.bind_some, hus, Option.bind_some,
        Fields.ofPairs_of_nodup hnodup]

theorem texts (h : Reading known j k n) (name : String) (texts : List String)
    (hk : k.field? name = some (.array (texts.map .string))) :
    ∃ js, j.items? name = some js ∧ js.mapM Json.string? = some texts := by
  obtain ⟨j', hj', h'⟩ := h.rearranged.exists_field? hk
  obtain ⟨js, rfl, hjs⟩ := h'.array
  exact ⟨js, by rw [Json.items?, hj', Option.bind_some, Json.array?], mapM_string? hjs⟩

end Reading

attribute [local simp] Restores RestoresTarget every everyTarget isWritable hasFiniteNumber
  hasDistinctKeys parts sorted sortedTarget

theorem exists_target? {x : Target} (h : Reading x.exps j (target x) n) :
    ∃ y, target? (n + 1) j = some y ∧ RestoresTarget y x := by
  cases x with
  | name m =>
      have hkind := h.text "kind" rfl
      have hname := h.text "name" rfl
      exact ⟨.name m, by simp [target?, hkind, hname], by simp⟩
  | captured t field =>
      have hkind := h.text "kind" rfl
      have hfield := h.text "field" rfl
      obtain ⟨u, hu, hsame⟩ := h.part "exp" t (by simp [Target.exps]) rfl
      exact ⟨.captured u field, by simp [target?, hkind, hfield, hu], by simp [hsame]⟩
  | index t i =>
      have hkind := h.text "kind" rfl
      obtain ⟨u, hu, hsame⟩ := h.part "exp" t (by simp [Target.exps]) rfl
      obtain ⟨v, hv, hsame'⟩ := h.part "index" i (by simp [Target.exps]) rfl
      exact ⟨.index u v, by simp [target?, hkind, hu, hv], by simp [hsame, hsame']⟩

theorem Reading.target {known : List Trace} (h : Reading known j k n) (name : String) (x : Target)
    (hx : x.exps ⊆ known) (hk : k.field? name = some (target x)) :
    ∃ y, (j.field? name).bind (target? n) = some y ∧ RestoresTarget y x := by
  obtain ⟨j', hj', h'⟩ := h.rearranged.exists_field? hk
  have hdepth := Json.depth_lt_of_field? hj'
  have hfuel := h.fuel
  rw [hj', Option.bind_some]
  cases n with
  | zero => omega
  | succ n => exact exists_target? ⟨h', by omega, fun t ht => h.readable t (hx ht)⟩

/-- A node is read if what stands in it is readable. -/
theorem exists_node? (ht : t.Writable) (h : Reading t.children j (node t) n) :
    ∃ u, node? (n + 1) j = some u ∧ u.Restores t := by
  have hkind : j.text? "kind" = some t.kind := h.text "kind" (by cases t <;> rfl)
  cases t with
  | hole => exact ⟨.hole, by simp [node?, hkind, kind], by simp⟩
  | number x =>
      have hdouble : double x = .number x := if_pos (Binary64.isSome_magnitude? ht.isFinite)
      have hvalue : (node (.number x)).field? "value" = some (double x) := rfl
      obtain ⟨j', hj', h'⟩ := h.rearranged.exists_field? hvalue
      obtain rfl := (hdouble ▸ h').number_eq
      exact ⟨.number x, by simp [node?, hkind, kind, hj', double?], by simp [ht.isFinite]⟩
  | boolean b =>
      have hvalue : (node (.boolean b)).field? "value" = some (.boolean b) := rfl
      obtain ⟨j', hj', h'⟩ := h.rearranged.exists_field? hvalue
      have hread : j'.boolean? = some b := h'.boolean?
      exact ⟨.boolean b, by simp [node?, hkind, kind, hj', hread], by simp⟩
  | string s =>
      have hvalue := h.text "value" rfl
      exact ⟨.string s, by simp [node?, hkind, kind, hvalue], by simp⟩
  | undefined => exact ⟨.undefined, by simp [node?, hkind, kind], by simp⟩
  | name m =>
      have hname := h.text "name" rfl
      exact ⟨.name m, by simp [node?, hkind, kind, hname], by simp⟩
  | captured s field =>
      have hfield := h.text "field" rfl
      obtain ⟨u, hu, hsame⟩ := h.part "exp" s (by simp [children, parts]) rfl
      exact ⟨.captured u field, by simp [node?, hkind, kind, hfield, hu], by simp [hsame]⟩
  | property s field =>
      have hfield := h.text "field" rfl
      obtain ⟨u, hu, hsame⟩ := h.part "exp" s (by simp [children, parts]) rfl
      exact ⟨.property u field, by simp [node?, hkind, kind, hfield, hu], by simp [hsame]⟩
  | binary op l r =>
      have hop := h.text "op" rfl
      have hread : BinaryOp.ofSymbol? op.symbol = some op := by cases op <;> rfl
      obtain ⟨u, hu, hsame⟩ := h.part "e1" l (by simp [children, parts]) rfl
      obtain ⟨v, hv, hsame'⟩ := h.part "e2" r (by simp [children, parts]) rfl
      exact ⟨.binary op u v, by simp [node?, hkind, kind, hop, hread, hu, hv],
        by simp [hsame, hsame']⟩
  | unary op s =>
      have hop := h.text "op" rfl
      have hread : UnaryOp.ofSymbol? op.symbol = some op := by cases op <;> rfl
      obtain ⟨u, hu, hsame⟩ := h.part "e" s (by simp [children, parts]) rfl
      exact ⟨.unary op u, by simp [node?, hkind, kind, hop, hread, hu], by simp [hsame]⟩
  | bind m s =>
      have hname := h.text "name" rfl
      obtain ⟨u, hu, hsame⟩ := h.part "named" s (by simp [children, parts]) rfl
      exact ⟨.bind m u, by simp [node?, hkind, kind, hname, hu], by simp [hsame]⟩
  | assign x s =>
      obtain ⟨u, hu, hsame⟩ := h.part "named" s (by simp [children, parts]) rfl
      obtain ⟨y, hy, hsame'⟩ := h.target "name" x (by simp [children, parts]) rfl
      exact ⟨.assign y u, by simp [node?, hkind, kind, hy, hu], by simp [hsame, hsame']⟩
  | block b =>
      obtain ⟨us, hus, hsame⟩ := h.body "body" b (by simp [children, parts]) rfl
      exact ⟨.block us, by simp [node?, hkind, kind, hus], by simp [hsame]⟩
  | ifElse c b d =>
      obtain ⟨u, hu, hsame⟩ := h.part "cond" c (by simp [children, parts]) rfl
      obtain ⟨us, hus, hsame'⟩ := h.body "truePart" b (by simp [children, parts]) rfl
      obtain ⟨vs, hvs, hsame''⟩ := h.body "falsePart" d (by simp [children, parts]) rfl
      exact ⟨.ifElse u us vs, by simp [node?, hkind, kind, hu, hus, hvs],
        by simp [hsame, hsame', hsame'']⟩
  | whileDo c b =>
      obtain ⟨u, hu, hsame⟩ := h.part "cond" c (by simp [children, parts]) rfl
      obtain ⟨us, hus, hsame'⟩ := h.body "body" b (by simp [children, parts]) rfl
      exact ⟨.whileDo u us, by simp [node?, hkind, kind, hu, hus], by simp [hsame, hsame']⟩
  | callback event arg params record b =>
      have hevent := h.text "event" rfl
      obtain ⟨js, hjs, hparams⟩ := h.texts "callbackArgs" params rfl
      obtain ⟨u, hu, hsame⟩ := h.part "eventArg" arg (by simp [children, parts]) rfl
      obtain ⟨v, hv, hsame'⟩ := h.part "clos" record (by simp [children, parts]) rfl
      obtain ⟨us, hus, hsame''⟩ := h.body "body" b (by simp [children, parts]) rfl
      exact ⟨.callback event u params v us,
        by simp [node?, hkind, kind, hevent, hjs, hparams, hu, hv, hus],
        by simp [hsame, hsame', hsame'']⟩
  | label m b =>
      have hname := h.text "name" rfl
      obtain ⟨us, hus, hsame⟩ := h.body "body" b (by simp [children, parts]) rfl
      exact ⟨.label m us, by simp [node?, hkind, kind, hname, hus], by simp [hsame]⟩
  | breakTo m s =>
      have hname := h.text "name" rfl
      obtain ⟨u, hu, hsame⟩ := h.part "value" s (by simp [children, parts]) rfl
      exact ⟨.breakTo m u, by simp [node?, hkind, kind, hname, hu], by simp [hsame]⟩
  | closure fs =>
      obtain ⟨us, hus, hnodup, hsame⟩ := h.record "tenv" fs
        (by simp [children, parts, Fields.values]) ht.nodup rfl
      exact ⟨.closure us, by simp [node?, hkind, kind, hus], by simp [hsame, hnodup]⟩
  | object fs =>
      obtain ⟨us, hus, hnodup, hsame⟩ := h.record "properties" fs
        (by simp [children, parts, Fields.values]) ht.nodup rfl
      exact ⟨.object us, by simp [node?, hkind, kind, hus], by simp [hsame, hnodup]⟩
  | array ts =>
      obtain ⟨us, hus, hsame⟩ := h.body "exps" ts (by simp [children, parts]) rfl
      exact ⟨.array us, by simp [node?, hkind, kind, hus], by simp [hsame]⟩
  | index s i =>
      obtain ⟨u, hu, hsame⟩ := h.part "exp" s (by simp [children, parts]) rfl
      obtain ⟨v, hv, hsame'⟩ := h.part "index" i (by simp [children, parts]) rfl
      exact ⟨.index u v, by simp [node?, hkind, kind, hu, hv], by simp [hsame, hsame']⟩
  | methodCall s m ts =>
      have hmethod := h.text "method" rfl
      obtain ⟨u, hu, hsame⟩ := h.part "e" s (by simp [children, parts]) rfl
      obtain ⟨us, hus, hsame'⟩ := h.body "methodCallArgs" ts (by simp [children, parts]) rfl
      exact ⟨.methodCall u m us, by simp [node?, hkind, kind, hmethod, hu, hus],
        by simp [hsame, hsame']⟩
  | primitive event ts =>
      have hevent := h.text "event" rfl
      obtain ⟨us, hus, hsame⟩ := h.body "eventArgs" ts (by simp [children, parts]) rfl
      exact ⟨.primitive event us, by simp [node?, hkind, kind, hevent, hus], by simp [hsame]⟩

end

theorem readable (t : Trace) (ht : t.Writable) : Readable t := by
  induction t using induction with
  | node t ih =>
      intro j n h hn
      cases n with
      | zero => omega
      | succ n => exact exists_node? ht ⟨h, hn, fun s hs => ih s hs (ht.of_mem hs)⟩

/-! ## The canonical form -/

theorem canonical_nodes {ts : List Trace}
    (h : ∀ t ∈ ts, (node t.sorted).canonical = (node t).canonical) :
    (Json.array (nodes (sortedItems ts))).canonical = (Json.array (nodes ts)).canonical := by
  rw [Json.canonical_array, Json.canonical_array, sortedItems_eq_map, nodes_eq_map, nodes_eq_map,
    List.map_map, List.map_map, List.map_map]
  exact congrArg Json.array (List.map_congr_left h)

theorem canonical_fields {fs : Fields Trace}
    (h : ∀ field ∈ fs, (node field.2.sorted).canonical = (node field.2).canonical) :
    (Json.object (fields (Fields.sort (sortedFields fs)))).canonical =
      (Json.object (fields fs)).canonical := by
  have hvalues : fs.mapValues (fun t => (node t.sorted).canonical) =
      fs.mapValues fun t => (node t).canonical :=
    List.map_congr_left fun field hfield => congrArg (Prod.mk field.1) (h field hfield)
  rw [fields_eq_mapValues, fields_eq_mapValues, sortedFields_eq_mapValues, Json.canonical_object,
    Json.canonical_object, Fields.sort_mapValues node, Fields.sort_sort,
    ← Fields.sort_mapValues node, ← Fields.sort_mapValues, ← Fields.sort_mapValues,
    Fields.mapValues_mapValues, Fields.mapValues_mapValues, Fields.mapValues_mapValues, hvalues]

/-- Names are sorted in the canonical form, so it does not show in which order a record had them. -/
theorem canonical_node_sorted (t : Trace) : (node t.sorted).canonical = (node t).canonical := by
  induction t using induction with
  | node t ih =>
      have hnodes (ts : List Trace) (hts : ts ⊆ t.children) :=
        canonical_nodes fun s hs => ih s (hts hs)
      have hfields (fs : Fields Trace) (hfs : fs.values ⊆ t.children) :=
        canonical_fields fun field hfield =>
          ih field.2 (hfs (List.mem_map.mpr ⟨field, hfield, rfl⟩))
      simp only [Json.canonical] at hnodes hfields
      cases t with
      | assign x s =>
          cases x <;> simp_all [children, parts, Target.exps, sorted, sortedTarget, node, target,
            tagged, Json.canonical, Json.canonicalFields]
      | ifElse c b d =>
          have hb := hnodes b fun s hs => by simp [children, parts, hs]
          have hd := hnodes d fun s hs => by simp [children, parts, hs]
          have hc := ih c (by simp [children, parts])
          simp only [sorted, node, tagged, Json.canonical, Json.canonicalFields, hb, hd, hc]
      | callback event arg params record b =>
          have hb := hnodes b fun s hs => by simp [children, parts, hs]
          have harg := ih arg (by simp [children, parts])
          have hrecord := ih record (by simp [children, parts])
          simp only [sorted, node, tagged, Json.canonical, Json.canonicalFields, hb, harg, hrecord]
      | _ =>
          simp_all [children, parts, sorted, node, tagged, Json.canonical, Json.canonicalFields,
            Fields.values]

/-! ## Distinct names -/

theorem distinct_double (x : Float) : (double x).Distinct := by
  unfold double
  split <;> trivial

theorem distinct_fields {fs : Fields Trace} (hkeys : fs.keys.Nodup)
    (h : ∀ t ∈ fs.values, (node t).Distinct) : (Json.object (fields fs)).Distinct := by
  rw [fields_eq_mapValues, Json.distinct_object_iff, Fields.keys_mapValues]
  exact ⟨hkeys, List.forall_mem_map.mpr fun field hfield =>
    h field.2 (List.mem_map.mpr ⟨field, hfield, rfl⟩)⟩

theorem distinct_node (t : Trace) (ht : t.Writable) : (node t).Distinct := by
  induction t using induction with
  | node t ih =>
      have hchildren : ∀ s ∈ t.children, (node s).Distinct := fun s hs => ih s hs (ht.of_mem hs)
      have hnodup := ht.nodup
      clear ih ht
      cases t with
      | assign x s =>
          cases x <;> simp_all [node, target, tagged, children, parts, Target.exps, Fields.keys]
      | closure fs | object fs =>
          have hfields : (Json.object (fields fs)).Distinct := distinct_fields hnodup fun s hs =>
            hchildren s (by simpa [children, parts, Fields.values] using hs)
          simpa [node, tagged, Fields.keys] using hfields
      | _ =>
          simp_all [node, tagged, children, parts, Fields.keys, nodes_eq_map, distinct_double]

end Encoding

theorem distinct_toJson (ht : t.Writable) : t.toJson.Distinct :=
  Encoding.distinct_node t ht

/-- The JSON form of a tree does not depend on the order of its records' fields. -/
theorem canonical_toJson_of_sorted_eq (h : t.sorted = u.sorted) :
    t.toJson.canonical = u.toJson.canonical := by
  rw [toJson, toJson, ← Encoding.canonical_node_sorted t, h, Encoding.canonical_node_sorted u]

theorem ofJson?_rearranged {j : Json} (ht : t.Writable) (h : j.Rearranged t.toJson) :
    ∃ u, ofJson? j = some u ∧ u.Writable ∧ u.sorted = t.sorted :=
  Encoding.readable t ht j (2 * j.depth + 1) h (Nat.lt_succ_self _)

/-- Traces with finite numbers come back from their JSON form, in whatever order its objects have
their fields; what is read is written as it was, and different traces have different JSON forms. -/
theorem json_lossless (ht : t.Writable) :
    t.toJson.Distinct ∧
    (∀ j : Json, j.Distinct → j.canonical = t.toJson.canonical →
      ∃ u, ofJson? j = some u ∧ u.Writable ∧ u.sorted = t.sorted ∧
        u.toJson.canonical = j.canonical) ∧
    ∀ u : Trace, u.Writable → u.toJson.canonical = t.toJson.canonical → u.sorted = t.sorted := by
  refine ⟨distinct_toJson ht, ?_, ?_⟩
  · intro j hj hcanonical
    obtain ⟨u, hu, hwritable, hsame⟩ := ofJson?_rearranged ht ⟨hj, distinct_toJson ht, hcanonical⟩
    exact ⟨u, hu, hwritable, hsame, (canonical_toJson_of_sorted_eq hsame).trans hcanonical.symm⟩
  · intro u hu hcanonical
    have hforms : u.toJson.Rearranged t.toJson :=
      ⟨distinct_toJson hu, distinct_toJson ht, hcanonical⟩
    obtain ⟨v, hv, -, hvt⟩ := ofJson?_rearranged ht hforms
    obtain ⟨w, hw, -, hwu⟩ := ofJson?_rearranged hu ⟨distinct_toJson hu, distinct_toJson hu, rfl⟩
    obtain rfl : v = w := Option.some.inj (hv.symm.trans hw)
    exact hwu.symm.trans hvt

/-- Assignments to a name, to a field of a closure record and to an index come back, among them one
of an object. -/
theorem json_lossless_assignments :
    let t : Trace := .block
      [.assign (.name "x") (.object [("b", .number 1.5), ("a", .array [.hole])]),
        .assign (.captured (.name "record") "y") (.boolean true),
        .assign (.index (.name "x") (.string "b")) (.unary .not .undefined)]
    t.Writable ∧ ∃ u, ofJson? t.toJson = some u ∧ u.sorted = t.sorted ∧
      u.toJson.canonical = t.toJson.canonical := by
  intro t
  have ht : t.Writable := by
    unfold Writable
    decide +kernel
  obtain ⟨hdistinct, hread, -⟩ := json_lossless ht
  obtain ⟨u, hu, -, hsame, hcanonical⟩ := hread t.toJson hdistinct rfl
  exact ⟨ht, u, hu, hsame, hcanonical⟩

end Trace

end TraceLoom
