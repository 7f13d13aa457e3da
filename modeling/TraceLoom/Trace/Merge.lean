import TraceLoom.Numeric.Notation
import TraceLoom.Text.Diagnostic
import TraceLoom.Trace.Basic

/-!
Merging traces.  Two traces merge if they agree wherever both have been observed: a hole takes
what the other side has, and an open end of a statement list takes the rest of the other list.
`mergeIn` goes as far as it can and says what did not fit; `merge` gives a trace only if
everything did.
-/

namespace TraceLoom

open TraceLoom.Numeric TraceLoom.Text

/-- Why two traces do not fit together.  The first of two parts is what was there before. -/
inductive Mismatch where
  /-- Nodes of different kinds. -/
  | kind (expected found : String)
  | literal (expected found : String)
  | name (expected found : String)
  | operator (expected found : String)
  /-- Labels, events, fields, variables or parameters. -/
  | label (expected found : String)
  /-- Lists of different lengths. -/
  | length (what : String) (expected found : Nat)
  /-- Records with different fields. -/
  | fields (expected found : List String)
  deriving DecidableEq, Repr

def Mismatch.message : Mismatch → String
  | kind expected found => "expected a " ++ expected ++ " node, found " ++ found
  | literal expected found => "literal " ++ expected ++ " does not match " ++ found
  | name expected found => "identifier `" ++ expected ++ "` does not match `" ++ found ++ "`"
  | operator expected found => "operator `" ++ expected ++ "` does not match `" ++ found ++ "`"
  | label expected found => "name `" ++ expected ++ "` does not match `" ++ found ++ "`"
  | length what expected found =>
    what ++ " has " ++ toString expected ++ " elements but " ++ toString found ++ " were recorded"
  | fields expected found =>
    "fields " ++ Diagnostic.quoteAll expected ++ " do not match " ++ Diagnostic.quoteAll found

/-- How far a merge came, and what did not fit. -/
structure Merged (α : Type) where
  result : α
  mismatch : Option Mismatch

namespace Merged

variable {α β γ : Type}

/-- Everything fitted. -/
def done (result : α) : Merged α :=
  ⟨result, none⟩

/-- Stopped before anything changed. -/
def stopped (result : α) (mismatch : Mismatch) : Merged α :=
  ⟨result, some mismatch⟩

def map (f : α → β) (m : Merged α) : Merged β :=
  ⟨f m.result, m.mismatch⟩

/-- One part after another: the second stays as it was, `old`, if the first did not fit. -/
def both (f : α → β → γ) (first : Merged α) (old : β) (second : Merged β) : Merged γ :=
  match first.mismatch with
  | some m => ⟨f first.result old, some m⟩
  | none => ⟨f first.result second.result, second.mismatch⟩

/-- Goes on only if two names agree. -/
def named (expected found : String) (old : α) (rest : Merged α) : Merged α :=
  if expected = found then rest else stopped old (.label expected found)

end Merged

namespace Trace

def numberText (x : Float) : String :=
  if x.isInf then (if Binary64.isNegative x then "-inf" else "inf") else
    (Notation.special? x).getD (Notation.plain x)

def booleanText (b : Bool) : String :=
  if b then "true" else "false"

/-- Whether two records have the same fields in any order. -/
def sameKeys (fs gs : List (String × Trace)) : Bool :=
  fs.length == gs.length && gs.all fun g => Fields.has g.1 fs

mutual

def mergeIn : Trace → Trace → Merged Trace
  | t, .hole => .done t
  | .hole, incoming => .done incoming
  | .number x, .number y =>
    if Binary64.same x y then .done (.number x)
    else .stopped (.number x) (.literal (numberText x) (numberText y))
  | .boolean a, .boolean b =>
    if a = b then .done (.boolean a)
    else .stopped (.boolean a) (.literal (booleanText a) (booleanText b))
  | .string a, .string b =>
    if a = b then .done (.string a)
    else .stopped (.string a) (.literal (Diagnostic.quote a) (Diagnostic.quote b))
  | .undefined, .undefined => .done .undefined
  | .name a, .name b => if a = b then .done (.name a) else .stopped (.name a) (.name a b)
  | .captured t field, .captured u found =>
    .named field found (.captured t field) ((mergeIn t u).map (.captured · field))
  | .property t field, .property u found =>
    .named field found (.property t field) ((mergeIn t u).map (.property · field))
  | .binary op l r, .binary op' l' r' =>
    if op = op' then .both (.binary op) (mergeIn l l') r (mergeIn r r')
    else .stopped (.binary op l r) (.operator op.symbol op'.symbol)
  | .unary op t, .unary op' u =>
    if op = op' then (mergeIn t u).map (.unary op)
    else .stopped (.unary op t) (.operator op.symbol op'.symbol)
  | .bind n t, .bind n' u => .named n n' (.bind n t) ((mergeIn t u).map (.bind n))
  | .assign x t, .assign y u => .both .assign (mergeTarget x y) t (mergeIn t u)
  | .block b, .block b' => (mergeBody b.length b'.length b b').map .block
  | .ifElse c t e, .ifElse c' t' e' =>
    .both (fun p e => .ifElse p.1 p.2 e)
      (.both Prod.mk (mergeIn c c') t (mergeBody t.length t'.length t t'))
      e (mergeBody e.length e'.length e e')
  | .whileDo c b, .whileDo c' b' =>
    .both .whileDo (mergeIn c c') b (mergeBody b.length b'.length b b')
  | .callback event arg params record b, .callback event' arg' params' record' b' =>
    let old : Trace := .callback event arg params record b
    .named event event' old <|
      .named (", ".intercalate params) (", ".intercalate params') old <|
        .both (fun p b => .callback event p.1 params p.2 b)
          (.both Prod.mk (mergeIn arg arg') record (mergeIn record record'))
          b (mergeBody b.length b'.length b b')
  | .label n b, .label n' b' =>
    .named n n' (.label n b) ((mergeBody b.length b'.length b b').map (.label n))
  | .breakTo n t, .breakTo n' u => .named n n' (.breakTo n t) ((mergeIn t u).map (.breakTo n))
  | .closure fs, .closure fs' =>
    if sameKeys fs fs' then (mergeFields fs fs').map .closure
    else .stopped (.closure fs) (.fields (Fields.keys fs) (Fields.keys fs'))
  | .object fs, .object fs' =>
    if sameKeys fs fs' then (mergeFields fs fs').map .object
    else .stopped (.object fs) (.fields (Fields.keys fs) (Fields.keys fs'))
  | .array ts, .array us =>
    if ts.length = us.length then (mergeItems ts us).map .array
    else .stopped (.array ts) (.length "array" ts.length us.length)
  | .index t i, .index u j => .both .index (mergeIn t u) i (mergeIn i j)
  | .methodCall t m ts, .methodCall u m' us =>
    .named m m' (.methodCall t m ts) <|
      .both (.methodCall · m ·) (mergeIn t u) ts <|
        if ts.length = us.length then mergeItems ts us
        else .stopped ts (.length "method arguments" ts.length us.length)
  | .primitive event ts, .primitive event' us =>
    .named event event' (.primitive event ts) <|
      .map (.primitive event) <|
        if ts.length = us.length then mergeItems ts us
        else .stopped ts (.length "primitive arguments" ts.length us.length)
  | t, incoming => .stopped t (.kind t.kind incoming.kind)
termination_by structural _ incoming => incoming

def mergeTarget : Target → Target → Merged Target
  | .name a, .name b => if a = b then .done (.name a) else .stopped (.name a) (.name a b)
  | .captured t field, .captured u found =>
    .named field found (.captured t field) ((mergeIn t u).map (.captured · field))
  | .index t i, .index u j => .both .index (mergeIn t u) i (mergeIn i j)
  | x, y => .stopped x (.kind x.toTrace.kind y.toTrace.kind)
termination_by structural _ incoming => incoming

/-- Merges statement lists that have `expected` and `found` statements in all.  A hole at the
end of either list takes the rest of the other; otherwise the lists have to be equally long. -/
def mergeBody (expected found : Nat) : List Trace → List Trace → Merged (List Trace)
  | [], [] => .done []
  | .hole :: _, [] => .done []
  | t :: ts, [] => .stopped (t :: ts) (.length "block" expected found)
  | [], .hole :: _ => .done []
  | [], _ :: _ => .stopped [] (.length "block" expected found)
  | .hole :: _, u :: us => .done (u :: us)
  | t :: ts, .hole :: _ => .done (t :: ts)
  | t :: ts, u :: us => .both List.cons (mergeIn t u) ts (mergeBody expected found ts us)
termination_by structural _ incoming => incoming

/-- Merges lists of equal length element by element. -/
def mergeItems : List Trace → List Trace → Merged (List Trace)
  | t :: ts, u :: us => .both List.cons (mergeIn t u) ts (mergeItems ts us)
  | ts, _ => .done ts
termination_by structural _ incoming => incoming

/-- Merges records with the same fields, in the order of the second one. -/
def mergeFields : List (String × Trace) → List (String × Trace) → Merged (List (String × Trace))
  | fs, [] => .done fs
  | fs, (key, u) :: us =>
    match Fields.get? key fs with
    | none => mergeFields fs us
    | some t =>
      let slot := mergeIn t u
      let fs := Fields.insert key slot.result fs
      match slot.mismatch with
      | some m => .stopped fs m
      | none => mergeFields fs us
termination_by structural _ incoming => incoming

end

/-- The trace that holds what either of two traces holds, if they agree. -/
def merge (t u : Trace) : Except Mismatch Trace :=
  let merged := mergeIn t u
  match merged.mismatch with
  | none => .ok merged.result
  | some m => .error m

end Trace

end TraceLoom
