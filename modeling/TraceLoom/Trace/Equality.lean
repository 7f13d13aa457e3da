import TraceLoom.Trace.Basic

/-!
Equality of traces by content.  Numbers are equal as numbers, so not-a-number differs from
itself and both zeros are one; records are equal whatever the order of their fields.
-/

namespace TraceLoom.Trace

mutual

def equal : Trace → Trace → Bool
  | .hole, .hole => true
  | .number x, .number y => x == y
  | .boolean a, .boolean b => a == b
  | .string a, .string b => a == b
  | .undefined, .undefined => true
  | .name a, .name b => a == b
  | .captured t field, .captured u field' => equal t u && field == field'
  | .property t field, .property u field' => equal t u && field == field'
  | .binary op l r, .binary op' l' r' => op == op' && equal l l' && equal r r'
  | .unary op t, .unary op' u => op == op' && equal t u
  | .bind n t, .bind n' u => n == n' && equal t u
  | .assign x t, .assign y u => equalTarget x y && equal t u
  | .block b, .block b' => equalItems b b'
  | .ifElse c t e, .ifElse c' t' e' => equal c c' && equalItems t t' && equalItems e e'
  | .whileDo c b, .whileDo c' b' => equal c c' && equalItems b b'
  | .callback event arg params record b, .callback event' arg' params' record' b' =>
    event == event' && equal arg arg' && params == params' && equal record record' &&
      equalItems b b'
  | .label n b, .label n' b' => n == n' && equalItems b b'
  | .breakTo n t, .breakTo n' u => n == n' && equal t u
  | .closure fs, .closure gs => fs.length == gs.length && equalFields fs gs
  | .object fs, .object gs => fs.length == gs.length && equalFields fs gs
  | .array ts, .array us => equalItems ts us
  | .index t i, .index u j => equal t u && equal i j
  | .methodCall t m ts, .methodCall u m' us => equal t u && m == m' && equalItems ts us
  | .primitive event ts, .primitive event' us => event == event' && equalItems ts us
  | _, _ => false
termination_by structural _ u => u

def equalTarget : Target → Target → Bool
  | .name a, .name b => a == b
  | .captured t field, .captured u field' => equal t u && field == field'
  | .index t i, .index u j => equal t u && equal i j
  | _, _ => false
termination_by structural _ u => u

def equalItems : List Trace → List Trace → Bool
  | [], [] => true
  | t :: ts, u :: us => equal t u && equalItems ts us
  | _, _ => false
termination_by structural _ us => us

/-- Whether the first record has every field of the second, with the same content. -/
def equalFields (fs : List (String × Trace)) : List (String × Trace) → Bool
  | [] => true
  | (key, u) :: us =>
    (match Fields.get? key fs with
      | some t => equal t u
      | none => false) && equalFields fs us
termination_by structural us => us

end

end TraceLoom.Trace
