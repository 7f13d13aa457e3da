import TraceLoom.Trace.Equality
import TraceLoom.Value.Store

/-!
Three equalities of values: the script's two, of which the loose one only adds that null equals
undefined, and equality by content.
-/

namespace TraceLoom

open Numeric

namespace Value

/-- Equality of primitive values by value and of all others by identity. -/
def strictEquals : Value → Value → Bool
  | undefined, undefined => true
  | null, null => true
  | boolean a, boolean b => a == b
  | number x, number y => x == y
  | string a, string b => a == b
  | array a, array b => a == b
  | object a, object b => a == b
  | function a _, function b _ => a == b
  | native a, native b => a == b
  | trace a _, trace b _ => a == b
  | _, _ => false

def looseEquals (v w : Value) : Bool :=
  (v.isNullish && w.isNullish) || strictEquals v w

/-- Like `strictEquals`, but not-a-number equals itself; an array is searched by this. -/
def sameValue : Value → Value → Bool
  | number x, number y => Binary64.same x y
  | v, w => strictEquals v w

end Value

namespace Store

/-- Equality by content of values whose arrays and objects nest at most `depth` deep. -/
def alikeWithin (s : Store) : Nat → Value → Value → Bool
  | 0, _, _ => false
  | depth + 1, v, w =>
    match v, w with
    | .array a, .array b =>
      let xs := (s.items a).toList
      let ys := (s.items b).toList
      xs.length == ys.length && (xs.zip ys).all fun pair => alikeWithin s depth pair.1 pair.2
    | .object a, .object b =>
      let fs := s.properties a
      let gs := s.properties b
      fs.length == gs.length && fs.all fun field =>
        match gs.get? field.1 with
        | some found => alikeWithin s depth field.2 found
        | none => false
    | .trace _ t, .trace _ u => t.equal u
    | v, w => v.sameValue w

/-- Equality by content, whatever the order of the properties. -/
def alike (s : Store) (v w : Value) : Bool :=
  s.alikeWithin (s.arrays.size + s.objects.size + 1) v w

end Store

end TraceLoom
