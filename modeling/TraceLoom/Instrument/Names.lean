import TraceLoom.Fields
import TraceLoom.Instrument.Error

/-!
The names a function sees: its own, and those it captures from the functions around it.  They
stand in the order in which they were first bound or used, which is also the order of the fields
in closure records.
-/

namespace TraceLoom

open Script (Position)

inductive Binding where
  /-- Bound in this function. -/
  | own
  /-- Used here and bound in a function around this one. -/
  | captured
  deriving DecidableEq, Repr

/-- How a name is bound, and where it was first seen. -/
structure Sighting where
  binding : Binding
  pos : Position
  deriving DecidableEq, Repr

/-- The names a function sees. -/
abbrev Names := Fields Sighting

namespace Names

def none : Names := []

def lookup (names : Names) (name : String) : Option Binding :=
  (Fields.get? name names).map Sighting.binding

/-- Binds a name in this function.  A captured name becomes its own until the scope is left. -/
def bind (names : Names) (name : String) (pos : Position) : Names :=
  if names.lookup name = some .own then names else Fields.insert name ⟨.own, pos⟩ names

/-- The names a function starts with: its parameters. -/
def ofParams (params : List String) (pos : Position) : Names :=
  params.foldl (fun names param => names.bind param pos) none

/-- How a name that is used is bound.  A name not seen before is captured. -/
def resolve (names : Names) (name : String) (pos : Position) : Binding × Names :=
  match names.lookup name with
  | some binding => (binding, names)
  | Option.none => (.captured, names ++ [(name, ⟨.captured, pos⟩)])

/-- Adds the captures of an inner scope that are not known yet. -/
def addCaptures (names : Names) : Names → Names
  | [] => names
  | (name, sighting) :: rest =>
    if sighting.binding = .captured ∧ names.lookup name = Option.none then
      addCaptures (names ++ [(name, sighting)]) rest
    else addCaptures names rest

/-- Leaves a scope inside `outer`: what was bound in it is forgotten, what it captured stays. -/
def leave (inner outer : Names) : Names :=
  outer.addCaptures inner

/-- Joins the names after the two branches of a conditional, which have to agree. -/
def join (names : Names) : Names → Except InstrumentError Names
  | [] => .ok names
  | (name, sighting) :: rest =>
    match names.lookup name with
    | some binding =>
      if binding = sighting.binding then join names rest
      else .error (.captureConflict name sighting.pos)
    | Option.none => join (names ++ [(name, sighting)]) rest

/-- Drops a name if it is captured, and tells whether it was. -/
def forget (names : Names) (name : String) : Names × Bool :=
  if names.lookup name = some .captured then (Fields.erase name names, true) else (names, false)

/-- The captured names, each with the place of its first use. -/
def captures (names : Names) : List (String × Position) :=
  names.filterMap fun entry =>
    if entry.2.binding = .captured then some (entry.1, entry.2.pos) else Option.none

/-- Resolves the captures of an inner function in the function around it.  Each goes with how
that function sees the name. -/
def closeOver (names : Names) (inner : Names) : Names × List (String × Binding) :=
  inner.captures.foldl (fun (names, sources) (name, pos) =>
    let (binding, names) := names.resolve name pos
    (names, sources ++ [(name, binding)])) (names, [])

end Names

end TraceLoom
