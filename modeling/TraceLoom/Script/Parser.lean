import TraceLoom.Script.Error
import TraceLoom.Script.Token

/-!
Reading scripts.  A phrase is recognised by the first alternative that fits, in the order of the
grammar; an optional part that does not fit is left to what follows.  A phrase that is
recognised has a reading, which is its syntax tree or the first reason to refuse it: refused
constructs are recognised like all others, so a text outside the grammar is always reported as
such.  Every function here gives the reading of its phrase and the place behind it.
-/

namespace TraceLoom.Script.Parser

open Cursor

/-! ## Operators -/

def infixOp? (c : Cursor) : Option (BinaryOp × Cursor) :=
  match c.next? with
  | some ⟨.symbol s, _, rest⟩ => (BinaryOp.ofSymbol? s).map (·, rest)
  | _ => none

def assignOp? (c : Cursor) : Option (AssignOp × Cursor) :=
  match c.next? with
  | some ⟨.symbol s, _, rest⟩ =>
    match s with
    | "=" => some (.assign, rest)
    | "+=" => some (.addAssign, rest)
    | "-=" => some (.subAssign, rest)
    | "*=" => some (.mulAssign, rest)
    | "/=" => some (.divAssign, rest)
    | _ => none
  | _ => none

def updateOp? (s : String) : Option UpdateOp :=
  match s with
  | "++" => some .increment
  | "--" => some .decrement
  | _ => none

/-- An operator before its operand, with its position. -/
def prefixOp? (c : Cursor) : Option ((UpdateOp ⊕ UnaryOp) × Position × Cursor) :=
  match c.next? with
  | some ⟨.symbol s, pos, rest⟩ =>
    match updateOp? s with
    | some op => some (.inl op, pos, rest)
    | none => (UnaryOp.ofSymbol? s).map (.inr ·, pos, rest)
  | some ⟨.word w, pos, rest⟩ => (UnaryOp.ofSymbol? w).map (.inr ·, pos, rest)
  | _ => none

/-- An update of a target; anything else cannot be updated. -/
def update (pos : Position) (op : UpdateOp) (isPrefix : Bool) (target : Expr) : Reading Expr :=
  if target.isTarget then .ok (.update pos op isPrefix target) else .error (.invalidTarget pos)

def applyPrefix (op : UpdateOp ⊕ UnaryOp) (pos : Position) (operand : Reading Expr) :
    Reading Expr := do
  let operand ← operand
  match op with
  | .inl op => update pos op true operand
  | .inr op => return .unary pos op operand

/-- Updates written behind a target, each with the target's position. -/
def applyPostfix (target : Reading Expr) (op : UpdateOp) : Reading Expr := do
  let target ← target
  update target.pos op false target

def assign (pos : Position) (op : AssignOp) (target value : Reading Expr) : Reading Expr := do
  let target ← target
  if target.isTarget then
    let value ← value
    return .assign pos op target value
  else throw (.invalidTarget pos)

/-! ### Precedence

Operands and operators come as a flat list; `pending` holds the left operands that wait for
their right one, their operators binding more and more tightly. -/

abbrev Pending := List (Reading Expr × BinaryOp)

def binary (left : Reading Expr) (op : BinaryOp) (right : Reading Expr) : Reading Expr := do
  let left ← left
  let right ← right
  return .binary left.pos op left right

/-- Completes the waiting operators that bind at least as tightly as `least`. -/
def reduce (least : Nat) : Pending → Reading Expr → Pending × Reading Expr
  | [], e => ([], e)
  | (left, op) :: pending, e =>
    if op.precedence ≥ least then reduce least pending (binary left op e)
    else ((left, op) :: pending, e)

/-- The tree of an operand followed by operators with their right operands. -/
def combine (pending : Pending) (e : Reading Expr) : List (BinaryOp × Reading Expr) → Reading Expr
  | [] => (reduce 0 pending e).2
  | (op, right) :: rest =>
    let (pending, left) := reduce op.precedence pending e
    combine ((left, op) :: pending) right rest

/-! ## Names and patterns -/

def moreNames : Nat → Cursor → List String × Cursor
  | 0, c => ([], c)
  | fuel + 1, c =>
    match (c.symbol? ",").bind name? with
    | some (name, c) =>
      let (names, c) := moreNames fuel c
      (name :: names, c)
    | none => ([], c)

def arrayPattern (fuel : Nat) (c : Cursor) : Option (Reading Pattern × Cursor) := do
  let c ← c.symbol? "["
  match c.name? with
  | some (first, c) =>
    let (names, c) := moreNames fuel c
    let c ← c.symbol? "]"
    return (.ok (.array (first :: names)), c)
  | none =>
    let c ← c.symbol? "]"
    return (.ok (.array []), c)

def binding (fuel : Nat) (c : Cursor) : Option (Reading Pattern × Cursor) :=
  match c.name? with
  | some (name, c) => some (.ok (.name name), c)
  | none =>
    match arrayPattern fuel c with
    | some phrase => some phrase
    | none => c.objectPattern?.map fun rest =>
      (.error (.unsupported .objectPattern c.skip.pos), rest)

def moreBindings : Nat → Cursor → List (Reading Pattern) × Cursor
  | 0, c => ([], c)
  | fuel + 1, c =>
    match (c.symbol? ",").bind (binding fuel) with
    | some (first, c) =>
      let (others, c) := moreBindings fuel c
      (first :: others, c)
    | none => ([], c)

/-- The parameters of a function that starts at `pos`; they have to be names. -/
def paramNames (pos : Position) : List (Reading Pattern) → Reading (List String)
  | [] => .ok []
  | first :: rest => do
    match ← first with
    | .name name => return name :: (← paramNames pos rest)
    | .array _ => throw (.unsupported .patternParameter pos)

def params (fuel : Nat) (c : Cursor) : Option (List (Reading Pattern) × Cursor) := do
  let c ← c.symbol? "("
  match binding fuel c with
  | some (first, c) =>
    let (others, c) := moreBindings fuel c
    let c ← c.symbol? ")"
    return (first :: others, c)
  | none =>
    let c ← c.symbol? ")"
    return ([], c)

/-! ## Expressions and statements -/

/-- A statement as the body of another: a block gives its statements, an empty statement none. -/
def asBody : Option Stmt → List Stmt
  | none => []
  | some (.block _ body) => body
  | some s => [s]

def declKind? (c : Cursor) : Option (DeclKind × Cursor) :=
  match c.keyword? "let", c.keyword? "const", c.keyword? "var" with
  | some c, _, _ => some (.ofLet, c)
  | _, some c, _ => some (.ofConst, c)
  | _, _, some c => some (.ofVar, c)
  | _, _, _ => none

/-- An object key: any word, or a string. -/
def objectKey? (c : Cursor) : Option (String × Cursor) :=
  match c.next? with
  | some ⟨.word w, _, rest⟩ => some (w, rest)
  | some ⟨.string s, _, rest⟩ => some (s, rest)
  | _ => none

def all {α : Type} (readings : List (Reading α)) : Reading (List α) :=
  readings.mapM id

/-- An entry of an object literal, or a declarator, where the reading of the first part comes
before that of the second. -/
def pair {α β : Type} (first : Reading α) (second : Reading β) : Reading (α × β) := do
  let a ← first
  let b ← second
  return (a, b)

mutual

/-- An assignment, or an expression without one at its top. -/
def assignment (fuel : Nat) (c : Cursor) : Option (Reading Expr × Cursor) :=
  match fuel with
  | 0 => none
  | fuel + 1 =>
    let pos := c.skip.pos
    if (prefixOp? c).isSome then
      (operand fuel c).map fun (first, c) => conditional fuel pos first c
    else
      match chain fuel c with
      | none => none
      | some (target, c) =>
        let assigned : Option (Reading Expr × Cursor) := do
          let (op, c) ← assignOp? c
          let (value, c) ← assignment fuel c
          return (assign pos op target value, c)
        match assigned with
        | some phrase => some phrase
        | none =>
          let (first, c) := postfixes fuel target c
          some (conditional fuel pos first c)
termination_by structural fuel

/-- What follows the first operand of an expression.  A condition with two branches is refused
once its test has been read. -/
def conditional (fuel : Nat) (pos : Position) (first : Reading Expr) (c : Cursor) :
    Reading Expr × Cursor :=
  match fuel with
  | 0 => (first, c)
  | fuel + 1 =>
    let (operands, c) := operations fuel c
    let test := combine [] first operands
    let branches : Option Cursor := do
      let c ← c.symbol? "?"
      let (_, c) ← assignment fuel c
      let c ← c.symbol? ":"
      let (_, c) ← assignment fuel c
      return c
    match branches with
    | some c => (test.bind fun _ => .error (.unsupported .conditional pos), c)
    | none => (test, c)
termination_by structural fuel

def operations (fuel : Nat) (c : Cursor) : List (BinaryOp × Reading Expr) × Cursor :=
  match fuel with
  | 0 => ([], c)
  | fuel + 1 =>
    match (infixOp? c).bind fun (op, c) => (operand fuel c).map (op, ·) with
    | some (op, right, c) =>
      let (rest, c) := operations fuel c
      ((op, right) :: rest, c)
    | none => ([], c)
termination_by structural fuel

/-- An operand with the operators before and behind it; those behind bind more tightly. -/
def operand (fuel : Nat) (c : Cursor) : Option (Reading Expr × Cursor) :=
  match fuel with
  | 0 => none
  | fuel + 1 =>
    match prefixOp? c with
    | some (op, pos, c) => (operand fuel c).map fun (inner, c) => (applyPrefix op pos inner, c)
    | none => (chain fuel c).map fun (target, c) => postfixes fuel target c
termination_by structural fuel

def postfixes (fuel : Nat) (target : Reading Expr) (c : Cursor) : Reading Expr × Cursor :=
  match fuel with
  | 0 => (target, c)
  | fuel + 1 =>
    match c.next? with
    | some ⟨.symbol s, _, rest⟩ =>
      match updateOp? s with
      | some op => postfixes fuel (applyPostfix target op) rest
      | none => (target, c)
    | _ => (target, c)
termination_by structural fuel

/-- A primary expression with calls and accesses behind it. -/
def chain (fuel : Nat) (c : Cursor) : Option (Reading Expr × Cursor) :=
  match fuel with
  | 0 => none
  | fuel + 1 =>
    (primary fuel c).map fun (head, rest) => suffixes fuel c.skip.pos head rest
termination_by structural fuel

def suffixes (fuel : Nat) (pos : Position) (head : Reading Expr) (c : Cursor) :
    Reading Expr × Cursor :=
  match fuel with
  | 0 => (head, c)
  | fuel + 1 =>
    match suffix fuel pos head c with
    | some (longer, c) => suffixes fuel pos longer c
    | none => (head, c)
termination_by structural fuel

def suffix (fuel : Nat) (pos : Position) (head : Reading Expr) (c : Cursor) :
    Option (Reading Expr × Cursor) :=
  match fuel with
  | 0 => none
  | fuel + 1 =>
    match c.next? with
    | some ⟨.symbol "(", _, c⟩ => do
      let (args, c) ← expressions fuel c
      let c ← c.symbol? ")"
      return (do return .call pos (← head) (← all args), c)
    | some ⟨.symbol ".", _, c⟩ =>
      match c.next? with
      | some ⟨.word property, _, c⟩ => some (do return .member pos (← head) property, c)
      | _ => none
    | some ⟨.symbol "[", _, c⟩ => do
      let (index, c) ← assignment fuel c
      let c ← c.symbol? "]"
      return (do return .index pos (← head) (← index), c)
    | _ => none
termination_by structural fuel

def expressions (fuel : Nat) (c : Cursor) : Option (List (Reading Expr) × Cursor) :=
  match fuel with
  | 0 => none
  | fuel + 1 =>
    match assignment fuel c with
    | some (first, c) =>
      let (others, c) := moreExpressions fuel c
      some (first :: others, c)
    | none => some ([], c)
termination_by structural fuel

def moreExpressions (fuel : Nat) (c : Cursor) : List (Reading Expr) × Cursor :=
  match fuel with
  | 0 => ([], c)
  | fuel + 1 =>
    match (c.symbol? ",").bind (assignment fuel) with
    | some (first, c) =>
      let (others, c) := moreExpressions fuel c
      (first :: others, c)
    | none => ([], c)
termination_by structural fuel

def primary (fuel : Nat) (c : Cursor) : Option (Reading Expr × Cursor) :=
  match fuel with
  | 0 => none
  | fuel + 1 =>
    match c.next? with
    | some ⟨.number x, pos, c⟩ => some (.ok (.number pos x), c)
    | some ⟨.string s, pos, c⟩ => some (.ok (.string pos s), c)
    | some ⟨.word "true", pos, c⟩ => some (.ok (.boolean pos true), c)
    | some ⟨.word "false", pos, c⟩ => some (.ok (.boolean pos false), c)
    | some ⟨.word "null", pos, c⟩ => some (.ok (.null pos), c)
    | some ⟨.word "this", pos, c⟩ => some (.error (.unsupported .thisValue pos), c)
    | some ⟨.word "new", pos, c⟩ =>
      (chain fuel c).map fun (_, c) => (.error (.unsupported .newObject pos), c)
    | some ⟨.word "function", pos, c⟩ =>
      let (name, c) := match c.name? with
        | some (name, c) => (some name, c)
        | none => (none, c)
      (functionTail fuel pos c).map fun (tail, c) =>
        (tail.map fun (params, body) => .function pos name params body, c)
    | some ⟨.symbol "[", pos, c⟩ => do
      let (items, c) ← expressions fuel c
      let c ← (c.optionalSymbol ",").symbol? "]"
      return ((all items).map (.array pos), c)
    | some ⟨.symbol "\x7b", pos, c⟩ => do
      let (entries, c) ← properties fuel c
      let c ← (c.optionalSymbol ",").symbol? "\x7d"
      return ((all entries).map (.object pos), c)
    | some ⟨.symbol "(", _, c⟩ => do
      let (inner, c) ← assignment fuel c
      let c ← c.symbol? ")"
      return (inner, c)
    | some ⟨.word w, pos, c⟩ =>
      if w ∈ Token.keywords then none else some (.ok (.name pos w), c)
    | _ => none
termination_by structural fuel

/-- Entries of an object literal, separated by commas; possibly none. -/
def properties (fuel : Nat) (c : Cursor) : Option (List (Reading (String × Expr)) × Cursor) :=
  match fuel with
  | 0 => none
  | fuel + 1 =>
    match property fuel c with
    | some (first, c) =>
      let (others, c) := moreProperties fuel c
      some (first :: others, c)
    | none => some ([], c)
termination_by structural fuel

def moreProperties (fuel : Nat) (c : Cursor) : List (Reading (String × Expr)) × Cursor :=
  match fuel with
  | 0 => ([], c)
  | fuel + 1 =>
    match (c.symbol? ",").bind (property fuel) with
    | some (first, c) =>
      let (others, c) := moreProperties fuel c
      (first :: others, c)
    | none => ([], c)
termination_by structural fuel

def property (fuel : Nat) (c : Cursor) : Option (Reading (String × Expr) × Cursor) :=
  match fuel with
  | 0 => none
  | fuel + 1 => do
    let (key, c) ← objectKey? c
    let c ← c.symbol? ":"
    let (value, c) ← assignment fuel c
    return (value.map (key, ·), c)
termination_by structural fuel

/-- Parameters and body of a function that starts at `pos`. -/
def functionTail (fuel : Nat) (pos : Position) (c : Cursor) :
    Option (Reading (List String × List Stmt) × Cursor) :=
  match fuel with
  | 0 => none
  | fuel + 1 => do
    let (bindings, c) ← params fuel c
    let (body, c) ← block fuel c
    return (pair (paramNames pos bindings) body, c)
termination_by structural fuel

def block (fuel : Nat) (c : Cursor) : Option (Reading (List Stmt) × Cursor) :=
  match fuel with
  | 0 => none
  | fuel + 1 => do
    let c ← c.symbol? "\x7b"
    let (body, c) := statements fuel c
    let c ← c.symbol? "\x7d"
    return (body, c)
termination_by structural fuel

def statements (fuel : Nat) (c : Cursor) : Reading (List Stmt) × Cursor :=
  match fuel with
  | 0 => (.ok [], c)
  | fuel + 1 =>
    match statement fuel c with
    | none => (.ok [], c)
    | some (first, c) =>
      let (others, c) := statements fuel c
      (do return (← first).toList ++ (← others), c)
termination_by structural fuel

/-- A statement; an empty one has no tree. -/
def statement (fuel : Nat) (c : Cursor) : Option (Reading (Option Stmt) × Cursor) :=
  match fuel with
  | 0 => none
  | fuel + 1 =>
    match special fuel c with
    | some phrase => some phrase
    | none => do
      let (e, rest) ← assignment fuel c
      return (e.map fun e => some (.expr c.skip.pos e), rest.optionalSymbol ";")
termination_by structural fuel

/-- A statement that does not start with an expression. -/
def special (fuel : Nat) (c : Cursor) : Option (Reading (Option Stmt) × Cursor) :=
  match fuel with
  | 0 => none
  | fuel + 1 =>
    match c.next? with
    | some ⟨.symbol "\x7b", pos, _⟩ =>
      (block fuel c).map fun (body, c) => (body.map fun body => some (.block pos body), c)
    | some ⟨.symbol ";", _, c⟩ => some (.ok none, c)
    | some ⟨.word "function", pos, c⟩ => do
      let (name, c) ← c.name?
      let (tail, c) ← functionTail fuel pos c
      return (tail.map fun (params, body) => some (.function pos name params body), c)
    | some ⟨.word "if", pos, c⟩ => do
      let (test, c) ← parenthesized fuel c
      let (consequent, c) ← statement fuel c
      match (c.keyword? "else").bind (statement fuel) with
      | some (alternate, c) =>
        return (do return some (.ifElse pos (← test) (asBody (← consequent))
          (some (asBody (← alternate)))), c)
      | none => return (do return some (.ifElse pos (← test) (asBody (← consequent)) none), c)
    | some ⟨.word "while", pos, c⟩ => do
      let (test, c) ← parenthesized fuel c
      let (body, c) ← statement fuel c
      return (do return some (.whileDo pos (← test) (asBody (← body))), c)
    | some ⟨.word "for", pos, c⟩ => do
      let c ← c.parenGroup?
      let (_, c) ← statement fuel c
      return (.error (.unsupported .forLoop pos), c)
    | some ⟨.word "do", pos, c⟩ => do
      let (_, c) ← statement fuel c
      let c ← c.keyword? "while"
      let c ← c.parenGroup?
      return (.error (.unsupported .doLoop pos), c.optionalSymbol ";")
    | some ⟨.word "switch", pos, c⟩ => do
      let c ← c.parenGroup?
      let c ← c.braceGroup?
      return (.error (.unsupported .switchCase pos), c)
    | some ⟨.word "try", pos, c⟩ => do
      let c ← c.braceGroup?
      let caught : Option Cursor := do
        let c ← c.keyword? "catch"
        (c.parenGroup?.getD c).braceGroup?
      let c := caught.getD c
      let finished : Option Cursor := (c.keyword? "finally").bind braceGroup?
      return (.error (.unsupported .tryCatch pos), finished.getD c)
    | some ⟨.word "throw", pos, c⟩ => do
      let (_, c) ← assignment fuel c
      return (.error (.unsupported .throwing pos), c.optionalSymbol ";")
    | some ⟨.word "continue", pos, c⟩ =>
      let c := (c.name?.map (·.2)).getD c
      some (.error (.unsupported .continuing pos), c.optionalSymbol ";")
    | some ⟨.word "break", pos, c⟩ =>
      match c.name? with
      | some (label, c) => some (.ok (some (.breakTo pos (some label))), c.optionalSymbol ";")
      | none => some (.ok (some (.breakTo pos none)), c.optionalSymbol ";")
    | some ⟨.word "return", pos, c⟩ =>
      match assignment fuel c with
      | some (value, c) =>
        some (value.map fun value => some (.returnWith pos (some value)), c.optionalSymbol ";")
      | none => some (.ok (some (.returnWith pos none)), c.optionalSymbol ";")
    | some ⟨.word w, pos, rest⟩ =>
      match declKind? c with
      | some (kind, c) => do
        let (first, c) ← declarator fuel c
        let (others, c) := moreDeclarators fuel c
        return ((all (first :: others)).map fun ds => some (.declare pos kind ds),
          c.optionalSymbol ";")
      | none =>
        if w ∈ Token.keywords then none
        else do
          let c ← rest.symbol? ":"
          let (body, c) ← statement fuel c
          return (body.map fun body => some (.labeled pos w (asBody body)), c)
    | _ => none
termination_by structural fuel

def parenthesized (fuel : Nat) (c : Cursor) : Option (Reading Expr × Cursor) :=
  match fuel with
  | 0 => none
  | fuel + 1 => do
    let c ← c.symbol? "("
    let (e, c) ← assignment fuel c
    let c ← c.symbol? ")"
    return (e, c)
termination_by structural fuel

def declarator (fuel : Nat) (c : Cursor) : Option (Reading (Pattern × Option Expr) × Cursor) :=
  match fuel with
  | 0 => none
  | fuel + 1 => do
    let (target, c) ← binding fuel c
    match (c.symbol? "=").bind (assignment fuel) with
    | some (init, c) => return (pair target (init.map some), c)
    | none => return (target.map (·, none), c)
termination_by structural fuel

def moreDeclarators (fuel : Nat) (c : Cursor) :
    List (Reading (Pattern × Option Expr)) × Cursor :=
  match fuel with
  | 0 => ([], c)
  | fuel + 1 =>
    match (c.symbol? ",").bind (declarator fuel) with
    | some (first, c) =>
      let (others, c) := moreDeclarators fuel c
      (first :: others, c)
    | none => ([], c)
termination_by structural fuel

end

/-- Steps that suffice for a text: between two characters no phrase opens more than a dozen
others. -/
def enough (text : String) : Nat :=
  16 * (text.length + 1)

end Parser

def parse (text : String) : Except ParseError Program :=
  let (program, c) := Parser.statements (Parser.enough text) (.start text)
  if c.atEnd then program else .error .malformed

end TraceLoom.Script
