import TraceLoom.Script.Syntax

/-!
A place in a script text: what is left to read, and the line and column reached.  Blanks and
comments are skipped here; a block comment that is never closed is none.
-/

namespace TraceLoom.Script

/-- The position after a character.  Only a line feed ends a line. -/
def Position.after (pos : Position) (c : Char) : Position :=
  if c = '\n' then ⟨pos.line + 1, 1⟩ else ⟨pos.line, pos.column + 1⟩

def Position.afterAll (pos : Position) (text : List Char) : Position :=
  text.foldl Position.after pos

structure Cursor where
  text : List Char
  pos : Position
  deriving DecidableEq, Repr, Inhabited

namespace Cursor

def start (text : String) : Cursor :=
  ⟨text.toList, ⟨1, 1⟩⟩

/-- The cursor after `lexeme`, which starts its text. -/
def past (c : Cursor) (lexeme rest : List Char) : Cursor :=
  ⟨rest, c.pos.afterAll lexeme⟩

def isBlank (c : Char) : Bool :=
  c == ' ' || c == '\t' || c == '\r' || c == '\n'

/-- Whether a block comment ends somewhere in a text. -/
def closes : List Char → Bool
  | '*' :: '/' :: _ => true
  | _ :: rest => closes rest
  | [] => false

/-- What skipping is in the middle of. -/
inductive Gap where
  | blanks | lineComment | blockComment

/-- Reads over blanks and comments, starting in the middle of a gap. -/
def skipFrom : Gap → List Char → Position → Cursor
  | _, [], pos => ⟨[], pos⟩
  | .blanks, '/' :: '/' :: rest, pos => skipFrom .lineComment rest (pos.afterAll ['/', '/'])
  | .blanks, '/' :: '*' :: rest, pos =>
    if closes rest then skipFrom .blockComment rest (pos.afterAll ['/', '*'])
    else ⟨'/' :: '*' :: rest, pos⟩
  | .blanks, c :: rest, pos =>
    if isBlank c then skipFrom .blanks rest (pos.after c) else ⟨c :: rest, pos⟩
  | .lineComment, c :: rest, pos =>
    if c = '\n' then skipFrom .blanks rest (pos.after c)
    else skipFrom .lineComment rest (pos.after c)
  | .blockComment, '*' :: '/' :: rest, pos => skipFrom .blanks rest (pos.afterAll ['*', '/'])
  | .blockComment, c :: rest, pos => skipFrom .blockComment rest (pos.after c)

/-- The next place that is neither blank nor in a comment. -/
def skip (c : Cursor) : Cursor :=
  skipFrom .blanks c.text c.pos

end Cursor

end TraceLoom.Script
