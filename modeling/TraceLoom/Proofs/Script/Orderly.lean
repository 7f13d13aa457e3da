import TraceLoom.Proofs.Script.Progress
import TraceLoom.Proofs.Script.Proper
import TraceLoom.Script.Parser

/-!
Texts whose words are as they should be.  From a text that is orderly by a vocabulary come only
syntax trees that are proper by it: words that may not name variables stand where none is named.
-/

namespace TraceLoom.Script

/-- A word that can name something. -/
def IsName (w : String) : Prop :=
  isNameText w = true ∧ w ∉ Token.keywords

section

variable (V : Vocabulary)

/-! ## Texts -/

/-- Marks behind which a statement may start. -/
def opensStatement (s : String) : Bool :=
  s == "\x7b" || s == "\x7d" || s == ";"

/-- A text that is in order up to where no token can be read.  The flag says whether a statement
that is read as a whole may start here. -/
inductive Orderly : Bool → Cursor → Prop
  | stop {fresh : Bool} {c : Cursor} (next : c.next? = none) : Orderly fresh c
  | number {fresh : Bool} {c rest : Cursor} {x : Float} {pos : Position}
      (next : c.next? = some ⟨.number x, pos, rest⟩) (behind : Orderly false rest) :
      Orderly fresh c
  | string {fresh : Bool} {c rest : Cursor} {s : String} {pos : Position}
      (next : c.next? = some ⟨.string s, pos, rest⟩) (behind : Orderly false rest) :
      Orderly fresh c
  | symbol {fresh : Bool} {c rest : Cursor} {s : String} {pos : Position}
      (next : c.next? = some ⟨.symbol s, pos, rest⟩) (ne : s ≠ ".")
      (behind : Orderly (opensStatement s) rest) : Orderly fresh c
  | word {fresh : Bool} {c rest : Cursor} {w : String} {pos : Position}
      (next : c.next? = some ⟨.word w, pos, rest⟩) (own : w ∈ Token.keywords ∨ V.own w)
      (behind : Orderly false rest) : Orderly fresh c
  /-- A point before anything but a word. -/
  | dot {fresh : Bool} {c rest : Cursor} {pos : Position}
      (next : c.next? = some ⟨.symbol ".", pos, rest⟩)
      (no_word : ∀ w wpos behind, rest.next? ≠ some ⟨.word w, wpos, behind⟩) : Orderly fresh c
  | property {fresh : Bool} {c rest behind : Cursor} {w : String} {pos wpos : Position}
      (next : c.next? = some ⟨.symbol ".", pos, rest⟩)
      (name : rest.next? = some ⟨.word w, wpos, behind⟩) (ok : V.property w)
      (behind : Orderly false behind) : Orderly fresh c
  /-- A key of an object, or a label. -/
  | key {fresh : Bool} {c rest behind : Cursor} {w : String} {pos cpos : Position}
      (next : c.next? = some ⟨.word w, pos, rest⟩)
      (colon : rest.next? = some ⟨.symbol ":", cpos, behind⟩) (ok : V.label w)
      (behind : Orderly false behind) : Orderly fresh c
  | breakTo {fresh : Bool} {c rest behind : Cursor} {w : String} {pos wpos : Position}
      (next : c.next? = some ⟨.word "break", pos, rest⟩)
      (name : rest.next? = some ⟨.word w, wpos, behind⟩) (no_keyword : w ∉ Token.keywords)
      (ok : V.label w) (behind : Orderly false behind) : Orderly fresh c
  | function {fresh : Bool} {c rest behind : Cursor} {w : String} {pos wpos : Position}
      (next : c.next? = some ⟨.word "function", pos, rest⟩)
      (name : rest.next? = some ⟨.word w, wpos, behind⟩) (no_keyword : w ∉ Token.keywords)
      (ok : V.self w) (behind : Orderly false behind) : Orderly fresh c
  /-- A statement that is read as a whole. -/
  | inserted {c rest : Cursor} {w : String} {pos : Position} {text : List Char}
      (next : c.next? = some ⟨.word w, pos, rest⟩)
      (no_else : w ≠ "else")
      (no_colon : ∀ cpos after, rest.next? ≠ some ⟨.symbol ":", cpos, after⟩)
      (read : ∀ fuel, 16 * c.size + 10 ≤ fuel → ∃ s bpos,
        Parser.statement fuel c = some (.ok (some s), ⟨text, bpos⟩) ∧ V.inserted s)
      (shorter : text.length < c.size) (behind : ∀ bpos, Orderly true ⟨text, bpos⟩) :
      Orderly true c

variable {V} {fresh : Bool} {c rest : Cursor}

/-- Reading goes no further where the next mark is a colon. -/
def Stuck (c : Cursor) : Prop :=
  ∃ pos rest, c.next? = some ⟨.symbol ":", pos, rest⟩

namespace Orderly

theorem relax_false (h : Orderly V false c) : Orderly V true c := by
  cases h with
  | stop next => exact .stop next
  | number next behind => exact .number next behind
  | string next behind => exact .string next behind
  | symbol next ne behind => exact .symbol next ne behind
  | word next own behind => exact .word next own behind
  | dot next no_word => exact .dot next no_word
  | property next name ok behind => exact .property next name ok behind
  | key next colon ok behind => exact .key next colon ok behind
  | breakTo next name no_keyword ok behind => exact .breakTo next name no_keyword ok behind
  | function next name no_keyword ok behind => exact .function next name no_keyword ok behind

theorem relax (h : Orderly V fresh c) : Orderly V true c := by
  cases fresh with
  | true => exact h
  | false => exact h.relax_false

/-- Behind a mark other than a point. -/
theorem after_symbol {s : String} {pos : Position} (h : Orderly V fresh c)
    (hnext : c.next? = some ⟨.symbol s, pos, rest⟩) (hs : s ≠ ".") :
    Orderly V (opensStatement s) rest := by
  cases h with
  | symbol next ne behind =>
      rw [hnext] at next
      cases next
      exact behind
  | dot next no_word =>
      rw [hnext] at next
      cases next
      exact absurd rfl hs
  | property next name ok behind =>
      rw [hnext] at next
      cases next
      exact absurd rfl hs
  | _ => simp_all

/-- Behind a number or a text. -/
theorem after_number {x : Float} {pos : Position} (h : Orderly V fresh c)
    (hnext : c.next? = some ⟨.number x, pos, rest⟩) : Orderly V false rest := by
  cases h <;> simp_all

theorem after_string {s : String} {pos : Position} (h : Orderly V fresh c)
    (hnext : c.next? = some ⟨.string s, pos, rest⟩) : Orderly V false rest := by
  cases h <;> simp_all

/-- Behind the name of a property. -/
theorem after_property {w : String} {pos wpos : Position} {behind : Cursor}
    (h : Orderly V fresh c) (hnext : c.next? = some ⟨.symbol ".", pos, rest⟩)
    (hword : rest.next? = some ⟨.word w, wpos, behind⟩) :
    Orderly V false behind ∧ V.property w := by
  cases h <;> simp_all

/-- A word names a variable, unless it is a keyword or stands before a colon. -/
theorem after_word {w : String} {pos : Position} (h : Orderly V false c)
    (hnext : c.next? = some ⟨.word w, pos, rest⟩) (hw : w ≠ "break") (hw' : w ≠ "function") :
    Orderly V false rest ∧ ((w ∈ Token.keywords ∨ V.own w) ∨ Stuck rest) := by
  cases h with
  | word next own behind =>
      rw [hnext] at next
      cases next
      exact ⟨behind, .inl own⟩
  | key next colon ok behind =>
      rw [hnext] at next
      cases next
      exact ⟨.symbol colon (by decide) behind, .inr ⟨_, _, colon⟩⟩
  | breakTo next =>
      rw [hnext] at next
      cases next
      exact absurd rfl hw
  | function next =>
      rw [hnext] at next
      cases next
      exact absurd rfl hw'
  | _ => simp_all

theorem after_name {w : String} (h : Orderly V false c) (hname : c.name? = some (w, rest)) :
    Orderly V false rest ∧ rest.size < c.size ∧ (V.own w ∨ Stuck rest) := by
  obtain ⟨hword, pos, hnext⟩ := Cursor.name?_eq_some_iff.mp hname
  obtain ⟨hrest, hown⟩ := h.after_word hnext (fun heq => hword (heq ▸ by decide))
    fun heq => hword (heq ▸ by decide)
  exact ⟨hrest, Cursor.next?_size hnext, hown.imp_left fun h => h.resolve_left hword⟩

/-- Behind the key of an object and its colon. -/
theorem after_key {w : String} {pos cpos : Position} {behind : Cursor} (h : Orderly V fresh c)
    (hnext : c.next? = some ⟨.word w, pos, rest⟩)
    (hcolon : rest.next? = some ⟨.symbol ":", cpos, behind⟩) : Orderly V false behind := by
  cases h with
  | word next own hrest =>
      rw [hnext] at next
      cases next
      exact hrest.after_symbol hcolon (by decide)
  | key next colon ok hbehind =>
      rw [hnext] at next
      cases next
      rw [hcolon] at colon
      cases colon
      exact hbehind
  | breakTo next name | function next name =>
      rw [hnext] at next
      cases next
      simp [hcolon] at name
  | inserted next no_else no_colon =>
      rw [hnext] at next
      cases next
      exact absurd hcolon (no_colon _ _)
  | _ => simp_all

/-- A word before a colon is a label. -/
theorem label_of_colon {w : String} {pos cpos : Position} {behind : Cursor}
    (h : Orderly V false c) (hnext : c.next? = some ⟨.word w, pos, rest⟩)
    (hword : w ∉ Token.keywords) (hcolon : rest.next? = some ⟨.symbol ":", cpos, behind⟩) :
    V.label w := by
  cases h with
  | word next own =>
      rw [hnext] at next
      cases next
      exact V.label_of_own (own.resolve_left hword)
  | key next colon ok =>
      rw [hnext] at next
      cases next
      exact ok
  | breakTo next name | function next name =>
      rw [hnext] at next
      cases next
      simp [hcolon] at name
  | _ => simp_all

/-- The name behind `function`. -/
theorem after_function {w : String} {pos : Position} {behind : Cursor} (h : Orderly V false c)
    (hnext : c.next? = some ⟨.word "function", pos, rest⟩)
    (hname : rest.name? = some (w, behind)) :
    Orderly V false behind ∧ (V.self w ∨ Stuck behind) := by
  cases h with
  | word next own hrest =>
      rw [hnext] at next
      cases next
      obtain ⟨hbehind, -, hw⟩ := hrest.after_name hname
      exact ⟨hbehind, hw.imp_left V.self_of_own⟩
  | key next colon =>
      rw [hnext] at next
      cases next
      simp [Cursor.name?, colon] at hname
  | function next name no_keyword ok hbehind =>
      rw [hnext] at next
      cases next
      obtain ⟨-, _, hword⟩ := Cursor.name?_eq_some_iff.mp hname
      rw [name] at hword
      cases hword
      exact ⟨hbehind, .inl ok⟩
  | _ => simp_all

/-- Behind `function` without a name. -/
theorem after_plain_function {pos : Position} (h : Orderly V false c)
    (hnext : c.next? = some ⟨.word "function", pos, rest⟩) (hname : rest.name? = none) :
    Orderly V false rest := by
  cases h with
  | word next own hrest =>
      rw [hnext] at next
      cases next
      exact hrest
  | key next colon ok hbehind =>
      rw [hnext] at next
      cases next
      exact .symbol colon (by decide) hbehind
  | function next name no_keyword =>
      rw [hnext] at next
      cases next
      simp [Cursor.name?, name, no_keyword] at hname
  | _ => simp_all

/-- The label behind `break`. -/
theorem after_break {w : String} {pos : Position} {behind : Cursor} (h : Orderly V false c)
    (hnext : c.next? = some ⟨.word "break", pos, rest⟩) (hname : rest.name? = some (w, behind)) :
    Orderly V false behind ∧ (V.label w ∨ Stuck behind) := by
  cases h with
  | word next own hrest =>
      rw [hnext] at next
      cases next
      obtain ⟨hbehind, -, hw⟩ := hrest.after_name hname
      exact ⟨hbehind, hw.imp_left V.label_of_own⟩
  | key next colon =>
      rw [hnext] at next
      cases next
      simp [Cursor.name?, colon] at hname
  | breakTo next name no_keyword ok hbehind =>
      rw [hnext] at next
      cases next
      obtain ⟨-, _, hword⟩ := Cursor.name?_eq_some_iff.mp hname
      rw [name] at hword
      cases hword
      exact ⟨hbehind, .inl ok⟩
  | _ => simp_all

/-- Behind `break` without a label. -/
theorem after_plain_break {pos : Position} (h : Orderly V false c)
    (hnext : c.next? = some ⟨.word "break", pos, rest⟩) (hname : rest.name? = none) :
    Orderly V false rest := by
  cases h with
  | word next own hrest =>
      rw [hnext] at next
      cases next
      exact hrest
  | key next colon ok hbehind =>
      rw [hnext] at next
      cases next
      exact .symbol colon (by decide) hbehind
  | breakTo next name no_keyword =>
      rw [hnext] at next
      cases next
      simp [Cursor.name?, name, no_keyword] at hname
  | _ => simp_all

theorem after_else {pos : Position} (h : Orderly V fresh c)
    (hnext : c.next? = some ⟨.word "else", pos, rest⟩) : Orderly V false rest := by
  cases h with
  | word next own hrest =>
      rw [hnext] at next
      cases next
      exact hrest
  | key next colon ok hbehind =>
      rw [hnext] at next
      cases next
      exact .symbol colon (by decide) hbehind
  | inserted next no_else =>
      rw [hnext] at next
      cases next
      exact absurd rfl no_else
  | _ => simp_all

/-- A statement that may start here is read as a whole, or is like any other. -/
theorem inserted_or (h : Orderly V true c) :
    Orderly V false c ∨ ∀ fuel, 16 * c.size + 10 ≤ fuel → ∃ s behind,
      Parser.statement fuel c = some (.ok (some s), behind) ∧ V.inserted s ∧
        behind.size < c.size ∧ Orderly V true behind := by
  cases h with
  | stop next => exact .inl (.stop next)
  | number next behind => exact .inl (.number next behind)
  | string next behind => exact .inl (.string next behind)
  | symbol next ne behind => exact .inl (.symbol next ne behind)
  | word next own behind => exact .inl (.word next own behind)
  | dot next no_word => exact .inl (.dot next no_word)
  | property next name ok behind => exact .inl (.property next name ok behind)
  | key next colon ok behind => exact .inl (.key next colon ok behind)
  | breakTo next name no_keyword ok behind => exact .inl (.breakTo next name no_keyword ok behind)
  | function next name no_keyword ok behind => exact .inl (.function next name no_keyword ok behind)
  | inserted next no_else no_colon read shorter behind =>
      refine .inr fun fuel hfuel => ?_
      obtain ⟨s, bpos, hread, hs⟩ := read fuel hfuel
      exact ⟨s, _, hread, hs, shorter, behind bpos⟩

end Orderly

end

end TraceLoom.Script
