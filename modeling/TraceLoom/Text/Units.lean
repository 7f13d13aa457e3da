/-!
Texts as sequences of 16-bit units.  A character beyond the first 65536 code points takes two
units, and neither of them is a character by itself.
-/

namespace TraceLoom.Text

/-- The units of a text, each as a character; half of a pair is shown as the replacement
character. -/
def units (text : List Char) : List Char :=
  text.flatMap fun c => if c.toNat < 0x10000 then [c] else ['\uFFFD', '\uFFFD']

theorem length_le_length_units (text : List Char) : text.length ≤ (units text).length := by
  induction text with
  | nil => simp [units]
  | cons c rest ih =>
    simp only [units, List.flatMap_cons, List.length_append, List.length_cons] at *
    split <;> simp only [List.length_cons, List.length_nil] <;> omega

def occursIn (part : List Char) : List Char → Bool
  | [] => part.isEmpty
  | c :: rest => part.isPrefixOf (c :: rest) || occursIn part rest

end TraceLoom.Text
