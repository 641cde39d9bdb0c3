import Frontend.Place

/-!
Lines of a text. A line ends at a line feed, which is not part of it, and neither is one carriage
return just before the line feed. What follows the last line feed is a line only if it is not empty.
-/
namespace Frontend.Text

def splitLines : List Char → List (List Char)
  | [] => []
  | '\n' :: cs => [] :: splitLines cs
  | '\r' :: '\n' :: cs => [] :: splitLines cs
  | c :: cs =>
    match splitLines cs with
    | [] => [[c]]
    | l :: ls => (c :: l) :: ls

theorem length_splitLines_le (cs : List Char) : (splitLines cs).length ≤ cs.length := by
  fun_induction splitLines cs <;> simp_all <;> omega

def lines (src : String) : List (List Char) := splitLines src.toList

/-- One past the last character of the last line, up to the last column that fits in 32 bits; the
start if there are no lines. -/
def endPosition (src : String) : Position :=
  let ls := lines src
  match ls.getLast? with
  | none => .start
  | some l => ⟨ls.length, min (l.length + 1) 0xFFFFFFFF⟩

/-- The empty span past the end of the text. -/
def endSpan (src : String) : Span := ⟨byteLength src.toList, 0, endPosition src⟩

end Frontend.Text
