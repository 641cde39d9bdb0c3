/-!
Blank characters: the twenty-five characters of the standard's `White_Space` property. Lines are
indented with runs of the plain one.
-/
namespace Frontend.Text

/-- Closed ranges of code points, ascending and apart. -/
def blankRanges : List (Nat × Nat) :=
  [(0x9, 0xD), (0x20, 0x20), (0x85, 0x85), (0xA0, 0xA0), (0x1680, 0x1680), (0x2000, 0x200A),
   (0x2028, 0x2029), (0x202F, 0x202F), (0x205F, 0x205F), (0x3000, 0x3000)]

def isBlank (c : Char) : Bool := blankRanges.any fun (lo, hi) => lo ≤ c.toNat && c.toNat ≤ hi

/-- A width that is asked for has to fit in sixteen bits. -/
def widest : Nat := 65535

/-- As many blanks as are asked for. -/
def blanks? (width : Nat) : Option String :=
  if width ≤ widest then some (String.ofList (List.replicate width ' ')) else none

end Frontend.Text
