/-!
Places in a source text. A position is a line and a column, both counted from one, the column in
characters; an offset and a length count bytes. A `Place` carries both while text is read, a `Span`
is a stretch of text that remembers the position of its first character.
-/
namespace Frontend

structure Position where
  line : Nat
  column : Nat
  deriving DecidableEq, Repr

namespace Position

def start : Position := ⟨1, 1⟩

/-- Only a line feed starts a line. -/
def next (p : Position) (c : Char) : Position :=
  if c = '\n' then ⟨p.line + 1, 1⟩ else ⟨p.line, p.column + 1⟩

def after (p : Position) (cs : List Char) : Position := cs.foldl next p

@[simp] theorem after_nil (p : Position) : p.after [] = p := rfl

@[simp] theorem after_cons (p : Position) (c : Char) (cs : List Char) :
    p.after (c :: cs) = (p.next c).after cs := rfl

theorem after_append (p : Position) (cs ds : List Char) :
    p.after (cs ++ ds) = (p.after cs).after ds := by
  simp [after]

/-- Positions are ordered by line, then by column. -/
def order (p q : Position) : Ordering :=
  (compare p.line q.line).then (compare p.column q.column)

def text (p : Position) : String := toString p.line ++ ":" ++ toString p.column

end Position

/-- Length of a text in bytes. -/
def byteLength : List Char → Nat
  | [] => 0
  | c :: cs => c.utf8Size + byteLength cs

@[simp] theorem byteLength_nil : byteLength [] = 0 := rfl

@[simp] theorem byteLength_cons (c : Char) (cs : List Char) :
    byteLength (c :: cs) = c.utf8Size + byteLength cs := rfl

@[simp] theorem byteLength_append (cs ds : List Char) :
    byteLength (cs ++ ds) = byteLength cs + byteLength ds := by
  induction cs with
  | nil => simp
  | cons c cs ih => simp [ih, Nat.add_assoc]

/-- The text of the first `n` bytes and what follows; `none` when the cut falls inside a character
or past the end. -/
def splitBytes? : Nat → List Char → Option (List Char × List Char)
  | 0, cs => some ([], cs)
  | _ + 1, [] => none
  | n + 1, c :: cs =>
    if c.utf8Size ≤ n + 1 then
      (splitBytes? (n + 1 - c.utf8Size) cs).map fun (taken, rest) => (c :: taken, rest)
    else none

structure Span where
  lo : Nat
  len : Nat
  /-- Position of the first character. -/
  pos : Position
  deriving DecidableEq, Repr

namespace Span

def hi (s : Span) : Nat := s.lo + s.len

/-- The stretch from the start of `s` to the end of the later of the two. -/
def through (s t : Span) : Span := ⟨s.lo, max s.hi t.hi - s.lo, s.pos⟩

@[simp] theorem through_lo (s t : Span) : (s.through t).lo = s.lo := rfl

@[simp] theorem through_pos (s t : Span) : (s.through t).pos = s.pos := rfl

@[simp] theorem through_hi (s t : Span) : (s.through t).hi = max s.hi t.hi := by
  simp only [through, hi]
  omega

/-- The stretch of `src` that the span covers, if it lies inside and on character boundaries. -/
def text? (s : Span) (src : String) : Option String := do
  let (_, rest) ← splitBytes? s.lo src.toList
  let (taken, _) ← splitBytes? s.len rest
  return String.ofList taken

/-- First and past-the-end byte. -/
def bounds (s : Span) : String := toString s.lo ++ ".." ++ toString s.hi

def describe (s : Span) : String :=
  "Span(" ++ s.bounds ++ ", len: " ++ toString s.len ++ ", at " ++ s.pos.text ++ ")"

end Span

/-- A reading head: bytes read so far and the position reached. -/
structure Place where
  offset : Nat
  pos : Position
  deriving DecidableEq, Repr

namespace Place

def start : Place := ⟨0, .start⟩

def after (p : Place) (cs : List Char) : Place := ⟨p.offset + byteLength cs, p.pos.after cs⟩

@[simp] theorem after_nil (p : Place) : p.after [] = p := rfl

theorem after_append (p : Place) (cs ds : List Char) :
    p.after (cs ++ ds) = (p.after cs).after ds := by
  simp [after, Position.after_append, Nat.add_assoc]

/-- The span of `cs` read from here. -/
def span (p : Place) (cs : List Char) : Span := ⟨p.offset, byteLength cs, p.pos⟩

end Place

/-- Something found at a span. -/
structure Located (α : Type) where
  span : Span
  value : α
  deriving Repr

namespace Located

def map (f : α → β) (x : Located α) : Located β := ⟨x.span, f x.value⟩

end Located

end Frontend
