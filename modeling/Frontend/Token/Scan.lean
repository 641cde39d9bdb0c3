import Frontend.Text.Blank
import Frontend.Token.Spelling

/-!
Cutting a source text into tokens. `cut` takes one piece off the front of a text: a lexeme, a
stretch of blanks or a comment, or something that is no lexeme. `scanFrom` cuts until the text or
its luck runs out; the tokens before a fault are kept.
-/
namespace Frontend

/-- Why a text cannot be cut any further. -/
inductive Fault where
  | unexpectedChar (c : Char)
  | unterminatedString
  | malformedNumber
  | unknownDirective (name : String)
  deriving DecidableEq, Repr

namespace Fault

def code : Fault → String
  | unexpectedChar _ => "ERR_UNEXPECTED_CHAR"
  | unterminatedString => "ERR_UNTERMINATED_STRING"
  | malformedNumber => "ERR_MALFORMED_NUMBER"
  | unknownDirective _ => "ERR_UNKNOWN_DIRECTIVE"

def message : Fault → String
  | unexpectedChar c => "unexpected character " ++ Text.quotedChar c
  | unterminatedString => "unterminated string literal"
  | malformedNumber => "malformed number literal"
  | unknownDirective name => "unknown directive #" ++ name

end Fault

inductive Piece where
  | blank
  | lexeme (l : Lexeme)
  | fault (f : Fault)
  deriving DecidableEq, Repr

/-- A text cut in two, and what the front part is. -/
structure Cut where
  front : List Char
  rest : List Char
  piece : Piece
  deriving DecidableEq, Repr

def isWordStart (c : Char) : Bool := c.isAlpha || c = '_'

def isWordPart (c : Char) : Bool := c.isAlphanum || c = '_'

theorem isWordPart_of_isWordStart {c : Char} (h : isWordStart c) : isWordPart c := by
  simp only [isWordStart, isWordPart, Char.isAlphanum, Bool.or_eq_true] at h ⊢
  rcases h with h | h
  · exact .inl (.inl h)
  · exact .inr h

/-- Splits the text after an opening `/*` where the comment closes, with `depth` more comments open
around it. Comments nest; one that never closes takes the whole text. -/
def blockComment : Nat → List Char → List Char × List Char
  | _, [] => ([], [])
  | depth, '/' :: '*' :: cs =>
    let (inside, rest) := blockComment (depth + 1) cs
    ('/' :: '*' :: inside, rest)
  | 0, '*' :: '/' :: cs => (['*', '/'], cs)
  | depth + 1, '*' :: '/' :: cs =>
    let (inside, rest) := blockComment depth cs
    ('*' :: '/' :: inside, rest)
  | depth, c :: cs =>
    let (inside, rest) := blockComment depth cs
    (c :: inside, rest)

/-- Splits the text after an opening quote at the closing one, which is dropped. A backslash and the
character after it stay together. -/
def stringBody (quote : Char) : List Char → Option (List Char × List Char)
  | [] => none
  | ['\\'] => none
  | '\\' :: c :: cs => (stringBody quote cs).map fun (body, rest) => ('\\' :: c :: body, rest)
  | c :: cs =>
    if c = quote then some ([], cs)
    else (stringBody quote cs).map fun (body, rest) => (c :: body, rest)

def cutBlank (front rest : List Char) : Cut := ⟨front, rest, .blank⟩

def cutString (quote : Char) (cs : List Char) : Cut :=
  match stringBody quote cs with
  | none => ⟨quote :: cs, [], .fault .unterminatedString⟩
  | some (body, rest) => ⟨quote :: (body ++ [quote]), rest, .lexeme (.string (String.ofList body))⟩

def cutDirective (cs : List Char) : Cut :=
  let word := cs.takeWhile Char.isAlpha
  let name := String.ofList word
  ⟨'#' :: word, cs.dropWhile Char.isAlpha,
    match Directive.ofWord? name with
    | some d => .lexeme (.directive d)
    | none => .fault (.unknownDirective name)⟩

/-- Digits with at most one point among or after them. -/
def cutNumber (cs : List Char) : Cut :=
  let whole := cs.takeWhile Char.isDigit
  match cs.dropWhile Char.isDigit with
  | '.' :: r =>
    let front := whole ++ '.' :: r.takeWhile Char.isDigit
    match r.dropWhile Char.isDigit with
    | '.' :: rest => ⟨front ++ ['.'], rest, .fault .malformedNumber⟩
    | rest => ⟨front, rest, .lexeme (.number (String.ofList front))⟩
  | rest => ⟨whole, rest, .lexeme (.number (String.ofList whole))⟩

def cutWord (cs : List Char) : Cut :=
  let word := cs.takeWhile isWordPart
  let text := String.ofList word
  ⟨word, cs.dropWhile isWordPart,
    match Keyword.ofWord? text with
    | some k => .lexeme (.keyword k)
    | none => .lexeme (.identifier text)⟩

/-- One piece off the front of `c :: cs`. -/
def cut (c : Char) (cs : List Char) : Cut :=
  match c, cs with
  | '/', '/' :: r => cutBlank ('/' :: '/' :: r.takeWhile (· ≠ '\n')) (r.dropWhile (· ≠ '\n'))
  | '/', '*' :: r =>
    let (inside, rest) := blockComment 0 r
    cutBlank ('/' :: '*' :: inside) rest
  | c, cs =>
    match Punct.at? (c :: cs) with
    | some p => ⟨p.spelling, (c :: cs).drop p.spelling.length, .lexeme (.punct p)⟩
    | none =>
      if c = '"' ∨ c = '\'' then cutString c cs
      else if c = '#' then cutDirective cs
      else if c.isDigit then cutNumber (c :: cs)
      else if isWordStart c then cutWord (c :: cs)
      else if Text.isBlank c then
        cutBlank (c :: cs.takeWhile Text.isBlank) (cs.dropWhile Text.isBlank)
      else ⟨[c], cs, .fault (.unexpectedChar c)⟩

theorem blockComment_append (depth : Nat) (cs : List Char) :
    (blockComment depth cs).1 ++ (blockComment depth cs).2 = cs := by
  fun_induction blockComment depth cs <;> simp_all

theorem stringBody_append {quote : Char} {cs body rest : List Char}
    (h : stringBody quote cs = some (body, rest)) : body ++ quote :: rest = cs := by
  fun_induction stringBody quote cs generalizing body rest with
  | case1 => simp at h
  | case2 => simp at h
  | case3 c cs ih =>
    obtain ⟨⟨b, r⟩, hb, heq⟩ := Option.map_eq_some_iff.1 h
    simp only [Prod.mk.injEq] at heq
    obtain ⟨rfl, rfl⟩ := heq
    simp [ih hb]
  | case4 => simp_all
  | case5 c cs _ _ hc ih =>
    obtain ⟨⟨b, r⟩, hb, heq⟩ := Option.map_eq_some_iff.1 h
    simp only [Prod.mk.injEq] at heq
    obtain ⟨rfl, rfl⟩ := heq
    simp [ih hb]

theorem cutNumber_append (cs : List Char) : (cutNumber cs).front ++ (cutNumber cs).rest = cs := by
  have whole := List.takeWhile_append_dropWhile (p := Char.isDigit) (l := cs)
  simp only [cutNumber]
  split
  next r hr =>
    have fraction := List.takeWhile_append_dropWhile (p := Char.isDigit) (l := r)
    split
    next rest hrest =>
      rw [hrest] at fraction
      rw [hr, ← fraction] at whole
      simpa using whole
    next rest hrest =>
      rw [hr, ← fraction] at whole
      simpa using whole
  next hr => exact whole

theorem isPrefixOf_at? {cs : List Char} {p : Punct} (h : Punct.at? cs = some p) :
    p.spelling <+: cs :=
  List.isPrefixOf_iff_prefix.1 (by simpa using List.find?_some h)

/-- A cut loses nothing. -/
theorem cut_append (c : Char) (cs : List Char) : (cut c cs).front ++ (cut c cs).rest = c :: cs := by
  unfold cut
  split
  next => simp [cutBlank]
  next r => simp [cutBlank, blockComment_append]
  next c cs _ _ =>
    split
    next p hp =>
      obtain ⟨rest, hrest⟩ := isPrefixOf_at? hp
      rw [← hrest]
      simp
    next =>
      repeat' split
      · simp only [cutString]
        split
        next => simp
        next body rest h => simp [stringBody_append h]
      · simp_all [cutDirective]
      · exact cutNumber_append _
      · simp [cutWord]
      · simp [cutBlank]
      · rfl

theorem cutNumber_front_ne_nil {c : Char} {cs : List Char} (h : c.isDigit) :
    (cutNumber (c :: cs)).front ≠ [] := by
  simp only [cutNumber]
  repeat' split
  all_goals simp [h]

/-- A cut takes at least one character. -/
theorem cut_front_ne_nil (c : Char) (cs : List Char) : (cut c cs).front ≠ [] := by
  unfold cut
  split
  next => simp [cutBlank]
  next => simp [cutBlank]
  next c cs _ _ =>
    split
    next p _ => exact p.spelling_ne_nil
    next =>
      repeat' split
      · simp only [cutString]
        split <;> simp
      · simp [cutDirective]
      next h => exact cutNumber_front_ne_nil h
      next h => simp [cutWord, isWordPart_of_isWordStart h]
      · simp [cutBlank]
      · simp

theorem cut_rest_length (c : Char) (cs : List Char) : (cut c cs).rest.length ≤ cs.length := by
  have h := congrArg List.length (cut_append c cs)
  have hne := List.length_pos_iff.2 (cut_front_ne_nil c cs)
  simp only [List.length_append, List.length_cons] at h
  omega

/-- Tokens of the text read from `here`, up to its end or the first fault. -/
def scanFrom (here : Place) (cs : List Char) : List Token × Option (Located Fault) :=
  match cs with
  | [] => ([], none)
  | c :: cs =>
    let k := cut c cs
    let span := here.span k.front
    match k.piece with
    | .fault f => ([], some ⟨span, f⟩)
    | .blank => scanFrom (here.after k.front) k.rest
    | .lexeme l =>
      let (ts, fault) := scanFrom (here.after k.front) k.rest
      (⟨l, span⟩ :: ts, fault)
termination_by cs.length
decreasing_by all_goals exact Nat.lt_succ_of_le (cut_rest_length c cs)

def scan (src : String) : List Token × Option (Located Fault) := scanFrom .start src.toList

/-- All tokens of a text, or the first fault. -/
def tokenize (src : String) : Except (Located Fault) (List Token) :=
  match scan src with
  | (ts, none) => .ok ts
  | (_, some fault) => .error fault

end Frontend
