/-!
Escapes in string literals. A backslash gives the next character another meaning, or takes away the
one it has.
-/
namespace Frontend

/-- What a backslash and `c` stand for. -/
def unescapeChar (c : Char) : Char :=
  if c = 'n' then '\n'
  else if c = 't' then '\t'
  else if c = 'r' then '\r'
  else if c = '0' then '\x00'
  else c

/-- A backslash with nothing after it stands for nothing. -/
def unescape : List Char → List Char
  | [] => []
  | ['\\'] => []
  | '\\' :: c :: cs => unescapeChar c :: unescape cs
  | c :: cs => c :: unescape cs

def unescaped (raw : String) : String := String.ofList (unescape raw.toList)

end Frontend
