import Frontend.Text.Extending
import Frontend.Text.Ignorable
import Frontend.Text.Printable

/-!
Quoted text. A text or a character is shown between quotes so that every character can be told
apart: the usual controls, the backslash and the quote itself get a backslash, and whatever cannot
be seen on its own is written as its code point.
-/
namespace Frontend.Text

/-- The code point in lower-case hexadecimal. -/
def codeEscape (c : Char) : String :=
  "\\u\x7b" ++ String.ofList (Nat.toDigits 16 c.toNat) ++ "\x7d"

/-- How `c` is written between two `quote`s. -/
def escapeIn (quote c : Char) : String :=
  if c = '\x00' then "\\0"
  else if c = '\t' then "\\t"
  else if c = '\r' then "\\r"
  else if c = '\n' then "\\n"
  else if c = '\\' then "\\\\"
  else if c = quote then "\\" ++ c.toString
  else if isExtending c || isIgnorable c || !isPrintable c then codeEscape c
  else c.toString

def quotedChar (c : Char) : String := "'" ++ escapeIn '\'' c ++ "'"

def quoted (s : String) : String :=
  "\"" ++ String.join (s.toList.map (escapeIn '"')) ++ "\""

end Frontend.Text
