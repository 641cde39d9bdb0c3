import Frontend.Place

/-!
Tokens. A lexeme is a piece of punctuation, a keyword, a directive, or a word, number or string with
its text; a token is a lexeme at a span. A kind is a lexeme without its text, or the end of input.
-/
namespace Frontend

inductive Punct where
  | lBrace | rBrace | lBracket | rBracket | lParen | rParen
  | comma | dot | range | variadic | semicolon | colon | quickAssign | question
  | star | bang | bangEq | percent | amp | ampAmp | pipe | pipePipe | caret | tilde
  | plus | minus | arrow | slash | assign | eqEq
  | less | lessEq | shl | greater | greaterEq | shr | at
  deriving DecidableEq, Repr

inductive Keyword where
  | void | bool | i8 | i16 | i32 | i64 | f32 | f64 | str | struct | fn | any
  | true_ | false_
  | if_ | elif | else_ | for_ | switch | case_ | break_ | continue_ | return_ | as_
  deriving DecidableEq, Repr

inductive Directive where
  | define | run | ifdef | endif | hide | pack | expose | import_ | native
  deriving DecidableEq, Repr

inductive Kind where
  | punct (p : Punct)
  | keyword (k : Keyword)
  | directive (d : Directive)
  | identifier
  | number
  | string
  | eof
  deriving DecidableEq, Repr

inductive Lexeme where
  | punct (p : Punct)
  | keyword (k : Keyword)
  | directive (d : Directive)
  | identifier (name : String)
  | number (text : String)
  /-- The text between the quotes, escapes as written. -/
  | string (raw : String)
  deriving DecidableEq, Repr

namespace Lexeme

def kind : Lexeme → Kind
  | punct p => .punct p
  | keyword k => .keyword k
  | directive d => .directive d
  | identifier _ => .identifier
  | number _ => .number
  | string _ => .string

def text? : Lexeme → Option String
  | identifier s | number s | string s => some s
  | _ => none

end Lexeme

structure Token where
  lexeme : Lexeme
  span : Span
  deriving DecidableEq, Repr

namespace Token

def kind (t : Token) : Kind := t.lexeme.kind

end Token

/-- Keywords that name a type. `struct` only starts a definition. -/
def Keyword.namesType : Keyword → Bool
  | .void | .bool | .i8 | .i16 | .i32 | .i64 | .f32 | .f64 | .str | .fn | .any => true
  | _ => false

namespace Kind

def namesType : Kind → Bool
  | .keyword k => k.namesType
  | _ => false

end Kind

end Frontend
