import Frontend.Text.Quoted
import Frontend.Token

/-!
How lexemes are written in source text, and the names under which messages and listings speak of
their kinds.
-/
namespace Frontend

namespace Punct

/-- Longer spellings first, so that the first one that fits is the longest. -/
def all : List Punct :=
  [.variadic,
   .range, .quickAssign, .bangEq, .ampAmp, .pipePipe, .arrow, .eqEq, .lessEq, .shl, .greaterEq,
   .shr,
   .lBrace, .rBrace, .lBracket, .rBracket, .lParen, .rParen, .comma, .dot, .semicolon, .colon,
   .question, .star, .bang, .percent, .amp, .pipe, .caret, .tilde, .plus, .minus, .slash, .assign,
   .less, .greater, .at]

def spelling : Punct → List Char
  | .lBrace => ['\x7b']
  | .rBrace => ['\x7d']
  | .lBracket => ['[']
  | .rBracket => [']']
  | .lParen => ['(']
  | .rParen => [')']
  | .comma => [',']
  | .dot => ['.']
  | .range => ['.', '.']
  | .variadic => ['.', '.', '.']
  | .semicolon => [';']
  | .colon => [':']
  | .quickAssign => [':', '=']
  | .question => ['?']
  | .star => ['*']
  | .bang => ['!']
  | .bangEq => ['!', '=']
  | .percent => ['%']
  | .amp => ['&']
  | .ampAmp => ['&', '&']
  | .pipe => ['|']
  | .pipePipe => ['|', '|']
  | .caret => ['^']
  | .tilde => ['~']
  | .plus => ['+']
  | .minus => ['-']
  | .arrow => ['-', '>']
  | .slash => ['/']
  | .assign => ['=']
  | .eqEq => ['=', '=']
  | .less => ['<']
  | .lessEq => ['<', '=']
  | .shl => ['<', '<']
  | .greater => ['>']
  | .greaterEq => ['>', '=']
  | .shr => ['>', '>']
  | .at => ['@']

theorem mem_all (p : Punct) : p ∈ all := by cases p <;> decide

theorem spelling_ne_nil (p : Punct) : p.spelling ≠ [] := by cases p <;> decide

/-- The longest punctuation at the start of a text. -/
def at? (cs : List Char) : Option Punct := all.find? fun p => p.spelling.isPrefixOf cs

def name : Punct → String
  | .lBrace => "LBrace"
  | .rBrace => "RBrace"
  | .lBracket => "LBracket"
  | .rBracket => "RBracket"
  | .lParen => "LParen"
  | .rParen => "RParen"
  | .comma => "Comma"
  | .dot => "Dot"
  | .range => "Range"
  | .variadic => "Variadic"
  | .semicolon => "Semicolon"
  | .colon => "Colon"
  | .quickAssign => "QuickAssign"
  | .question => "Question"
  | .star => "Star"
  | .bang => "Bang"
  | .bangEq => "BangEq"
  | .percent => "Percent"
  | .amp => "Amp"
  | .ampAmp => "AmpAmp"
  | .pipe => "Pipe"
  | .pipePipe => "PipePipe"
  | .caret => "Caret"
  | .tilde => "Tilde"
  | .plus => "Plus"
  | .minus => "Minus"
  | .arrow => "Arrow"
  | .slash => "Slash"
  | .assign => "Assign"
  | .eqEq => "EqEq"
  | .less => "Less"
  | .lessEq => "LessEq"
  | .shl => "Shl"
  | .greater => "Greater"
  | .greaterEq => "GreaterEq"
  | .shr => "Shr"
  | .at => "At"

end Punct

namespace Keyword

def all : List Keyword :=
  [.void, .bool, .i8, .i16, .i32, .i64, .f32, .f64, .str, .struct, .fn, .any, .true_, .false_,
   .if_, .elif, .else_, .for_, .switch, .case_, .break_, .continue_, .return_, .as_]

def spelling : Keyword → String
  | .void => "void"
  | .bool => "bool"
  | .i8 => "i8"
  | .i16 => "i16"
  | .i32 => "i32"
  | .i64 => "i64"
  | .f32 => "f32"
  | .f64 => "f64"
  | .str => "string"
  | .struct => "struct"
  | .fn => "fn"
  | .any => "any"
  | .true_ => "true"
  | .false_ => "false"
  | .if_ => "if"
  | .elif => "elif"
  | .else_ => "else"
  | .for_ => "for"
  | .switch => "switch"
  | .case_ => "case"
  | .break_ => "break"
  | .continue_ => "continue"
  | .return_ => "return"
  | .as_ => "as"

theorem mem_all (k : Keyword) : k ∈ all := by cases k <;> decide

def ofWord? (word : String) : Option Keyword := all.find? fun k => k.spelling = word

def name : Keyword → String
  | .void => "Void"
  | .bool => "Bool"
  | .i8 => "I8"
  | .i16 => "I16"
  | .i32 => "I32"
  | .i64 => "I64"
  | .f32 => "F32"
  | .f64 => "F64"
  | .str => "Str"
  | .struct => "Struct"
  | .fn => "Fn"
  | .any => "Any"
  | .true_ => "True"
  | .false_ => "False"
  | .if_ => "If"
  | .elif => "Elif"
  | .else_ => "Else"
  | .for_ => "For"
  | .switch => "Switch"
  | .case_ => "Case"
  | .break_ => "Break"
  | .continue_ => "Continue"
  | .return_ => "Return"
  | .as_ => "As"

end Keyword

namespace Directive

def all : List Directive :=
  [.define, .run, .ifdef, .endif, .hide, .pack, .expose, .import_, .native]

/-- Written after a `#`. -/
def spelling : Directive → String
  | .define => "def"
  | .run => "run"
  | .ifdef => "ifdef"
  | .endif => "endif"
  | .hide => "hide"
  | .pack => "pack"
  | .expose => "expose"
  | .import_ => "import"
  | .native => "native"

def ofWord? (word : String) : Option Directive := all.find? fun d => d.spelling = word

def name : Directive → String
  | .define => "Def"
  | .run => "Run"
  | .ifdef => "Ifdef"
  | .endif => "Endif"
  | .hide => "Hide"
  | .pack => "Pack"
  | .expose => "Expose"
  | .import_ => "Import"
  | .native => "Native"

end Directive

def Kind.name : Kind → String
  | .punct p => p.name
  | .keyword k => k.name
  | .directive d => d.name
  | .identifier => "Identifier"
  | .number => "Number"
  | .string => "String"
  | .eof => "Eof"

/-- The kind, and the text of a word, number or string in quotes. -/
def Token.describe (t : Token) : String :=
  match t.lexeme.text? with
  | none => t.kind.name
  | some s => t.kind.name ++ "(" ++ Text.quoted s ++ ")"

/-- One line a token, its position first. -/
def Token.listing (ts : List Token) : String :=
  String.join (ts.map fun t => t.span.pos.text ++ " " ++ t.describe ++ "\n")

end Frontend
