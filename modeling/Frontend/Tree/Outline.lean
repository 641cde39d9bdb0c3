import Frontend.Decimal.Numeral
import Frontend.Text.Blank
import Frontend.Text.Quoted
import Frontend.Tree

/-!
Syntax trees as indented outlines, one node a line, each with its span.
-/
namespace Frontend

def Value.className : Value → String
  | .int _ => "int"
  | .float _ => "float"
  | .str _ => "string"
  | .bool _ => "bool"

def Value.text : Value → String
  | .int v => toString v
  | .float v => Decimal.text v
  | .str v => Text.quoted v
  | .bool v => if v then "true" else "false"

def UnaryOp.name : UnaryOp → String
  | .neg => "Neg"
  | .not => "Not"
  | .bitNot => "BitNot"
  | .addressOf => "AddressOf"
  | .deref => "Deref"

def BinaryOp.name : BinaryOp → String
  | .add => "Add"
  | .sub => "Sub"
  | .mul => "Mul"
  | .div => "Div"
  | .rem => "Rem"
  | .shl => "Shl"
  | .shr => "Shr"
  | .bitAnd => "BitAnd"
  | .bitOr => "BitOr"
  | .bitXor => "BitXor"
  | .eq => "Eq"
  | .ne => "Ne"
  | .lt => "Lt"
  | .le => "Le"
  | .gt => "Gt"
  | .ge => "Ge"
  | .and => "And"
  | .or => "Or"

/-- A line of an outline, and how deep it stands. -/
structure OutlineLine where
  depth : Nat
  text : String

/-- Two blanks a level. -/
def OutlineLine.write? (l : OutlineLine) : Option String :=
  (Text.blanks? (2 * l.depth)).map (· ++ l.text ++ "\n")

/-- A node's line: what it is, then its span. -/
def outlineNode (depth : Nat) (what : String) (s : Span) : OutlineLine :=
  ⟨depth, what ++ " (" ++ s.bounds ++ ")"⟩

mutual

def Expr.outline (depth : Nat) : Expr → List OutlineLine
  | .literal v ty s =>
    [⟨depth, v.className ++ " " ++ v.text ++ " (" ++ s.bounds ++ " %: " ++ ty.text ++ ")"⟩]
  | .ident id => [outlineNode depth ("ident " ++ id.name) id.span]
  | .paren inner s => outlineNode depth "paren" s :: inner.outline (depth + 1)
  | .unary op operand s =>
    outlineNode depth ("unary " ++ op.name) s :: operand.outline (depth + 1)
  | .binary op lhs rhs s =>
    outlineNode depth ("binary " ++ op.name) s ::
      (lhs.outline (depth + 1) ++ rhs.outline (depth + 1))
  | .cast operand ty s =>
    outlineNode depth ("cast " ++ ty.text) s :: operand.outline (depth + 1)
  | .call callee args s =>
    outlineNode depth "call" s :: (callee.outline (depth + 1) ++
      if args.isEmpty then [] else ⟨depth + 1, "arguments"⟩ :: outlineArgs (depth + 2) args)
  | .member object field arrow s =>
    outlineNode depth ("member " ++ (if arrow then "->" else "") ++ field.name) s ::
      object.outline (depth + 1)

def outlineArgs (depth : Nat) : List Expr → List OutlineLine
  | [] => []
  | e :: es => e.outline depth ++ outlineArgs depth es

end

def outlineParams (depth : Nat) (label : String) (ps : List Param) : List OutlineLine :=
  ps.map fun p => ⟨depth, label ++ " " ++ p.name.name ++ ": " ++ p.ty.text⟩

def Signature.outline (depth : Nat) (sig : Signature) (mark : String) (s : Span) :
    List OutlineLine :=
  outlineNode depth
    ("fn " ++ sig.name.name ++ ": " ++ sig.ret.text ++ (if sig.variadic then " variadic" else "") ++
      mark) s ::
    outlineParams (depth + 1) "param" sig.params

def outlineOption (depth : Nat) : Option Expr → List OutlineLine
  | none => []
  | some e => e.outline depth

mutual

def Stmt.outline (depth : Nat) : Stmt → List OutlineLine
  | .varDef name ty init s =>
    outlineNode depth ("var " ++ name.name ++ ": " ++ ty.text) s :: outlineOption (depth + 1) init
  | .structDef name members s =>
    outlineNode depth ("struct " ++ name.name) s :: outlineParams (depth + 1) "member" members
  | .fnDef sig body s => sig.outline depth "" s ++ outlineStmts (depth + 1) body
  | .fnDecl sig s => sig.outline depth " extern" s
  | .varSet target value s =>
    outlineNode depth ("set " ++ target.name) s :: value.outline (depth + 1)
  | .memberSet target value s =>
    outlineNode depth "set member" s :: (target.outline (depth + 1) ++ value.outline (depth + 1))
  | .expr e _ => e.outline depth
  | .return_ value s => outlineNode depth "return" s :: outlineOption (depth + 1) value
  | .break_ s => [outlineNode depth "break" s]
  | .for_ cond body s =>
    outlineNode depth "for" s :: ⟨depth + 1, "cond"⟩ :: (cond.outline (depth + 2) ++
      ⟨depth + 1, "body"⟩ :: outlineStmts (depth + 2) body)
  | .if_ cond body otherwise s =>
    outlineNode depth "if" s :: ⟨depth + 1, "cond"⟩ :: (cond.outline (depth + 2) ++
      ⟨depth + 1, "body"⟩ :: (outlineStmts (depth + 2) body ++ otherwise.outline (depth + 1)))
  | .block body s => outlineNode depth "block" s :: outlineStmts (depth + 1) body

def Alternative.outline (depth : Nat) : Alternative → List OutlineLine
  | .none => []
  | .else_ body => ⟨depth, "else"⟩ :: outlineStmts (depth + 1) body
  | .elif cond body otherwise =>
    ⟨depth, "elif"⟩ :: ⟨depth + 1, "cond"⟩ :: (cond.outline (depth + 2) ++
      ⟨depth + 1, "body"⟩ :: (outlineStmts (depth + 2) body ++ otherwise.outline depth))

def outlineStmts (depth : Nat) : List Stmt → List OutlineLine
  | [] => []
  | s :: ss => s.outline depth ++ outlineStmts depth ss

end

/-- The lines one after the other, if there is none that stands too deep. -/
def writeOutline (ls : List OutlineLine) : Option String :=
  (ls.mapM OutlineLine.write?).map String.join

def Program.outline (p : Program) : Option String := writeOutline (outlineStmts 0 p)

end Frontend
