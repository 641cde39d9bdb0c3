import Frontend.Place
import Frontend.Ty

/-!
Syntax trees. Every node knows the span it was read from; a literal also carries its type, which an
implicit conversion may change.
-/
namespace Frontend

structure Ident where
  name : String
  span : Span
  deriving DecidableEq, Repr

inductive Value where
  | int (v : Int)
  | float (v : Float)
  | str (v : String)
  | bool (v : Bool)
  deriving Repr

inductive UnaryOp where
  | neg | not | bitNot | addressOf | deref
  deriving DecidableEq, Repr

inductive BinaryOp where
  | add | sub | mul | div | rem | shl | shr | bitAnd | bitOr | bitXor
  | eq | ne | lt | le | gt | ge
  | and | or
  deriving DecidableEq, Repr

namespace BinaryOp

def isComparison : BinaryOp → Bool
  | eq | ne | lt | le | gt | ge => true
  | _ => false

def isLogical : BinaryOp → Bool
  | and | or => true
  | _ => false

def yieldsBool (op : BinaryOp) : Bool := op.isComparison || op.isLogical

end BinaryOp

inductive Expr where
  | literal (value : Value) (ty : Ty) (span : Span)
  | ident (id : Ident)
  | paren (inner : Expr) (span : Span)
  | unary (op : UnaryOp) (operand : Expr) (span : Span)
  | binary (op : BinaryOp) (lhs rhs : Expr) (span : Span)
  | cast (operand : Expr) (ty : Ty) (span : Span)
  | call (callee : Expr) (args : List Expr) (span : Span)
  /-- Through a pointer if `arrow`. -/
  | member (object : Expr) (field : Ident) (arrow : Bool) (span : Span)
  deriving Repr

def Expr.span : Expr → Span
  | literal _ _ s | paren _ s | unary _ _ s | binary _ _ _ s | cast _ _ s | call _ _ s
  | member _ _ _ s => s
  | ident id => id.span

/-- A name with its declared type: a parameter, or a member of a struct. -/
structure Param where
  name : Ident
  ty : Ty
  deriving DecidableEq, Repr

/-- All of a function but its body. -/
structure Signature where
  name : Ident
  ret : Ty
  params : List Param
  variadic : Bool
  deriving DecidableEq, Repr

/-- The name under which the scope of a struct's members is entered. -/
def membersMarker (struct : String) : String := struct ++ "_members"

def Signature.ty (s : Signature) : Ty := .fn s.ret 0

mutual

inductive Stmt where
  | varDef (name : Ident) (ty : Ty) (init : Option Expr) (span : Span)
  | structDef (name : Ident) (members : List Param) (span : Span)
  | fnDef (sig : Signature) (body : List Stmt) (span : Span)
  /-- A function without a body. -/
  | fnDecl (sig : Signature) (span : Span)
  | varSet (target : Ident) (value : Expr) (span : Span)
  | memberSet (target value : Expr) (span : Span)
  | expr (e : Expr) (span : Span)
  | return_ (value : Option Expr) (span : Span)
  | break_ (span : Span)
  | for_ (cond : Expr) (body : List Stmt) (span : Span)
  | if_ (cond : Expr) (body : List Stmt) (otherwise : Alternative) (span : Span)
  | block (body : List Stmt) (span : Span)

/-- What follows the body of an `if`. -/
inductive Alternative where
  | none
  | else_ (body : List Stmt)
  | elif (cond : Expr) (body : List Stmt) (otherwise : Alternative)

end

def Stmt.span : Stmt → Span
  | varDef _ _ _ s | structDef _ _ s | fnDef _ _ s | fnDecl _ s | varSet _ _ s | memberSet _ _ s
  | expr _ s | return_ _ s | break_ s | for_ _ _ s | if_ _ _ _ s | block _ s => s

/-- Top-level statements in order. -/
abbrev Program := List Stmt

end Frontend
