import Frontend.Scope
import Frontend.Tree

/-!
Types of expressions, from the types of the names in scope.
-/
namespace Frontend

/-- Why an expression has no type. -/
inductive InferError where
  | unknownIdentifier (id : Ident)
  | unknownMember (id : Ident)
  | notCallable (ty : Ty)
  | notAStruct (ty : Ty)
  | breach (b : Breach)
  deriving DecidableEq, Repr

/-- The scope of the members of a struct value, or of one behind a single pointer if `arrow`. -/
def ScopeTable.membersOf? (t : ScopeTable V) (ty : Ty) (arrow : Bool) : Option Nat :=
  match ty with
  | .inst name levels =>
    if levels = (if arrow then 1 else 0) then
      match t.find? name with
      | some b => if b.ty.base = .struct then b.scope else none
      | none => none
    else none
  | _ => none

def UnaryOp.infer (ty : Ty) : UnaryOp → Except InferError Ty
  | .not => .ok .bool
  | .neg | .bitNot => .ok ty
  | .addressOf => .ok (ty.addLevels 1)
  | .deref =>
    let ty := ty.addLevels (-1)
    if ty.levels < 0 then .error (.breach .negativeLevels) else .ok ty

def BinaryOp.infer (lhs rhs : Ty) (op : BinaryOp) : Except InferError Ty :=
  if op.yieldsBool then .ok .bool else (lhs.join rhs).mapError .breach

namespace Expr

/-- A cast has the type it names, whatever it is applied to; a call has the return type of what it
calls, whatever the arguments. -/
def infer (t : ScopeTable V) : Expr → Except InferError Ty
  | .literal _ ty _ => .ok ty
  | .ident id =>
    match t.find? id.name with
    | some b => .ok b.ty
    | none => .error (.unknownIdentifier id)
  | .paren inner _ => inner.infer t
  | .unary op operand _ => do op.infer (← operand.infer t)
  | .binary op lhs rhs _ => do
    let l ← lhs.infer t
    let r ← rhs.infer t
    op.infer l r
  | .cast _ ty _ => .ok ty
  | .call callee _ _ => do
    let ty ← callee.infer t
    match ty.return? with
    | some ret => .ok ret
    | none => .error (.notCallable ty)
  | .member object field arrow _ => do
    let ty ← object.infer t
    match t.membersOf? ty arrow with
    | none => .error (.notAStruct ty)
    | some members =>
      match t.findIn? members field.name with
      | some b => .ok b.ty
      | none => .error (.unknownMember field)

end Expr

end Frontend
