import Frontend.Decimal.Double
import Frontend.Tree

/-!
Retyping literals. A number literal, bare or under parentheses and negations, can be given another
number type; its value is converted if it moves between integers and floats.
-/
namespace Frontend

/-- An integer becomes a float only for a float type, a float is cut to an integer for any other. -/
def Value.convert (toFloat : Bool) : Value → Value
  | .int v => if toFloat then .float (Decimal.ofInteger v) else .int v
  | .float v => if toFloat then .float v else .int (Decimal.Double.ofFloat v).toInteger
  | v => v

/-- The expression as a `target`, if it is a literal that can be one. -/
def Expr.coerce? (target : Ty) : Expr → Option Expr
  | e@(.literal v ty s) =>
    if ty = target then some e
    else if target.compatible ty then some (.literal (v.convert target.isFloat) target s)
    else none
  | .paren inner s => (inner.coerce? target).map (.paren · s)
  | .unary .neg inner s => (inner.coerce? target).map (.unary .neg · s)
  | _ => none

end Frontend
