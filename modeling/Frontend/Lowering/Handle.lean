import Frontend.Ir.Module
import Frontend.Scope.Prelude

/-!
What names stand for while a program is lowered, and the lowered types of source types. A struct's
layout is found through the name of the struct; all else needs no names.
-/
namespace Frontend

/-- `owner` is the number of the function whose frame holds a variable or parameter. -/
inductive Handle where
  | marker
  | slot (ptr : Ir.Reg) (ty : Ir.Ty) (owner : Nat)
  | param (reg : Ir.Reg) (ty : Ir.Ty) (owner : Nat)
  | func (name : String) (params : List Ir.Ty) (ret : Ir.Ty) (variadic : Bool)
  | struct (ty : Ir.Ty)
  | member
  deriving Repr

/-- The layout of a struct. -/
def Handle.aggregate? : Handle → Option Ir.Ty
  | .struct ty => some ty
  | _ => none

def Prim.lower? : Prim → Option Ir.Ty
  | .void => some .void
  | .bool => some .bool
  | .i8 => some .i8
  | .i16 => some .i16
  | .i32 => some .i32
  | .i64 => some .i64
  | .f32 => some .f32
  | .f64 => some .f64
  | .string => some (.ptr .i8)
  | .any | .scope => none

/-- The type of a base that needs neither a name nor a return type. -/
def Base.lower? : Base → Option Ir.Ty
  | .prim p => p.lower?
  | _ => none

def ScopeTable.layout? (t : ScopeTable Handle) (struct : String) : Option Ir.Ty :=
  (t.find? struct).bind (·.value.aggregate?)

/-- One pointer a level over the base. A function type forgets its parameters. -/
def Ty.lower (t : ScopeTable Handle) : Ty → Except Breach Ir.Ty
  | .prim p n =>
    match p.lower? with
    | some ty => .ok (ty.ptrs n.toNat)
    | none => .error (.missingLayout (.prim p))
  | .struct s n =>
    match t.layout? s with
    | some ty => .ok (ty.ptrs n.toNat)
    | none => .error (.missingLayout .struct)
  | .inst s n =>
    match t.layout? s with
    | some ty => .ok (ty.ptrs n.toNat)
    | none => .error (.missingLayout .inst)
  | .fn ret n => do
    let r ← ret.lower t
    return (Ir.Ty.fn [] r).ptrs n.toNat

end Frontend
