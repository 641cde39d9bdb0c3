/-!
Types of the lowered form: single bits, integers and floats of fixed width, pointers, structs by the
types of their fields, and functions.
-/
namespace Frontend.Ir

inductive Ty where
  | void
  | bool
  | i8
  | i16
  | i32
  | i64
  | f32
  | f64
  | ptr (pointee : Ty)
  /-- Fields in the order of declaration. -/
  | struct (fields : List Ty)
  | fn (params : List Ty) (ret : Ty)
  deriving Repr, Inhabited

namespace Ty

mutual

def same : Ty → Ty → Bool
  | .void, .void => true
  | .bool, .bool => true
  | .i8, .i8 => true
  | .i16, .i16 => true
  | .i32, .i32 => true
  | .i64, .i64 => true
  | .f32, .f32 => true
  | .f64, .f64 => true
  | .ptr s, .ptr t => same s t
  | .struct ss, .struct ts => sameAll ss ts
  | .fn ss s, .fn ts t => sameAll ss ts && same s t
  | _, _ => false

def sameAll : List Ty → List Ty → Bool
  | [], [] => true
  | s :: ss, t :: ts => same s t && sameAll ss ts
  | _, _ => false

end

mutual

theorem same_iff (s t : Ty) : same s t = true ↔ s = t := by
  cases s <;> cases t <;> simp [same, same_iff, sameAll_iff]

theorem sameAll_iff (ss ts : List Ty) : sameAll ss ts = true ↔ ss = ts := by
  cases ss <;> cases ts <;> simp [sameAll, same_iff, sameAll_iff]

end

instance : DecidableEq Ty := fun s t => decidable_of_iff _ (same_iff s t)

def isPtr : Ty → Bool
  | .ptr _ => true
  | _ => false

def isInt : Ty → Bool
  | .i8 | .i16 | .i32 | .i64 => true
  | _ => false

def isFloat : Ty → Bool
  | .f32 | .f64 => true
  | _ => false

def isAggregate : Ty → Bool
  | .struct _ => true
  | _ => false

/-- Width of a bit, an integer or a float. -/
def bits? : Ty → Option Nat
  | .bool => some 1
  | .i8 => some 8
  | .i16 => some 16
  | .i32 | .f32 => some 32
  | .i64 | .f64 => some 64
  | _ => none

def pointee? : Ty → Option Ty
  | .ptr t => some t
  | _ => none

/-- The type under `n` pointers. -/
def ptrs (t : Ty) : Nat → Ty
  | 0 => t
  | n + 1 => .ptr (t.ptrs n)

mutual

def text : Ty → String
  | .void => "void"
  | .bool => "i1"
  | .i8 => "i8"
  | .i16 => "i16"
  | .i32 => "i32"
  | .i64 => "i64"
  | .f32 => "f32"
  | .f64 => "f64"
  | .ptr t => "*" ++ t.text
  | .struct fields => "\x7b" ++ listText fields ++ "\x7d"
  | .fn params ret => "fn(" ++ listText params ++ ") " ++ ret.text

/-- Types separated by a comma and a space. -/
def listText : List Ty → String
  | [] => ""
  | [t] => t.text
  | t :: ts => t.text ++ ", " ++ listText ts

end

end Ty

end Frontend.Ir
