/-!
Types of the source language. A type is a base (a primitive, a named struct, a value of one, or a
function with a return type) under a number of pointer levels. Levels stay within a signed byte:
counting past either end stays at that end.
-/
namespace Frontend

inductive Prim where
  | void | bool | i8 | i16 | i32 | i64 | f32 | f64 | string | any
  /-- The type of a name that stands for a scope. -/
  | scope
  deriving DecidableEq, Repr

/-- A type without its names, return type and levels. -/
inductive Base where
  | prim (p : Prim)
  | struct
  | fn
  | inst
  deriving DecidableEq, Repr

inductive Ty where
  | prim (p : Prim) (levels : Int)
  | struct (name : String) (levels : Int)
  /-- A value of the struct `name`. -/
  | inst (name : String) (levels : Int)
  | fn (ret : Ty) (levels : Int)
  deriving DecidableEq, Repr

def Prim.name : Prim → String
  | .void => "void"
  | .bool => "bool"
  | .i8 => "i8"
  | .i16 => "i16"
  | .i32 => "i32"
  | .i64 => "i64"
  | .f32 => "f32"
  | .f64 => "f64"
  | .string => "string"
  | .any => "any"
  | .scope => "scope"

namespace Base

def name : Base → String
  | prim p => p.name
  | struct => "struct"
  | fn => "fn"
  | inst => "instance"

def isInteger : Base → Bool
  | prim .i8 | prim .i16 | prim .i32 | prim .i64 => true
  | _ => false

def isFloat : Base → Bool
  | prim .f32 | prim .f64 => true
  | _ => false

end Base

/-- A promise of the compiler to itself that did not hold. These are no fault of the source. -/
inductive Breach where
  | incompatibleJoin (lhs rhs : Base)
  | negativeLevels
  | missingLayout (base : Base)
  | rootScopeClosed
  | noFunction
  | notPrimitive (base : Base)
  | noOperand
  | notInfix
  | tooWide
  deriving DecidableEq, Repr

def Breach.message : Breach → String
  | .incompatibleJoin lhs rhs => "cannot join types " ++ lhs.name ++ " and " ++ rhs.name
  | .negativeLevels => "dereference below indirection level zero"
  | .missingLayout base => "no backend layout for type " ++ base.name
  | .rootScopeClosed => "the root scope cannot be closed"
  | .noFunction => "no function is left under construction"
  | .notPrimitive base => base.name ++ " is not a primitive"
  | .noOperand => "nothing stands before a suffix"
  | .notInfix => "not an infix operator"
  | .tooWide => "a run of blanks is too wide"

def clampLevels (n : Int) : Int := max (-128) (min 127 n)

namespace Ty

def void : Ty := .prim .void 0

def bool : Ty := .prim .bool 0

def i32 : Ty := .prim .i32 0

def f32 : Ty := .prim .f32 0

def string : Ty := .prim .string 0

/-- The type of a base that needs neither a name nor a return type. -/
def primitive? : Base → Option Ty
  | .prim p => some (.prim p 0)
  | .struct | .inst | .fn => none

def base : Ty → Base
  | .prim p _ => .prim p
  | .struct _ _ => .struct
  | .inst _ _ => .inst
  | .fn _ _ => .fn

def levels : Ty → Int
  | .prim _ n | .struct _ n | .inst _ n | .fn _ n => n

def withLevels (n : Int) : Ty → Ty
  | .prim p _ => .prim p n
  | .struct s _ => .struct s n
  | .inst s _ => .inst s n
  | .fn r _ => .fn r n

/-- `d` more pointer levels, or fewer. -/
def addLevels (t : Ty) (d : Int) : Ty := t.withLevels (clampLevels (t.levels + d))

@[simp] theorem levels_withLevels (n : Int) (t : Ty) : (t.withLevels n).levels = n := by
  cases t <;> rfl

@[simp] theorem base_withLevels (n : Int) (t : Ty) : (t.withLevels n).base = t.base := by
  cases t <;> rfl

@[simp] theorem withLevels_levels (t : Ty) : t.withLevels t.levels = t := by cases t <;> rfl

/-- The struct that a type names. -/
def name? : Ty → Option String
  | .struct s _ | .inst s _ => some s
  | _ => none

def return? : Ty → Option Ty
  | .fn r _ => some r
  | _ => none

def isPointer (t : Ty) : Bool := 0 < t.levels

/-- A function, and no pointer to one. -/
def isFunction (t : Ty) : Bool := t.base = .fn && !t.isPointer

theorem isFunction_fn {ret : Ty} {n : Int} : (fn ret n).isFunction ↔ n ≤ 0 := by
  show (!decide (0 < n)) = true ↔ n ≤ 0
  simp

def isVoid (t : Ty) : Bool := t.base = .prim .void && t.levels = 0

def isInteger (t : Ty) : Bool := t.levels = 0 && t.base.isInteger

def isFloat (t : Ty) : Bool := t.levels = 0 && t.base.isFloat

def isNumeric (t : Ty) : Bool := t.isInteger || t.isFloat

/-- Whether an implicit conversion between the two may be tried. -/
def compatible (s t : Ty) : Bool := s.isNumeric && t.isNumeric

/-- One type for the two operands of an operator. Equal bases keep the left operand, whatever their
levels, and so do two integers or two floats; of an integer and a float the float wins. -/
def join (s t : Ty) : Except Breach Ty :=
  if s.base = t.base then .ok s
  else if s.isInteger && t.isInteger then .ok s
  else if s.isFloat && t.isFloat then .ok s
  else if s.isFloat && t.isInteger then .ok s
  else if s.isInteger && t.isFloat then .ok t
  else .error (.incompatibleJoin s.base t.base)

/-- Operands meet in the type of one of them. -/
theorem join_eq {s t ty : Ty} (h : s.join t = .ok ty) : ty = s ∨ ty = t := by
  unfold join at h
  repeat' split at h
  all_goals simp_all

/-- One `*` a level, then the base. -/
def text : Ty → String
  | .prim p n => stars n ++ p.name
  | .struct s n => stars n ++ "struct " ++ s
  | .inst s n => stars n ++ s
  | .fn r n => stars n ++ "fn " ++ r.text
where
  stars (n : Int) : String := String.ofList (List.replicate n.toNat '*')

end Ty

end Frontend
