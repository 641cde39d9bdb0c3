import Frontend.Ir.Ty

/-!
The lowered form of a program. A module holds struct layouts and functions; a function is a list of
blocks, each a straight run of instructions over registers that a terminator closes.
-/
namespace Frontend.Ir

/-- A register is assigned by at most one instruction. -/
structure Reg where
  index : Nat
  deriving DecidableEq, Repr

structure BlockId where
  index : Nat
  deriving DecidableEq, Repr

inductive Constant where
  | int (v : Int)
  | float (v : Float)
  | bool (v : Bool)
  | str (v : String)
  deriving Repr

/-- Those that start with `f` work on floats; `ashr` keeps the sign. -/
inductive BinOp where
  | add | sub | mul | fadd | fsub | fmul | fdiv | and | or | xor | shl | ashr
  deriving DecidableEq, Repr

inductive UnOp where
  | neg | fneg | not
  deriving DecidableEq, Repr

inductive Cmp where
  | eq | ne | lt | le | gt | ge
  deriving DecidableEq, Repr

inductive Conv where
  | sext | zext | trunc | fptosi | sitofp | fpext | fptrunc | ptrtoint | inttoptr
  deriving DecidableEq, Repr

inductive Op where
  | const (ty : Ty) (value : Constant)
  | binary (op : BinOp) (a b : Reg)
  | unary (op : UnOp) (a : Reg)
  | icmp (cmp : Cmp) (a b : Reg)
  | fcmp (cmp : Cmp) (a b : Reg)
  | convert (op : Conv) (a : Reg) (ty : Ty)
  /-- Reserves a cell of the current function. -/
  | alloca (ty : Ty)
  | load (ptr : Reg) (ty : Ty)
  | store (ptr value : Reg)
  /-- Address of a field of the struct behind `ptr`. -/
  | fieldPtr (ptr : Reg) (index : Nat)
  | call (func : String) (args : List Reg)
  | callPtr (ptr : Reg) (args : List Reg)
  | funcRef (func : String)
  deriving Repr

structure Instr where
  /-- `none` where there is no value. -/
  result : Option Reg
  op : Op
  deriving Repr

inductive Terminator where
  | ret (value : Option Reg)
  | br (target : BlockId)
  | condBr (cond : Reg) (yes no : BlockId)
  | unreachable
  deriving DecidableEq, Repr

structure Block where
  id : BlockId
  label : Option String
  instrs : List Instr
  /-- `none` while the block is being filled. -/
  terminator : Option Terminator
  deriving Repr

structure Func where
  name : String
  params : List (Reg × Ty)
  ret : Ty
  blocks : List Block
  /-- Declared here and defined elsewhere. -/
  isExternal : Bool
  isVariadic : Bool
  deriving Repr

def Func.instrs (f : Func) : List Instr := f.blocks.flatMap Block.instrs

structure Layout where
  name : String
  fields : List (String × Ty)
  deriving Repr

def Layout.ty (l : Layout) : Ty := .struct (l.fields.map Prod.snd)

structure Module where
  name : String
  structs : List Layout
  funcs : List Func
  deriving Repr

namespace Module

def empty (name : String) : Module := ⟨name, [], []⟩

def func? (m : Module) (name : String) : Option Func := m.funcs.find? (·.name = name)

def addFunc (m : Module) (f : Func) : Module := { m with funcs := m.funcs ++ [f] }

def addStruct (m : Module) (l : Layout) : Module := { m with structs := m.structs ++ [l] }

end Module

end Frontend.Ir
