import Frontend.Lowering.Basic

/-!
Lowering of expressions. An operand is evaluated before what uses it, left before right, each once.
Structs are used through their address; every member is taken to be the first field.
-/
namespace Frontend

/-- The comparison an operator makes. -/
def BinaryOp.cmp : BinaryOp → Ir.Cmp
  | .eq => .eq
  | .ne => .ne
  | .lt => .lt
  | .le => .le
  | .gt => .gt
  | _ => .ge

def Value.constant : Value → Ir.Constant
  | .int v => .int v
  | .float v => .float v
  | .str v => .str v
  | .bool v => .bool v

namespace Lowering

/-- What is at an address: a struct stays there, anything else is loaded. -/
def read (ptr : Ir.Reg) (ty : Ir.Ty) : LowerM Operand :=
  if ty.isAggregate then return ⟨ptr, .ptr ty⟩ else emit (.load ptr ty) ty

/-- A number as a bit: whether it is not zero. -/
def truthy (v : Operand) (s : Span) : LowerM Operand := do
  if v.ty = .bool then return v
  else if v.ty.isInt then
    let zero ← emit (.const v.ty (.int 0)) v.ty
    emit (.icmp .ne v.reg zero.reg) .bool
  else if v.ty.isFloat then
    let zero ← emit (.const v.ty (.float 0)) v.ty
    emit (.fcmp .ne v.reg zero.reg) .bool
  else unsupported s .condition

/-- The instruction that turns a number of one type into one of another, or loads a struct from its
address. Both types are not `i1`. -/
def conversion? (v : Operand) (target : Ir.Ty) : Option Ir.Op :=
  let narrower : Bool := match v.ty.bits?, target.bits? with
    | some m, some n => m < n
    | _, _ => false
  if v.ty = .bool ∧ target.isInt then some (.convert .zext v.reg target)
  else if v.ty.isInt ∧ target.isInt then
    some (.convert (if narrower then .sext else .trunc) v.reg target)
  else if v.ty.isInt ∧ target.isFloat then some (.convert .sitofp v.reg target)
  else if v.ty.isFloat ∧ target.isInt then some (.convert .fptosi v.reg target)
  else if v.ty.isFloat ∧ target.isFloat then
    some (.convert (if narrower then .fpext else .fptrunc) v.reg target)
  else if v.ty.pointee? = some target then some (.load v.reg target)
  else none

def convert (v : Operand) (target : Ir.Ty) (s : Span) : LowerM Operand :=
  if v.ty = target then return v
  else if target = .bool ∧ (v.ty.isInt ∨ v.ty.isFloat) then truthy v s
  else
    match conversion? v target with
    | some op => emit op target
    | none => unsupported s .conversion

def ident (id : Ident) : LowerM Operand := do
  match ← lookup id with
  | .slot ptr ty owner =>
    ownedHere owner id.span
    read ptr ty
  | .param reg ty owner =>
    ownedHere owner id.span
    return ⟨reg, ty⟩
  | .func name params ret _ => emit (.funcRef name) (.fn params ret)
  | .struct _ | .member | .marker => unsupported id.span .typeAsValue

/-- The address of the struct that a variable or parameter holds. -/
def identAddress (id : Ident) : LowerM Ir.Reg := do
  match ← lookup id with
  | .slot ptr ty owner =>
    if ty.isAggregate then
      ownedHere owner id.span
      return ptr
    else unsupported id.span .memberOfNonStruct
  | .param reg ty owner =>
    if (ty.pointee?.map (·.isAggregate)).getD false then
      ownedHere owner id.span
      return reg
    else unsupported id.span .memberOfNonStruct
  | _ => unsupported id.span .memberOfNonStruct

/-- Addresses and integers are taken for each other bit by bit, and only at one level of pointers.
-/
def unary (op : UnaryOp) (v : Operand) (s : Span) : LowerM Operand := do
  match op with
  | .not =>
    let bit ← truthy v s
    emit (.unary .not bit.reg) .bool
  | .neg =>
    if v.ty.isFloat then emit (.unary .fneg v.reg) v.ty
    else if v.ty.isInt then emit (.unary .neg v.reg) v.ty
    else unsupported s .unaryOperator
  | .bitNot =>
    if v.ty.isInt ∨ v.ty = .bool then emit (.unary .not v.reg) v.ty
    else unsupported s .unaryOperator
  | .addressOf =>
    if v.ty.isInt then emit (.convert .inttoptr v.reg (.ptr v.ty)) (.ptr v.ty)
    else unsupported s .addressOf
  | .deref =>
    match v.ty.pointee? with
    | some ty =>
      if ty.isInt then emit (.convert .ptrtoint v.reg ty) ty else unsupported s .dereference
    | none => unsupported s .dereference

def floatOp? : BinaryOp → Option Ir.BinOp
  | .add => some .fadd
  | .sub => some .fsub
  | .mul => some .fmul
  | .div => some .fdiv
  | _ => none

def intOp? : BinaryOp → Option Ir.BinOp
  | .add => some .add
  | .sub => some .sub
  | .mul => some .mul
  | .shl => some .shl
  | .shr => some .ashr
  | .bitAnd => some .and
  | .bitOr => some .or
  | .bitXor => some .xor
  | _ => none

/-- The instruction for an operator on two operands of type `ty`, and the type of its value. -/
def binaryOp (op : BinaryOp) (ty : Ir.Ty) (l r : Ir.Reg) : Except Unsupported (Ir.Op × Ir.Ty) :=
  let isInt := ty.isInt || ty = .bool
  if op.isComparison then
    if ty.isFloat then .ok (.fcmp op.cmp l r, .bool)
    else if isInt || ty.isPtr then .ok (.icmp op.cmp l r, .bool)
    else .error .aggregateComparison
  else if op = .rem then .error .remainder
  else if ty.isFloat then
    match floatOp? op with
    | some o => .ok (.binary o l r, ty)
    | none => .error .binaryOperator
  else if isInt then
    if op = .div then .error .integerDivision
    else
      match intOp? op with
      | some o => .ok (.binary o l r, ty)
      | none => .error .binaryOperator
  else .error .binaryOperator

/-- The operation on two operands of type `ty`. -/
def apply (op : BinaryOp) (ty : Ir.Ty) (l r : Ir.Reg) (s : Span) : LowerM Operand :=
  match binaryOp op ty l r with
  | .ok (o, t) => emit o t
  | .error what => unsupported s what

/-- The type in which two operands meet. -/
def joined (l r : Ty) (s : Span) : LowerM Ty :=
  match l.join r with
  | .ok ty => return ty
  | .error b => fail s (.breach b)

/-- What is called: a function by name, or one behind a register. -/
inductive Callee where
  | named (func : String)
  | pointer (reg : Ir.Reg)

def Callee.op (c : Callee) (args : List Ir.Reg) : Ir.Op :=
  match c with
  | .named f => .call f args
  | .pointer r => .callPtr r args

structure CallTarget where
  callee : Callee
  params : List Ir.Ty
  ret : Ir.Ty
  variadic : Bool

/-- The function that a callee names. -/
def named? : Expr → LowerM (Option CallTarget)
  | .ident id => do
    match ← lookup id with
    | .func name params ret variadic => return some ⟨.named name, params, ret, variadic⟩
    | _ => return none
  | _ => return none

/-- The function that a value points to. -/
def pointedTo (f : Operand) (s : Span) : LowerM CallTarget :=
  match f.ty with
  | .fn params ret => return ⟨.pointer f.reg, params, ret, false⟩
  | _ => unsupported s .callOfValue

/-- A name bound to a function is called by name, all else by its value. -/
def callTarget (callee : Expr) (value : LowerM Operand) : LowerM CallTarget := do
  match ← named? callee with
  | some target => return target
  | none => pointedTo (← value) callee.span

/-- The call, and its value unless it returns nothing. -/
def call (callee : Expr) (value : LowerM Operand)
    (args : List Ir.Ty → Bool → LowerM (List Ir.Reg)) : LowerM (Option Operand) := do
  let target ← callTarget callee value
  let regs ← args target.params target.variadic
  let op := target.callee.op regs
  if target.ret = .void then
    emitVoid op
    return none
  else return some (← emit op target.ret)

/-- An argument as its parameter takes it. Beyond the parameters, a variadic function takes short
floats as long ones. -/
def argument (param : Option Ir.Ty) (variadic : Bool) (v : Operand) (s : Span) : LowerM Operand :=
  match param with
  | some ty => convert v ty s
  | none => if variadic ∧ v.ty = .f32 then convert v .f64 s else return v

/-- The address that a value is, if there is a struct at it. -/
def structPointer (v : Operand) (s : Span) : LowerM Ir.Reg :=
  if (v.ty.pointee?.map (·.isAggregate)).getD false then return v.reg
  else unsupported s .memberOfNonStruct

/-- Address and type of the member accessed by `whole`. Through an arrow, the value of the object
is the address of the struct. -/
def memberAddress (whole : Expr) (arrow : Bool) (value : LowerM Operand) (address : LowerM Ir.Reg) :
    LowerM (Ir.Reg × Ir.Ty) := do
  let ptr ← bif arrow then value >>= (structPointer · whole.span) else address
  let ty ← infer whole
  let ty ← lowerType ty whole.span
  let field ← emitReg (.fieldPtr ptr 0)
  return (field, ty)

mutual

def value : Expr → LowerM Operand
  | .literal v ty s => do
    let ty ← lowerType ty s
    emit (.const ty v.constant) ty
  | .ident id => ident id
  | .paren inner _ => value inner
  | .unary op operand _ => do unary op (← value operand) operand.span
  | .binary op lhs rhs s => do
    if op.isLogical then
      let l ← truthy (← value lhs) lhs.span
      let r ← truthy (← value rhs) rhs.span
      emit (.binary (if op = .and then .and else .or) l.reg r.reg) .bool
    else
      let lhsTy ← infer lhs
      let rhsTy ← infer rhs
      let ty ← lowerType (← joined lhsTy rhsTy s) s
      let l ← convert (← value lhs) ty lhs.span
      let r ← convert (← value rhs) ty rhs.span
      apply op ty l.reg r.reg s
  | .cast operand ty s => do
    let ty ← lowerType ty s
    convert (← value operand) ty operand.span
  | .call callee args s => do
    match ← call callee (value callee) (fun params variadic => arguments params variadic args) with
    | some v => return v
    | none => unsupported s .voidOperand
  | .member object field arrow s => do
    let (ptr, ty) ←
      memberAddress (.member object field arrow s) arrow (value object) (address object)
    read ptr ty

def arguments (params : List Ir.Ty) (variadic : Bool) : List Expr → LowerM (List Ir.Reg)
  | [] => return []
  | e :: es => do
    let v ← argument params.head? variadic (← value e) e.span
    let regs ← arguments params.tail variadic es
    return v.reg :: regs

/-- The address of a struct, without loading it. -/
def address : Expr → LowerM Ir.Reg
  | .paren inner _ => address inner
  | .member object field arrow s => do
    let (ptr, _) ←
      memberAddress (.member object field arrow s) arrow (value object) (address object)
    return ptr
  | .ident id => identAddress id
  | e => unsupported e.span .memberOfTemporary

end

/-- The value of an expression as a `target`. -/
def valueAs (target : Ir.Ty) (e : Expr) : LowerM Operand := do convert (← value e) target e.span

end Lowering

end Frontend
