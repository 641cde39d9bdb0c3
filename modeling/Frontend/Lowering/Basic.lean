import Frontend.Lowering.Builder
import Frontend.Lowering.Handle
import Frontend.Tree.Inference

/-!
The state in which a program is lowered, and the steps that change it. There is always a function
under construction; functions around it wait until it is finished. The state outlives a failure.
-/
namespace Frontend

/-- What cannot be lowered. -/
inductive Unsupported where
  | loops
  | parameterAssignment
  | constantAssignment
  | voidOperand
  | typeAsValue
  | addressOf
  | dereference
  | unaryOperator
  | aggregateComparison
  | integerDivision
  | remainder
  | binaryOperator
  | callOfValue
  | assignmentTarget
  | memberOfNonStruct
  | memberOfTemporary
  | conversion
  | condition
  | foreignLocal
  | anyValue
  | illTyped
  deriving DecidableEq, Repr

def Unsupported.text : Unsupported → String
  | .loops => "loops"
  | .parameterAssignment => "assignment to a parameter"
  | .constantAssignment => "assignment to a non-variable"
  | .voidOperand => "void value used as an operand"
  | .typeAsValue => "type name used as a value"
  | .addressOf => "address of a non-integer value"
  | .dereference => "dereference of a non-integer pointer"
  | .unaryOperator => "unary operator on this type"
  | .aggregateComparison => "comparison of aggregates"
  | .integerDivision => "integer division"
  | .remainder => "remainder"
  | .binaryOperator => "binary operator on this type"
  | .callOfValue => "call of a non-function value"
  | .assignmentTarget => "assignment target"
  | .memberOfNonStruct => "member of a non-struct value"
  | .memberOfTemporary => "member of a temporary value"
  | .conversion => "conversion between these types"
  | .condition => "condition of a non-numeric type"
  | .foreignLocal => "reference to another function's local"
  | .anyValue => "values of type any"
  | .illTyped => "ill-typed expression"

inductive LowerError where
  | unsupported (what : Unsupported)
  | unresolved (name : String)
  | breach (b : Breach)
  deriving DecidableEq, Repr

namespace LowerError

def code : LowerError → String
  | unsupported _ => "ERR_UNSUPPORTED"
  | unresolved _ => "ERR_NO_VAR"
  | breach _ => "ERR_INTERNAL"

def message : LowerError → String
  | unsupported what => "unsupported: " ++ what.text
  | unresolved name => name ++ " is not defined"
  | breach b => "internal compiler error: " ++ b.message

/-- An unknown name is reported where it stands, all else at the whole expression. -/
def ofInfer (whole : Span) : InferError → Located LowerError
  | .unknownIdentifier id | .unknownMember id => ⟨id.span, unresolved id.name⟩
  | .notCallable _ | .notAStruct _ => ⟨whole, unsupported .illTyped⟩
  | .breach b => ⟨whole, breach b⟩

end LowerError

namespace Lowering

structure State where
  names : ScopeTable Handle
  module : Ir.Module
  /-- Number of the next function. -/
  nextId : Nat
  /-- Functions around the current one, innermost first. -/
  enclosing : List Ir.Builder
  current : Ir.Builder

abbrev LowerM := ExceptT (Located LowerError) (StateM State)

/-- A value in a register. -/
structure Operand where
  reg : Ir.Reg
  ty : Ir.Ty
  deriving Repr

def fail (s : Span) (e : LowerError) : LowerM α := throw ⟨s, e⟩

def unsupported (s : Span) (what : Unsupported) : LowerM α := fail s (.unsupported what)

def emitReg (op : Ir.Op) : LowerM Ir.Reg :=
  modifyGet fun st =>
    let (r, b) := st.current.emit op
    (r, { st with current := b })

def emit (op : Ir.Op) (ty : Ir.Ty) : LowerM Operand := return ⟨← emitReg op, ty⟩

/-- An instruction without a value. -/
def emitVoid (op : Ir.Op) : LowerM Unit :=
  modify fun st => { st with current := st.current.push ⟨none, op⟩ }

def freshBlock : LowerM Ir.BlockId :=
  modifyGet fun st =>
    let (id, b) := st.current.freshBlock
    (id, { st with current := b })

def startBlock (id : Ir.BlockId) (label : String) : LowerM Unit :=
  modify fun st => { st with current := st.current.startBlock id label }

def terminate (t : Ir.Terminator) : LowerM Unit :=
  modify fun st => { st with current := st.current.terminate t }

def bind (b : Binding Handle) : LowerM Unit :=
  modify fun st => { st with names := st.names.add b }

def addFunc (f : Ir.Func) : LowerM Unit :=
  modify fun st => { st with module := st.module.addFunc f }

def freshId : LowerM Nat := modifyGet fun st => (st.nextId, { st with nextId := st.nextId + 1 })

/-- Runs `act` in a new scope and closes it, also if `act` fails. -/
def within (s : Span) (enter : ScopeTable Handle → ScopeTable Handle) (act : LowerM α) : LowerM α :=
  ExceptT.mk fun st =>
    let (r, st') := act.run { st with names := enter st.names }
    match st'.names.leave? with
    | some outer => (r, { st' with names := outer })
    | none => (.error ⟨s, .breach .rootScopeClosed⟩, st')

def inScope (s : Span) (act : LowerM α) : LowerM α := within s .enter act

/-- Runs `act` with `b` as the function under construction and adds the function to the module, also
if `act` fails. The function that waits is taken up again. -/
def inFunction (s : Span) (b : Ir.Builder) (act : LowerM α) : LowerM α :=
  ExceptT.mk fun st =>
    let (r, st') := act.run { st with enclosing := st.current :: st.enclosing, current := b }
    match st'.enclosing with
    | outer :: rest =>
      (r, { st' with
        module := st'.module.addFunc st'.current.finish
        enclosing := rest
        current := outer })
    | [] => (.error ⟨s, .breach .noFunction⟩, st')

def lookup (id : Ident) : LowerM Handle := do
  match (← get).names.find? id.name with
  | some b => return b.value
  | none => fail id.span (.unresolved id.name)

/-- The frame of another function cannot be reached. -/
def ownedHere (owner : Nat) (s : Span) : LowerM Unit := do
  unless owner = (← get).current.id do unsupported s .foreignLocal

def lowerType (ty : Ty) (s : Span) : LowerM Ir.Ty := do
  match ty.lower (← get).names with
  | .ok ty => return ty
  | .error (.missingLayout (.prim .any)) => unsupported s .anyValue
  | .error b => fail s (.breach b)

/-- Structs are passed by address. -/
def lowerParam (p : Param) : LowerM Ir.Ty := do
  let ty ← lowerType p.ty p.name.span
  return if ty.isAggregate then .ptr ty else ty

def infer (e : Expr) : LowerM Ty := do
  MonadExcept.ofExcept ((e.infer (← get).names).mapError (LowerError.ofInfer e.span))

/-- The first of `base`, `base.1`, `base.2`, … that is not taken. Of one more candidates than there
are names taken, one is free. -/
def freeName (taken : List String) (base : String) : String :=
  let candidate (n : Nat) : String := if n = 0 then base else base ++ "." ++ toString n
  (((List.range (taken.length + 1)).map candidate).find? (!taken.contains ·)).getD base

/-- Names of the functions of the module and of those under construction. -/
def State.functionNames (st : State) : List String :=
  st.module.funcs.map (·.name) ++ st.current.name :: st.enclosing.map (·.name)

/-- A name that no function of the module has, nor one under construction. -/
def functionName (base : String) : LowerM String := return freeName (← get).functionNames base

end Lowering

end Frontend
