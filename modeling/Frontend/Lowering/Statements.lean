import Frontend.Lowering.Values

/-!
Lowering of statements and programs. Statements of a body that follow a return go to a block that
nothing leads to. Top-level statements other than definitions make up a function of their own, which
comes last in the module.
-/
namespace Frontend

namespace Lowering

/-- The function of the top-level statements. No source name has a dot. -/
def initName : String := "tav.init"

/-- Stores the value of an expression as a `ty`. -/
def storeAs (ptr : Ir.Reg) (ty : Ir.Ty) (e : Expr) : LowerM Unit := do
  let v ← valueAs ty e
  emitVoid (.store ptr v.reg)

def variable_ (name : Ident) (ty : Ty) (init : Option Expr) : LowerM Unit := do
  let irTy ← lowerType ty name.span
  let ptr ← emitReg (.alloca irTy)
  init.forM (storeAs ptr irTy)
  let owner := (← get).current.id
  bind (.plain name.name ty (.slot ptr irTy owner))

def assign (target : Ident) (e : Expr) : LowerM Unit := do
  match ← lookup target with
  | .slot ptr ty owner =>
    ownedHere owner target.span
    storeAs ptr ty e
  | .param _ _ _ => unsupported target.span .parameterAssignment
  | _ => unsupported target.span .constantAssignment

def assignMember (target e : Expr) : LowerM Unit := do
  match target with
  | .member object field arrow s =>
    let (ptr, ty) ←
      memberAddress (.member object field arrow s) arrow (value object) (address object)
    storeAs ptr ty e
  | _ => unsupported target.span .assignmentTarget

/-- An expression for its effects. Only here may a call return nothing. -/
def effect : Expr → LowerM Unit
  | .call callee args _ => do
    let _ ← call callee (value callee) fun params variadic => arguments params variadic args
  | e => do
    let _ ← value e

/-- What is returned, as the return type of the current function. -/
def returned : Option Expr → LowerM (Option Ir.Reg)
  | none => return none
  | some e => do
    let v ← valueAs (← get).current.ret e
    return some v.reg

def return_ (e : Option Expr) : LowerM Unit := do terminate (.ret (← returned e))

def struct_ (name : Ident) (members : List Param) (s : Span) : LowerM Unit := do
  let fields ← members.mapM fun m => do
    let ty ← lowerType m.ty m.name.span
    return (m.name.name, ty)
  let layout : Ir.Layout := ⟨name.name, fields⟩
  let scope := (← get).names.size
  within s (·.enterMarked (membersMarker name.name) .marker) do
    members.forM fun m => bind (.plain m.name.name m.ty .member)
  bind ⟨name.name, .struct name.name 0, .none, some scope, .struct layout.ty⟩
  modify fun st => { st with module := st.module.addStruct layout }

/-- The lowered parts of a signature. -/
structure LoweredSig where
  name : String
  params : List Ir.Ty
  ret : Ir.Ty

/-- Binds a function, so that its body can call it. -/
def signature (sig : Signature) (isExternal : Bool) : LowerM LoweredSig := do
  let ret ← lowerType sig.ret sig.name.span
  let params ← sig.params.mapM lowerParam
  let name ← functionName sig.name.name
  bind ⟨sig.name.name, sig.ty,
    { Attributes.none with isExternal := isExternal, isVariadic := sig.variadic }, none,
    .func name params ret sig.variadic⟩
  return ⟨name, params, ret⟩

def bindParams (params : List Param) (tys : List Ir.Ty) (owner : Nat) : LowerM Unit :=
  ((params.zip (Ir.numbered tys))).forM fun (p, reg, ty) =>
    bind (.plain p.name.name p.ty (.param reg ty owner))

/-- Where control goes if a condition fails, and there is `more` to do there or not. -/
def elseTarget (join : Ir.BlockId) (more : Bool) : LowerM Ir.BlockId :=
  bif more then freshBlock else return join

/-- Leaves the open block for that of a condition. Gives the block where the arms meet. -/
def openIf : LowerM Ir.BlockId := do
  let join ← freshBlock
  let first ← freshBlock
  terminate (.br first)
  startBlock first "if.cond"
  return join

/-- Branches on a condition and opens the block of the body. Gives the block where the condition has
failed. -/
def openArm (join : Ir.BlockId) (label : String) (cond : Expr) (more : Bool) :
    LowerM Ir.BlockId := do
  let c ← truthy (← value cond) cond.span
  let yes ← freshBlock
  let no ← elseTarget join more
  terminate (.condBr c.reg yes no)
  startBlock yes label
  return no

/-- One arm of an `if`: a condition and a body, which goes on to `join`. Where the condition fails,
control goes to what `otherwise` lowers, or to `join` if there is nothing else. -/
def arm (join : Ir.BlockId) (label : String) (cond : Expr) (body : LowerM Unit)
    (otherwise : Option (Ir.BlockId → LowerM Unit)) : LowerM Unit := do
  let no ← openArm join label cond otherwise.isSome
  body
  terminate (.br join)
  match otherwise with
  | none => return
  | some act => act no

/-- Makes sure that there is an open block. -/
def reopen : LowerM Unit := do
  if (← get).current.isTerminated then startBlock (← freshBlock) "dead"

mutual

def stmt : Stmt → LowerM Unit
  | .varDef name ty init _ => variable_ name ty init
  | .structDef name members s => struct_ name members s
  | .fnDef sig body s => do
    let low ← signature sig false
    let id ← freshId
    inFunction s (.start id low.name low.params low.ret) <| inScope s do
      bindParams sig.params low.params id
      stmts body
  | .fnDecl sig _ => do
    let low ← signature sig true
    addFunc (.external low.name low.params low.ret sig.variadic)
  | .varSet target e _ => assign target e
  | .memberSet target e _ => assignMember target e
  | .expr e _ => effect e
  | .return_ e _ => return_ e
  | .break_ s => unsupported s .loops
  | .for_ _ _ s => unsupported s .loops
  | .if_ cond body otherwise s => do
    let join ← openIf
    arm join "if.then" cond (inScope s (stmts body)) (alternative s join otherwise)
    startBlock join "if.end"
  | .block body s => inScope s (stmts body)

/-- Lowers what follows the body of an `if` from the block where the condition has failed. -/
def alternative (s : Span) (join : Ir.BlockId) :
    Alternative → Option (Ir.BlockId → LowerM Unit)
  | .none => none
  | .else_ body => some fun here => do
    startBlock here "if.else"
    inScope s (stmts body)
    terminate (.br join)
  | .elif cond body otherwise => some fun here => do
    startBlock here "elif.cond"
    arm join "elif.then" cond (inScope s (stmts body)) (alternative s join otherwise)

/-- Statements of a body. -/
def stmts : List Stmt → LowerM Unit
  | [] => return
  | s :: ss => do
    reopen
    stmt s
    stmts ss

end

def topLevel : List Stmt → LowerM Unit
  | [] => return
  | s :: ss => do
    stmt s
    topLevel ss

/-- Parameters of a prelude function. -/
def preludeParams (f : PreludeFn) : List Ir.Ty := f.params.filterMap (·.2.lower?)

def preludeRet (f : PreludeFn) : Ir.Ty := f.ret.lower?.getD .void

/-- The prelude is bound and declared, and the function of the top-level statements is open. -/
def State.start (moduleName : String) : State :=
  { names := ScopeTable.empty.addPrelude fun f =>
      .func f.name (preludeParams f) (preludeRet f) f.attributes.isVariadic
    module := ⟨moduleName, [], prelude.map fun f =>
      .external f.name (preludeParams f) (preludeRet f) f.attributes.isVariadic⟩
    nextId := 1
    enclosing := []
    current := .start 0 initName [] .void }

end Lowering

/-- Whether a statement defines a function or a struct. -/
def Stmt.isDefinition : Stmt → Bool
  | .structDef .. | .fnDef .. | .fnDecl .. => true
  | _ => false

/-- The module of a program, or the first thing in it that cannot be lowered. -/
def Program.lower (p : Program) (moduleName : String) : Except (Located LowerError) Ir.Module :=
  match (Lowering.topLevel p).run (.start moduleName) with
  | (.error e, _) => .error e
  | (.ok _, st) =>
    .ok (if p.all Stmt.isDefinition then st.module else st.module.addFunc st.current.finish)

end Frontend
