import Frontend.Scope.Prelude
import Frontend.Tree.Coercion
import Frontend.Tree.Inference

/-!
Checking a program. The tree is walked with scopes of its own: no name is declared twice in a
scope, every name and every expression has a type, and values fit where they are stored or
returned. A number literal that fits only after a conversion is replaced by the converted one. The
state outlives a failure, so what a failed walk leaves behind can be spoken of.
-/
namespace Frontend

inductive CheckError where
  | redeclared (name : String)
  | unknownName (name : String)
  | invalidType (expected actual : Ty)
  | invalidReturn (expected actual : Ty)
  | returnOutside
  | voidInitializer (name : String)
  | unknownType (name : String)
  | notCallable (ty : Ty)
  | notAStruct (ty : Ty)
  | breach (b : Breach)
  deriving DecidableEq, Repr

namespace CheckError

def code : CheckError → String
  | redeclared _ => "ERR_REDECLARED"
  | unknownName _ => "ERR_NO_VAR"
  | invalidReturn _ _ | returnOutside => "ERR_INVALID_RETURN_TYPE"
  | invalidType _ _ | voidInitializer _ | unknownType _ | notCallable _ | notAStruct _ =>
    "ERR_INVALID_TYPE"
  | breach _ => "ERR_INTERNAL"

def message : CheckError → String
  | redeclared name => name ++ " is already declared in this scope"
  | unknownName name => name ++ " is not defined"
  | invalidType expected actual =>
    "expected type " ++ expected.text ++ ", but got " ++ actual.text
  | invalidReturn expected actual =>
    "function returns " ++ expected.text ++ ", but got " ++ actual.text
  | returnOutside => "return outside of a function"
  | voidInitializer name => name ++ " cannot be initialized with a void value"
  | unknownType name => name ++ " is not a struct type"
  | notCallable ty => "type " ++ ty.text ++ " is not callable"
  | notAStruct ty => "type " ++ ty.text ++ " is not a struct"
  | breach b => "internal compiler error: " ++ b.message

/-- An unknown name is reported where it stands, all else at the whole expression. -/
def ofInfer (whole : Span) : InferError → Located CheckError
  | .unknownIdentifier id | .unknownMember id => ⟨id.span, unknownName id.name⟩
  | .notCallable ty => ⟨whole, notCallable ty⟩
  | .notAStruct ty => ⟨whole, notAStruct ty⟩
  | .breach b => ⟨whole, breach b⟩

end CheckError

inductive Warning where
  /-- A float literal was cut to an integer of type `target`. -/
  | truncatedFloat (target : Ty)
  deriving DecidableEq, Repr

def Warning.message : Warning → String
  | .truncatedFloat target => "implicit cast truncates float literal to " ++ target.text

namespace Check

structure State where
  names : ScopeTable Unit
  /-- Return type of the innermost function. -/
  returns : Option Ty
  warnings : List (Located Warning)

def State.start : State := ⟨.start, none, []⟩

abbrev CheckM := ExceptT (Located CheckError) (StateM State)

def fail (s : Span) (e : CheckError) : CheckM α := throw ⟨s, e⟩

def declare (b : Binding Unit) : CheckM Unit :=
  modify fun st => { st with names := st.names.add b }

/-- Runs `act` in a new scope and closes it, also if `act` fails. -/
def within (s : Span) (enter : ScopeTable Unit → ScopeTable Unit) (act : CheckM α) : CheckM α :=
  ExceptT.mk fun st =>
    let (r, st') := act.run { st with names := enter st.names }
    match st'.names.leave? with
    | some outer => (r, { st' with names := outer })
    | none => (.error ⟨s, .breach .rootScopeClosed⟩, st')

def inScope (s : Span) (act : CheckM α) : CheckM α := within s .enter act

/-- Runs `act` inside a function that returns `ty`. -/
def returning (ty : Ty) (act : CheckM α) : CheckM α :=
  ExceptT.mk fun st =>
    let (r, st') := act.run { st with returns := some ty }
    (r, { st' with returns := st.returns })

def typeIn (t : ScopeTable Unit) (e : Expr) : Except (Located CheckError) Ty :=
  (e.infer t).mapError (CheckError.ofInfer e.span)

mutual

/-- Whether every part of an expression has a type. -/
def expr (t : ScopeTable Unit) : Expr → Except (Located CheckError) Unit
  | .literal _ _ _ => .ok ()
  | .ident id => discard (typeIn t (.ident id))
  | .paren inner s => do
    expr t inner
    discard (typeIn t (.paren inner s))
  | .unary op operand s => do
    expr t operand
    discard (typeIn t (.unary op operand s))
  | .binary op lhs rhs s => do
    expr t lhs
    expr t rhs
    unless op.isLogical do
      let l ← typeIn t lhs
      let r ← typeIn t rhs
      if let .error _ := l.join r then throw ⟨rhs.span, .invalidType l r⟩
    discard (typeIn t (.binary op lhs rhs s))
  | .cast operand ty s => do
    expr t operand
    let actual ← typeIn t operand
    unless actual = ty || ty.compatible actual do throw ⟨s, .invalidType ty actual⟩
  | .call callee args s => do
    expr t callee
    exprs t args
    discard (typeIn t (.call callee args s))
  | .member object field arrow s => do
    expr t object
    discard (typeIn t (.member object field arrow s))

def exprs (t : ScopeTable Unit) : List Expr → Except (Located CheckError) Unit
  | [] => .ok ()
  | e :: es => do
    expr t e
    exprs t es

end

def checkExpr (e : Expr) : CheckM Unit := do MonadExcept.ofExcept (expr (← get).names e)

def typeOf (e : Expr) : CheckM Ty := do MonadExcept.ofExcept (typeIn (← get).names e)

def undeclared (name : Ident) : CheckM Unit := do
  if ((← get).names.findLocal? name.name).isSome then fail name.span (.redeclared name.name)

/-- A type may name a struct only after its definition. -/
def knownType (ty : Ty) (s : Span) : CheckM Unit := do
  if let some name := ty.name? then
    unless (← get).names.isStruct name do fail s (.unknownType name)

/-- The value as an `expected`, which it is already or can be made by retyping a literal. -/
def coerce (expected : Ty) (value : Expr) (mismatch : Ty → Ty → CheckError) : CheckM Expr := do
  let actual ← typeOf value
  if actual = expected then return value
  match if expected.compatible actual then value.coerce? expected else none with
  | some value' =>
    if actual.isFloat && expected.isInteger then
      modify fun st =>
        { st with warnings := st.warnings ++ [⟨value.span, .truncatedFloat expected⟩] }
    return value'
  | none => fail value.span (mismatch expected actual)

def declareParam (p : Param) : CheckM Unit := do
  undeclared p.name
  knownType p.ty p.name.span
  declare (.plain p.name.name p.ty ())

def initializer (name : Ident) (ty : Ty) : Option Expr → CheckM (Option Expr)
  | none => return none
  | some e => do
    checkExpr e
    if (← typeOf e).isVoid then fail e.span (.voidInitializer name.name)
    return some (← coerce ty e .invalidType)

def returned (s : Span) (value : Option Expr) : CheckM (Option Expr) := do
  match (← get).returns, value with
  | none, _ => fail s .returnOutside
  | some expected, none =>
    if expected.isVoid then return none else fail s (.invalidReturn expected .void)
  | some expected, some e =>
    checkExpr e
    if expected.isVoid then fail e.span (.invalidReturn expected (← typeOf e))
    return some (← coerce expected e .invalidReturn)

/-- A function is declared before its parameters are. -/
def signature (sig : Signature) (isExternal : Bool) : CheckM Unit := do
  undeclared sig.name
  knownType sig.ret sig.name.span
  declare ⟨sig.name.name, sig.ty,
    { Attributes.none with isExternal := isExternal, isVariadic := sig.variadic }, none, ()⟩

mutual

/-- The statement with its literals converted. -/
def stmt : Stmt → CheckM Stmt
  | .varDef name ty init s => do
    undeclared name
    knownType ty name.span
    let init ← initializer name ty init
    declare (.plain name.name ty ())
    return .varDef name ty init s
  | .structDef name members s => do
    undeclared name
    let scope := (← get).names.size
    within s (·.enterMarked (membersMarker name.name) ()) (members.forM declareParam)
    declare ⟨name.name, .struct name.name 0, .none, some scope, ()⟩
    return .structDef name members s
  | .fnDef sig body s => do
    signature sig false
    let body ← returning sig.ret <| inScope s do
      sig.params.forM declareParam
      stmts body
    return .fnDef sig body s
  | .fnDecl sig s => do
    signature sig true
    inScope s (sig.params.forM declareParam)
    return .fnDecl sig s
  | .varSet target value s => do
    match (← get).names.find? target.name with
    | none => fail target.span (.unknownName target.name)
    | some b =>
      checkExpr value
      return .varSet target (← coerce b.ty value .invalidType) s
  | .memberSet target value s => do
    checkExpr target
    let expected ← typeOf target
    checkExpr value
    return .memberSet target (← coerce expected value .invalidType) s
  | .expr e s => do
    checkExpr e
    return .expr e s
  | .return_ value s => return .return_ (← returned s value) s
  | .break_ s => return .break_ s
  | .for_ cond body s => do
    checkExpr cond
    return .for_ cond (← inScope s (stmts body)) s
  | .if_ cond body otherwise s => do
    checkExpr cond
    let body ← inScope s (stmts body)
    return .if_ cond body (← alternative s otherwise) s
  | .block body s => return .block (← inScope s (stmts body)) s

def alternative (s : Span) : Alternative → CheckM Alternative
  | .none => return .none
  | .else_ body => return .else_ (← inScope s (stmts body))
  | .elif cond body otherwise => do
    checkExpr cond
    let body ← inScope s (stmts body)
    return .elif cond body (← alternative s otherwise)

def stmts : List Stmt → CheckM (List Stmt)
  | [] => return []
  | s :: ss => do
    let s ← stmt s
    return s :: (← stmts ss)

end

end Check

/-- The checked program and the warnings in order, or the first error. -/
def Program.check (p : Program) : Except (Located CheckError) (Program × List (Located Warning)) :=
  match (Check.stmts p).run .start with
  | (.ok p, st) => .ok (p, st.warnings)
  | (.error e, _) => .error e

end Frontend
