import Frontend.Lowering.Statements
import Frontend.Proofs.Scalar

/-!
What functions over scalars mean, read off their trees. Statements are executed in order under
lexical scoping; the operands of an operator and the arguments of a call are evaluated from left to
right, each once, those of the logical operators too. Both operands of any other operator are
converted to the type in which they meet, an argument to the type of its parameter, and what is
stored or returned to the type of where it goes. Variables are cells, numbered in the order in which
they come to be.
-/
namespace Frontend

open Lowering (freeName initName)

variable {F : Type}

/-- A function as its callers see it. -/
structure Routine where
  link : String
  params : List Ty
  ret : Ty
  variadic : Bool
  deriving DecidableEq

/-- The name a function goes by outside, given those of the functions declared before it. -/
def Signature.link (links : List String) (sig : Signature) : String :=
  freeName (initName :: links) sig.name.name

def Signature.routine (links : List String) (sig : Signature) : Routine :=
  ⟨sig.link links, sig.params.map (·.ty), sig.ret, sig.variadic⟩

mutual

/-- Names of the functions declared up to the end of a statement. -/
def Stmt.declared (links : List String) : Stmt → List String
  | .fnDef sig body _ => declaredIn (links ++ [sig.link links]) body
  | .fnDecl sig _ => links ++ [sig.link links]
  | .if_ _ body otherwise _ => otherwise.declared (declaredIn links body)
  | .for_ _ body _ | .block body _ => declaredIn links body
  | _ => links

def Alternative.declared (links : List String) : Alternative → List String
  | .none => links
  | .else_ body => declaredIn links body
  | .elif _ body otherwise => otherwise.declared (declaredIn links body)

def declaredIn (links : List String) : List Stmt → List String
  | [] => links
  | s :: ss => declaredIn (s.declared links) ss

end

/-- What is known of names before a function runs: which of them are functions. Newest first. -/
abbrev Outlook := List (String × Option Routine)

namespace Outlook

/-- The function that a callee names. -/
def routine? (o : Outlook) : Expr → Option Routine
  | .ident id => (o.lookup id.name).join
  | _ => none

/-- After a statement. -/
def after (o : Outlook) (links : List String) : Stmt → Outlook
  | .varDef name _ _ _ => (name.name, none) :: o
  | .structDef name _ _ => (name.name, none) :: (membersMarker name.name, none) :: o
  | .fnDef sig _ _ => (sig.name.name, some (sig.routine links)) :: o
  | .fnDecl sig _ => (sig.name.name, some (sig.routine links)) :: o
  | _ => o

/-- Inside a function. -/
def inside (o : Outlook) (params : List Param) : Outlook :=
  params.reverse.map (fun p => (p.name.name, none)) ++ o

end Outlook

inductive Entity (F : Type) where
  | var (ty : Ty) (cell : Nat)
  | param (ty : Ty) (v : Val F)
  | fn (f : Routine)
  /-- A struct, or what belongs to another function. -/
  | other

def Entity.routine? : Entity F → Option Routine
  | .fn f => some f
  | _ => none

/-- What names stand for, newest first. -/
abbrev Env (F : Type) := List (String × Entity F)

def Env.outlook (env : Env F) : Outlook := env.map fun e => (e.1, e.2.routine?)

/-- Of what was there before a function runs, it can use the functions. -/
def Outlook.env (o : Outlook) : Env F :=
  o.map fun e => (e.1, e.2.elim .other .fn)

structure Store (F : Type) where
  cells : List (Val F)
  calls : List (Call F)

/-- The answer to a call. -/
def Store.call (W : World F) (σ : Store F) (c : Call F) : Raw F × Store F :=
  (W.answer σ.calls c, { σ with calls := σ.calls ++ [c] })

def Value.denote (A : FloatArith F) (t : Ir.Ty) : Value → Option (Val F)
  | .int v => t.width?.map fun w => .int w (.ofInt w v)
  | .bool b => if t = .bool then some (.bit b) else none
  | .float v => if t.isFloat then some (.float t (A.literal t v)) else none
  | .str _ => none

def Val.isShort : Val F → Bool
  | .float .f32 _ => true
  | _ => false

/-- An argument as its parameter takes it. Beyond the parameters, a variadic function takes short
floats as long ones. -/
def Val.pass (A : FloatArith F) (param : Option Ty) (variadic : Bool) (v : Val F) :
    Option (Val F) :=
  match param with
  | some ty => do v.convert A (← ty.scalar?)
  | none => if variadic && v.isShort then v.convert A .f64 else some v

mutual

/-- Type and value of an expression, and the store after it. -/
def Expr.eval (W : World F) (env : Env F) : Expr → Store F → Option (Ty × Val F × Store F)
  | .literal v ty _, σ => do return (ty, ← v.denote W.floats (← ty.scalar?), σ)
  | .ident id, σ => do
    match ← env.lookup id.name with
    | .var ty k => return (ty, ← σ.cells[k]?, σ)
    | .param ty v => return (ty, v, σ)
    | _ => none
  | .paren e _, σ => e.eval W env σ
  | .unary op e _, σ => do
    let (ty, v, σ) ← e.eval W env σ
    return (if op = .not then .bool else ty, ← op.apply W.floats v, σ)
  | .binary op l r _, σ => do
    let (s, a, σ) ← l.eval W env σ
    let (t, b, σ) ← r.eval W env σ
    if op.isLogical then
      return (.bool, .bit (op.connect (← a.truth? W.floats) (← b.truth? W.floats)), σ)
    else
      let ty ← (s.join t).toOption
      let rep ← ty.scalar?
      let v ← op.apply W.floats (← a.convert W.floats rep) (← b.convert W.floats rep)
      return (if op.isComparison then .bool else ty, v, σ)
  | .cast e ty _, σ => do
    let (_, v, σ) ← e.eval W env σ
    return (ty, ← v.convert W.floats (← ty.scalar?), σ)
  | .call callee args _, σ => do
    let f ← env.outlook.routine? callee
    let (vs, σ) ← evalArgs W env f.params f.variadic args σ
    let (r, σ) := σ.call W ⟨f.link, vs⟩
    return (f.ret, .read (← f.ret.scalar?) r, σ)
  | .member .., _ => none

def evalArgs (W : World F) (env : Env F) (params : List Ty) (variadic : Bool) :
    List Expr → Store F → Option (List (Val F) × Store F)
  | [], σ => some ([], σ)
  | e :: es, σ => do
    let (_, v, σ) ← e.eval W env σ
    let v ← v.pass W.floats params.head? variadic
    let (vs, σ) ← evalArgs W env params.tail variadic es σ
    return (v :: vs, σ)

end

/-- An expression for its effects. Only here may a call return no scalar. -/
def Expr.perform (W : World F) (env : Env F) (σ : Store F) : Expr → Option (Store F)
  | .call callee args _ => do
    let f ← env.outlook.routine? callee
    let (vs, σ) ← evalArgs W env f.params f.variadic args σ
    return (σ.call W ⟨f.link, vs⟩).2
  | e => do
    let (_, _, σ) ← e.eval W env σ
    return σ

/-- The value of an expression as a `t`. -/
def Expr.evalAs (W : World F) (env : Env F) (t : Ty) (e : Expr) (σ : Store F) :
    Option (Val F × Store F) := do
  let (_, v, σ) ← e.eval W env σ
  return (← v.convert W.floats (← t.scalar?), σ)

/-- Puts the value of an expression as a `t` into a cell. -/
def Expr.assign (W : World F) (env : Env F) (k : Nat) (t : Ty) (e : Expr) (σ : Store F) :
    Option (Store F) := do
  let (v, σ) ← e.evalAs W env t σ
  return { σ with cells := σ.cells.set k v }

/-- Where control goes after a statement: on, with the names bound then, or out of the function. -/
inductive Flow (F : Type) where
  | next (env : Env F)
  | returned (v : Option (Val F))

/-- The end of a block, whose names are gone. -/
def Flow.leave (env : Env F) : Flow F × Store F → Flow F × Store F
  | (.next _, σ) => (.next env, σ)
  | (.returned v, σ) => (.returned v, σ)

/-- What follows depends on a condition. -/
def Expr.choose (W : World F) (env : Env F) (cond : Expr)
    (yes no : Store F → Option (Flow F × Store F)) (σ : Store F) : Option (Flow F × Store F) := do
  let (_, v, σ) ← cond.eval W env σ
  if ← v.truth? W.floats then yes σ else no σ

mutual

/-- A statement of a function that returns a `ret`. -/
def Stmt.exec (W : World F) (ret : Ty) (links : List String) (env : Env F) :
    Stmt → Store F → Option (Flow F × Store F)
  | .varDef name ty init _, σ => do
    let k := σ.cells.length
    let σ : Store F := { σ with cells := σ.cells ++ [.read (← ty.scalar?) (W.fresh k)] }
    let σ ← init.elim (some σ) fun e => e.assign W env k ty σ
    return (.next ((name.name, .var ty k) :: env), σ)
  | .structDef name _ _, σ =>
    some (.next ((name.name, .other) :: (membersMarker name.name, .other) :: env), σ)
  | .fnDef sig _ _, σ => some (.next ((sig.name.name, .fn (sig.routine links)) :: env), σ)
  | .fnDecl sig _, σ => some (.next ((sig.name.name, .fn (sig.routine links)) :: env), σ)
  | .varSet target e _, σ => do
    match ← env.lookup target.name with
    | .var ty k => return (.next env, ← e.assign W env k ty σ)
    | _ => none
  | .expr e _, σ => do return (.next env, ← e.perform W env σ)
  | .return_ none _, σ => some (.returned none, σ)
  | .return_ (some e) _, σ => do
    let (v, σ) ← e.evalAs W env ret σ
    return (.returned (some v), σ)
  | .if_ cond body otherwise _, σ =>
    cond.choose W env (fun σ => (execIn W ret links env body σ).map (Flow.leave env))
      (fun σ => otherwise.exec W ret (declaredIn links body) env σ) σ
  | .block body _, σ => (execIn W ret links env body σ).map (Flow.leave env)
  | .memberSet .., _ | .break_ _, _ | .for_ .., _ => none

def Alternative.exec (W : World F) (ret : Ty) (links : List String) (env : Env F) :
    Alternative → Store F → Option (Flow F × Store F)
  | .none, σ => some (.next env, σ)
  | .else_ body, σ => (execIn W ret links env body σ).map (Flow.leave env)
  | .elif cond body otherwise, σ =>
    cond.choose W env (fun σ => (execIn W ret links env body σ).map (Flow.leave env))
      (fun σ => otherwise.exec W ret (declaredIn links body) env σ) σ

/-- Statements up to a return. -/
def execIn (W : World F) (ret : Ty) (links : List String) (env : Env F) :
    List Stmt → Store F → Option (Flow F × Store F)
  | [], σ => some (.next env, σ)
  | s :: ss, σ => do
    match ← s.exec W ret links env σ with
    | (.next env, σ) => execIn W ret (s.declared links) env ss σ
    | (.returned v, σ) => return (.returned v, σ)

end

/-- A function with a body, and where it stands. -/
structure Definition where
  sig : Signature
  body : List Stmt
  /-- Names of the functions declared before it. -/
  links : List String
  /-- What is known at its body, but for the parameters. -/
  outlook : Outlook

namespace Definition

def link (d : Definition) : String := d.sig.link d.links

/-- Parameters and what was known before. -/
def env (d : Definition) (args : List (Val F)) : Env F :=
  (d.sig.params.zip args).reverse.map (fun p => (p.1.name.name, .param p.1.ty p.2)) ++
    d.outlook.env

/-- The outcome of a call, and the calls made meanwhile. At the end of its body a void function
returns. -/
def run (W : World F) (d : Definition) (args : List (Val F)) :
    Option (Outcome F × List (Call F)) := do
  match ← execIn W d.sig.ret (d.links ++ [d.link]) (d.env args) d.body ⟨[], []⟩ with
  | (.returned v, σ) => return (.returned v, σ.calls)
  | (.next _, σ) =>
    return (if d.sig.ret.isVoid then .returned none else .unreachable, σ.calls)

end Definition

mutual

/-- Functions with a body in a statement, given what was declared before it. -/
def Stmt.definitions (links : List String) (o : Outlook) : Stmt → List Definition
  | s@(.fnDef sig body _) =>
    ⟨sig, body, links, o.after links s⟩ ::
      definitionsIn (links ++ [sig.link links]) ((o.after links s).inside sig.params) body
  | .if_ _ body otherwise _ =>
    definitionsIn links o body ++ otherwise.definitions (declaredIn links body) o
  | .for_ _ body _ | .block body _ => definitionsIn links o body
  | _ => []

def Alternative.definitions (links : List String) (o : Outlook) : Alternative → List Definition
  | .none => []
  | .else_ body => definitionsIn links o body
  | .elif _ body otherwise =>
    definitionsIn links o body ++ otherwise.definitions (declaredIn links body) o

def definitionsIn (links : List String) (o : Outlook) : List Stmt → List Definition
  | [] => []
  | s :: ss => s.definitions links o ++ definitionsIn (s.declared links) (o.after links s) ss

end

/-- The prelude as its callers see it. -/
def PreludeFn.routine (f : PreludeFn) : Routine :=
  ⟨f.name, f.params.map fun p => .prim p.2 0, .prim f.ret 0, f.attributes.isVariadic⟩

/-- What is known before a program. -/
def Outlook.start : Outlook := prelude.reverse.map fun f => (f.name, some f.routine)

def Program.definitions (p : Program) : List Definition :=
  definitionsIn (prelude.map (·.name)) .start p

/-! Trees that use nothing but scalars. -/

/-- Whether a literal of the type makes sense. -/
def Value.fits (t : Ir.Ty) : Value → Bool
  | .int _ => t.width?.isSome
  | .bool _ => t = .bool
  | .float _ => t.isFloat
  | .str _ => false

def UnaryOp.isScalar : UnaryOp → Bool
  | .neg | .not | .bitNot => true
  | .addressOf | .deref => false

mutual

/-- Names of functions stand for values only where they are called. -/
def Expr.isScalar (o : Outlook) : Expr → Bool
  | .literal v ty _ => ty.scalar?.any fun t => v.fits t
  | .ident id => (o.routine? (.ident id)).isNone
  | .paren e _ => e.isScalar o
  | .unary op e _ => op.isScalar && e.isScalar o
  | .binary _ l r _ => l.isScalar o && r.isScalar o
  | .cast e ty _ => ty.scalar?.isSome && e.isScalar o
  | .call callee args _ =>
    ((o.routine? callee).any fun f => f.ret.scalar?.isSome) && argsAreScalar o args
  | .member .. => false

def argsAreScalar (o : Outlook) : List Expr → Bool
  | [] => true
  | e :: es => e.isScalar o && argsAreScalar o es

end

def Expr.isScalarEffect (o : Outlook) : Expr → Bool
  | .call callee args _ => (o.routine? callee).isSome && argsAreScalar o args
  | e => e.isScalar o

mutual

/-- Definitions of functions and structs may be there, whatever is in them. -/
def Stmt.isScalar (links : List String) (o : Outlook) : Stmt → Bool
  | .varDef _ ty init _ => ty.scalar?.isSome && init.all (·.isScalar o)
  | .structDef .. | .fnDef .. | .fnDecl .. => true
  | .varSet _ e _ => e.isScalar o
  | .expr e _ => e.isScalarEffect o
  | .return_ e _ => e.all (·.isScalar o)
  | .if_ cond body otherwise _ =>
    cond.isScalar o && bodyIsScalar links o body && otherwise.isScalar (declaredIn links body) o
  | .block body _ => bodyIsScalar links o body
  | .memberSet .. | .break_ _ | .for_ .. => false

def Alternative.isScalar (links : List String) (o : Outlook) : Alternative → Bool
  | .none => true
  | .else_ body => bodyIsScalar links o body
  | .elif cond body otherwise =>
    cond.isScalar o && bodyIsScalar links o body && otherwise.isScalar (declaredIn links body) o

def bodyIsScalar (links : List String) (o : Outlook) : List Stmt → Bool
  | [] => true
  | s :: ss => s.isScalar links o && bodyIsScalar (s.declared links) (o.after links s) ss

end

/-- A function of scalars that returns a scalar or nothing. -/
def Definition.isScalar (d : Definition) : Bool :=
  d.sig.params.all (·.ty.scalar?.isSome) && (d.sig.ret.isVoid || d.sig.ret.scalar?.isSome) &&
    bodyIsScalar (d.links ++ [d.link]) (d.outlook.inside d.sig.params) d.body

end Frontend
