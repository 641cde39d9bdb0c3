import Frontend.Grammar.Expressions
import Frontend.Tree.Coercion

/-!
Statements. Each is read with the names declared before it and gives the names declared after it:
a variable is declared once its definition is complete, a function before its parameters, a struct
after its members. A definition without a type takes the type of its value.
-/
namespace Frontend

namespace Grammar

abbrev Names := ScopeTable Unit

def leave (s : Span) (names : Names) : Parse Names :=
  match names.leave? with
  | some outer => .ok outer
  | none => .error ⟨s, .breach .rootScopeClosed⟩

def param (env : Env) (ts : List Token) : Parse (Step ts.length Param) := do
  let name ← identifier env ts
  let colon ← expect env (.punct .colon) name.rest
  let ty ← typeExpr env.eof colon.rest
  return ⟨⟨name.value, ty.value.1⟩, ty.rest, ty.lt_trans (colon.lt_trans name.lt)⟩

/-- Members of a struct, a semicolon after each, up to the closing brace. -/
def members (env : Env) (ts : List Token) : Parse (Step (ts.length + 1) (List Param × Names)) :=
  if endsAt (.punct .rBrace) ts then .ok (.before ([], env.scopes) ts)
  else do
    let p ← param env ts
    let semi ← expect env (.punct .semicolon) p.rest
    let r ← members (env.add p.value.name.name p.value.ty) semi.rest
    return ⟨(p.value :: r.value.1, r.value.2), r.rest,
      r.lt_of_le (Nat.lt_succ_of_lt (semi.lt_trans p.lt))⟩
termination_by ts.length
decreasing_by have := p.lt; have := semi.lt; omega

/-- Parameters up to the closing parenthesis, and whether more arguments may follow them. -/
def params (env : Env) (ts : List Token) :
    Parse (Step (ts.length + 1) (List Param × Bool × Names)) :=
  if endsAt (.punct .rParen) ts then .ok (.before ([], false, env.scopes) ts)
  else
    match accept? (.punct .variadic) ts with
    | some dots => .ok ⟨([], true, env.scopes), dots.rest, dots.lt_succ⟩
    | none => do
      let p ← param env ts
      let env := env.add p.value.name.name p.value.ty
      match accept? (.punct .comma) p.rest with
      | none => return ⟨([p.value], false, env.scopes), p.rest, p.lt_succ⟩
      | some comma =>
        let r ← params env comma.rest
        return ⟨(p.value :: r.value.1, r.value.2), r.rest,
          r.lt_of_le (Nat.lt_succ_of_lt (comma.lt_trans p.lt))⟩
termination_by ts.length
decreasing_by have := p.lt; have := comma.lt; omega

/-- The parameter list of a function may be left out. -/
def paramList (env : Env) (ts : List Token) :
    Parse (Step (ts.length + 1) (List Param × Bool × Names)) :=
  match accept? (.punct .lParen) ts with
  | none => .ok (.before ([], false, env.scopes) ts)
  | some mark => do
    let r ← params env mark.rest
    let close ← expect env (.punct .rParen) r.rest
    return ⟨r.value, close.rest, Nat.lt_succ_of_lt (close.lt_trans (r.lt_of_le mark.lt))⟩

/-- The rest of a struct definition, after `struct`. -/
def structDef (env : Env) (name : Ident) (ts : List Token) :
    Parse (Step ts.length (Stmt × Names)) := do
  let mark ← expect env (.punct .lBrace) ts
  let scope := env.scopes.size
  let inside := { env with scopes := env.scopes.enterMarked (membersMarker name.name) () }
  let ms ← members inside mark.rest
  let close ← expect env (.punct .rBrace) ms.rest
  let names ← leave close.value.span ms.value.2
  let names := names.add ⟨name.name, .struct name.name 0, .none, some scope, ()⟩
  return ⟨(.structDef name ms.value.1 (name.span.through close.value.span), names), close.rest,
    close.lt_trans (ms.lt_of_le mark.lt)⟩

/-- The rest of a variable definition, after the colon. -/
def varDef (env : Env) (name : Ident) (ts : List Token) :
    Parse (Step ts.length (Stmt × Names)) := do
  let ty ← typeExpr env.eof ts
  let init ← initializer ty.rest
  let semi ← expect env (.punct .semicolon) init.rest
  return ⟨(.varDef name ty.value.1 init.value (name.span.through semi.value.span),
      (env.add name.name ty.value.1).scopes), semi.rest, semi.lt_trans (init.lt_of_le ty.lt)⟩
where
  initializer (ts : List Token) : Parse (Step (ts.length + 1) (Option Expr)) :=
    match accept? (.punct .assign) ts with
    | none => .ok (.before none ts)
    | some mark => do
      let e ← expr env mark.rest
      return ⟨some e.value, e.rest, Nat.lt_succ_of_lt (e.lt_trans mark.lt)⟩

/-- The rest of a definition that takes the type of its value, after `:=`. -/
def quickDef (env : Env) (name : Ident) (ts : List Token) :
    Parse (Step ts.length (Stmt × Names)) := do
  let e ← expr env ts
  let ty ← infer env e.value
  let semi ← expect env (.punct .semicolon) e.rest
  return ⟨(.varDef name ty (some e.value) (name.span.through semi.value.span),
      (env.add name.name ty).scopes), semi.rest, semi.lt_trans e.lt⟩

/-- The value as the variable takes it: a number literal gets the variable's type. -/
def assigned (env : Env) (target : Ident) (value : Expr) : Parse Expr :=
  match env.scopes.find? target.name with
  | none => .error ⟨target.span, .unknownName target.name⟩
  | some b => do
    let actual ← infer env value
    let coerced := if b.ty.compatible actual then value.coerce? b.ty else none
    match coerced with
    | some value => return value
    | none =>
      if actual = b.ty then return value
      else .error ⟨value.span, .invalidType b.ty actual⟩

/-- The assignment to a target, less its span. -/
def assignment (env : Env) (target value : Expr) : Parse (Span → Stmt) :=
  match target with
  | .ident id => do return .varSet id (← assigned env id value)
  | .member .. => .ok (.memberSet target value)
  | _ => .error ⟨target.span, .invalidTarget⟩

/-- An expression, or an assignment if `=` follows it. -/
def exprStmt (env : Env) (ts : List Token) : Parse (Step ts.length Stmt) := do
  let target ← expr env ts
  let start := target.value.span
  match accept? (.punct .assign) target.rest with
  | none =>
    let semi ← expect env (.punct .semicolon) target.rest
    return ⟨.expr target.value (start.through semi.value.span), semi.rest,
      semi.lt_trans target.lt⟩
  | some mark =>
    let value ← expr env mark.rest
    let make ← assignment env target.value value.value
    let semi ← expect env (.punct .semicolon) value.rest
    return ⟨make (start.through semi.value.span), semi.rest,
      semi.lt_trans (value.lt_trans (mark.lt_trans target.lt))⟩

/-- The rest of a return, after `return`. -/
def returnStmt (env : Env) (start : Span) (ts : List Token) : Parse (Step ts.length Stmt) :=
  match accept? (.punct .semicolon) ts with
  | some semi => .ok ⟨.return_ none (start.through semi.value.span), semi.rest, semi.lt⟩
  | none => do
    let e ← expr env ts
    let semi ← expect env (.punct .semicolon) e.rest
    return ⟨.return_ (some e.value) (start.through semi.value.span), semi.rest,
      semi.lt_trans e.lt⟩

mutual

def stmt (env : Env) (ts : List Token) : Parse (Step ts.length (Stmt × Names)) :=
  match ts with
  | ⟨.identifier name, s⟩ :: ⟨.punct .colon, _⟩ :: ⟨.keyword .struct, _⟩ :: ts => do
    let r ← structDef env ⟨name, s⟩ ts
    return ⟨r.value, r.rest, Nat.lt_succ_of_lt (Nat.lt_succ_of_lt r.lt_succ)⟩
  | ⟨.identifier name, s⟩ :: ⟨.punct .colon, _⟩ :: ⟨.keyword .fn, _⟩ :: ts => do
    let r ← fnDef env ⟨name, s⟩ ts
    return ⟨r.value, r.rest, Nat.lt_succ_of_lt (Nat.lt_succ_of_lt r.lt_succ)⟩
  | ⟨.identifier name, s⟩ :: ⟨.punct .colon, _⟩ :: ts => do
    let r ← varDef env ⟨name, s⟩ ts
    return ⟨r.value, r.rest, Nat.lt_succ_of_lt r.lt_succ⟩
  | ⟨.identifier name, s⟩ :: ⟨.punct .quickAssign, _⟩ :: ts => do
    let r ← quickDef env ⟨name, s⟩ ts
    return ⟨r.value, r.rest, Nat.lt_succ_of_lt r.lt_succ⟩
  | ⟨.keyword .return_, s⟩ :: ts => do
    let r ← returnStmt env s ts
    return ⟨(r.value, env.scopes), r.rest, r.lt_succ⟩
  | ⟨.keyword .break_, s⟩ :: ts => do
    let semi ← expect env (.punct .semicolon) ts
    return ⟨(.break_ (s.through semi.value.span), env.scopes), semi.rest, semi.lt_succ⟩
  | ⟨.keyword .for_, s⟩ :: ts => do
    let cond ← expr env ts
    let body ← block env cond.rest
    return ⟨(.for_ cond.value body.value.1 (s.through body.value.2.1), body.value.2.2), body.rest,
      Nat.lt_succ_of_lt (body.lt_trans cond.lt)⟩
  | ⟨.keyword .if_, s⟩ :: ts => do
    let cond ← expr env ts
    let body ← block env cond.rest
    let alt ← alternative { env with scopes := body.value.2.2 } body.value.2.1 body.rest
    return ⟨(.if_ cond.value body.value.1 alt.value.1 (s.through alt.value.2.1), alt.value.2.2),
      alt.rest, alt.lt_of_le (Nat.lt_succ_of_lt (body.lt_trans cond.lt))⟩
  | ⟨.punct .lBrace, s⟩ :: ts => do
    let body ← blockTail env ts
    return ⟨(.block body.value.1 (s.through body.value.2.1), body.value.2.2), body.rest,
      body.lt_succ⟩
  | ts => do
    let r ← exprStmt env ts
    return ⟨(r.value, env.scopes), r.rest, r.lt⟩
termination_by 3 * ts.length
decreasing_by
  all_goals simp only [List.length_cons]
  · omega
  · have := cond.lt; omega
  · have := cond.lt; omega
  · have := cond.lt; have := body.lt; omega
  · omega

/-- The rest of a function definition, after `fn`. -/
def fnDef (env : Env) (name : Ident) (ts : List Token) :
    Parse (Step ts.length (Stmt × Names)) := do
  let ret ← returnType env.eof ts
  let env := env.add name.name (.fn ret.value 0)
  let ps ← paramList { env with scopes := env.scopes.enter } ret.rest
  let sig : Signature := ⟨name, ret.value, ps.value.1, ps.value.2.1⟩
  let env := { env with scopes := ps.value.2.2 }
  match accept? (.punct .semicolon) ps.rest with
  | some semi =>
    let names ← leave semi.value.span env.scopes
    return ⟨(.fnDecl sig (name.span.through semi.value.span), names), semi.rest,
      Nat.lt_of_lt_of_le (Nat.lt_of_lt_of_le semi.lt ps.le) ret.le⟩
  | none =>
    let mark ← expect env (.punct .lBrace) ps.rest
    let body ← stmts env mark.rest
    let close ← expect env (.punct .rBrace) body.rest
    let names ← leave close.value.span body.value.2
    return ⟨(.fnDef sig body.value.1 (name.span.through close.value.span), names), close.rest,
      close.lt_trans (body.lt_of_le (Nat.lt_of_lt_of_le (Nat.lt_of_lt_of_le mark.lt ps.le) ret.le))⟩
termination_by 3 * ts.length
decreasing_by have := ret.lt; have := ps.lt; have := mark.lt; omega

/-- What follows the body of an `if`, with the span where the whole statement ends. -/
def alternative (env : Env) (last : Span) (ts : List Token) :
    Parse (Step (ts.length + 1) (Alternative × Span × Names)) :=
  match ts with
  | ⟨.keyword .elif, _⟩ :: ts => do
    let cond ← expr env ts
    let body ← block env cond.rest
    let alt ← alternative { env with scopes := body.value.2.2 } body.value.2.1 body.rest
    return ⟨(.elif cond.value body.value.1 alt.value.1, alt.value.2), alt.rest,
      alt.lt_of_le (Nat.lt_succ_of_lt (Nat.lt_succ_of_lt (body.lt_trans cond.lt)))⟩
  | ⟨.keyword .else_, _⟩ :: ts => do
    let body ← block env ts
    return ⟨(.else_ body.value.1, body.value.2), body.rest, Nat.lt_succ_of_lt body.lt_succ⟩
  | ts => .ok (.before (.none, last, env.scopes) ts)
termination_by 3 * ts.length
decreasing_by
  all_goals simp only [List.length_cons]
  · have := cond.lt; omega
  · have := cond.lt; have := body.lt; omega
  · omega

/-- Statements in braces, in a scope of their own, with the span of the closing brace. -/
def block (env : Env) (ts : List Token) : Parse (Step ts.length (List Stmt × Span × Names)) := do
  let mark ← expect env (.punct .lBrace) ts
  let r ← blockTail env mark.rest
  return ⟨r.value, r.rest, r.lt_trans mark.lt⟩
termination_by 3 * ts.length
decreasing_by have := mark.lt; omega

def blockTail (env : Env) (ts : List Token) :
    Parse (Step ts.length (List Stmt × Span × Names)) := do
  let body ← stmts { env with scopes := env.scopes.enter } ts
  let close ← expect env (.punct .rBrace) body.rest
  let names ← leave close.value.span body.value.2
  return ⟨(body.value.1, close.value.span, names), close.rest,
    Nat.lt_of_lt_of_le close.lt body.le⟩
termination_by 3 * ts.length + 2
decreasing_by omega

/-- Statements up to a closing brace. -/
def stmts (env : Env) (ts : List Token) : Parse (Step (ts.length + 1) (List Stmt × Names)) :=
  if endsAt (.punct .rBrace) ts then .ok (.before ([], env.scopes) ts)
  else do
    let s ← stmt env ts
    let r ← stmts { env with scopes := s.value.2 } s.rest
    return ⟨(s.value.1 :: r.value.1, r.value.2), r.rest, r.lt_of_le s.lt_succ⟩
termination_by 3 * ts.length + 1
decreasing_by
  · omega
  · have := s.lt; omega

end

/-- Statements to the end of input. At the top level each begins with a name. -/
def program (env : Env) (ts : List Token) : Parse Program :=
  match ts with
  | [] => .ok []
  | t :: ts =>
    if t.kind = .identifier then do
      let s ← stmt env (t :: ts)
      let r ← program { env with scopes := s.value.2 } s.rest
      return s.value.1 :: r
    else .error ⟨t.span, .unexpected t.kind .identifier⟩
termination_by ts.length
decreasing_by exact s.lt

end Grammar

/-- The tokens as a program, with nothing but the prelude declared. -/
def Program.ofTokens (eof : Span) (ts : List Token) : Except (Located ParseError) Program :=
  Grammar.program ⟨eof, .start⟩ ts

end Frontend
