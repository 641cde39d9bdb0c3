import Frontend.Decimal.Numeral
import Frontend.Grammar.Types
import Frontend.Token.Escape

/-!
Expressions. From loosest to tightest: binary operators in nine levels, all grouping to the left;
`!`, `~` and `-`; casts with `as`; `@` and `*`; calls and members; names, literals and parentheses.
An expression whose type is a function is called even if no arguments follow it.
-/
namespace Frontend

namespace Grammar

/-- The level of an infix operator: the higher, the tighter. -/
def infixLevel? : Kind → Option Nat
  | .punct p =>
    match p with
    | .pipePipe => some 1
    | .ampAmp => some 2
    | .pipe | .caret => some 3
    | .amp => some 4
    | .eqEq | .bangEq => some 5
    | .less | .lessEq | .greater | .greaterEq => some 6
    | .shl | .shr => some 7
    | .plus | .minus => some 8
    | .star | .slash | .percent => some 9
    | _ => none
  | _ => none

def binaryOp? : Kind → Option BinaryOp
  | .punct p =>
    match p with
    | .pipePipe => some .or
    | .ampAmp => some .and
    | .pipe => some .bitOr
    | .caret => some .bitXor
    | .amp => some .bitAnd
    | .eqEq => some .eq
    | .bangEq => some .ne
    | .less => some .lt
    | .lessEq => some .le
    | .greater => some .gt
    | .greaterEq => some .ge
    | .shl => some .shl
    | .shr => some .shr
    | .plus => some .add
    | .minus => some .sub
    | .star => some .mul
    | .slash => some .div
    | .percent => some .rem
    | _ => none
  | _ => none

def signOp? : Kind → Option UnaryOp
  | .punct .bang => some .not
  | .punct .tilde => some .bitNot
  | .punct .minus => some .neg
  | _ => none

def addressOp? : Kind → Option UnaryOp
  | .punct .at => some .addressOf
  | .punct .star => some .deref
  | _ => none

/-- The operators at the front of the tokens, outermost first, with their spans. -/
def operators (op? : Kind → Option UnaryOp) :
    (ts : List Token) → Step (ts.length + 1) (List (UnaryOp × Span))
  | [] => .before [] []
  | t :: ts =>
    match op? t.kind with
    | some op =>
      let r := operators op? ts
      ⟨(op, t.span) :: r.value, r.rest, r.lt_succ⟩
    | none => .before [] (t :: ts)

def applyOperators (ops : List (UnaryOp × Span)) (e : Expr) : Expr :=
  ops.foldr (fun (op, s) e => .unary op e (s.through e.span)) e

/-- A point makes a number a float. An integer has to fit in a signed 64-bit word. -/
def numberLiteral? (text : String) : Option (Value × Ty) :=
  let cs := text.toList
  if cs.contains '.' then
    (Decimal.readDecimal? cs).map fun d => (.float (d.toFloat false), .f32)
  else
    let n : Int := Decimal.naturalOf cs
    if n ≤ Decimal.greatestWord then some (.int n, .i32) else none

/-- Whether the expression stands for a function that no arguments follow. -/
def isFunction (env : Env) (e : Expr) : Bool :=
  match e.infer env.scopes with
  | .ok ty => ty.isFunction
  | .error _ => false

/-- The span of what a suffix stands after. -/
def operandSpan? : Expr → Option Span
  | .call callee _ _ => some callee.span
  | .member object _ _ _ => some object.span
  | _ => none

/-- An expression with a suffix, from what the suffix stands after to the last token of the
suffix. -/
def suffixed (made : Span → Expr) (last : Span) : Parse Expr :=
  match operandSpan? (made last) with
  | some s => .ok (made (s.through last))
  | none => .error ⟨last, .breach .noOperand⟩

@[simp] theorem suffixed_call (e : Expr) (args : List Expr) (last : Span) :
    suffixed (.call e args) last = .ok (.call e args (e.span.through last)) := rfl

@[simp] theorem suffixed_member (e : Expr) (field : Ident) (arrow : Bool) (last : Span) :
    suffixed (.member e field arrow) last = .ok (.member e field arrow (e.span.through last)) := rfl

def castTail (eof : Span) (e : Expr) (ts : List Token) : Parse (Step (ts.length + 1) Expr) :=
  match accept? (.keyword .as_) ts with
  | none => .ok (.before e ts)
  | some mark => do
    let ty ← typeExpr eof mark.rest
    let r ← castTail eof (.cast e ty.value.1 (e.span.through ty.value.2)) ty.rest
    return ⟨r.value, r.rest, r.lt_of_le (Nat.lt_succ_of_lt (ty.lt_trans mark.lt))⟩
termination_by ts.length
decreasing_by have := mark.lt; have := ty.lt; omega

mutual

/-- An expression whose binary operators have at least the given level. -/
def exprAt (env : Env) (level : Nat) (ts : List Token) : Parse (Step ts.length Expr) := do
  let lhs ← operand env ts
  let r ← binaryTail env level lhs.value lhs.rest
  return ⟨r.value, r.rest, r.lt_of_le lhs.lt⟩
termination_by 4 * ts.length + 2
decreasing_by
  · omega
  · have := lhs.lt; omega

def binaryTail (env : Env) (level : Nat) (lhs : Expr) (ts : List Token) :
    Parse (Step (ts.length + 1) Expr) :=
  match ts with
  | [] => .ok (.before lhs [])
  | t :: ts =>
    match infixLevel? t.kind with
    | none => .ok (.before lhs (t :: ts))
    | some tier =>
      if level ≤ tier then do
        let rhs ← exprAt env (tier + 1) ts
        match binaryOp? t.kind with
        | none => .error ⟨t.span, .breach .notInfix⟩
        | some op =>
          let e := .binary op lhs rhs.value (lhs.span.through rhs.value.span)
          let r ← binaryTail env level e rhs.rest
          return ⟨r.value, r.rest, r.lt_of_le (Nat.lt_succ_of_lt rhs.lt_succ)⟩
      else .ok (.before lhs (t :: ts))
termination_by 4 * ts.length
decreasing_by
  · simp; omega
  · have := rhs.lt; simp; omega

/-- Everything that binds tighter than a binary operator. -/
def operand (env : Env) (ts : List Token) : Parse (Step ts.length Expr) :=
  match operators signOp? ts with
  | ⟨signs, ts₁, h₁⟩ =>
    match operators addressOp? ts₁ with
    | ⟨marks, ts₂, h₂⟩ => do
      let head ← primary env ts₂
      let e ← postfixTail env head.value head.rest
      let r ← castTail env.eof (applyOperators marks e.value) e.rest
      have h := Nat.le_trans (Nat.le_of_lt_succ h₂) (Nat.le_of_lt_succ h₁)
      return ⟨applyOperators signs r.value, r.rest,
        r.lt_of_le (e.lt_of_le (Nat.lt_of_lt_of_le head.lt h))⟩
termination_by 4 * ts.length + 1
decreasing_by
  · omega
  · have := head.lt; omega

def primary (env : Env) (ts : List Token) : Parse (Step ts.length Expr) :=
  match ts with
  | [] => .error ⟨env.eof, .unexpectedInExpr .eof⟩
  | t :: ts =>
    match t.lexeme with
    | .identifier name => .ok (.before (.ident ⟨name, t.span⟩) ts)
    | .number text =>
      match numberLiteral? text with
      | some (v, ty) => .ok (.before (.literal v ty t.span) ts)
      | none => .error ⟨t.span, .badNumber⟩
    | .string raw =>
      .ok (.before (.literal (.str (unescaped raw)) .string t.span) ts)
    | .keyword .true_ => .ok (.before (.literal (.bool true) .bool t.span) ts)
    | .keyword .false_ => .ok (.before (.literal (.bool false) .bool t.span) ts)
    | .punct .lParen => do
      let e ← exprAt env 0 ts
      let close ← expect env (.punct .rParen) e.rest
      return ⟨.paren e.value (t.span.through close.value.span), close.rest,
        Nat.lt_succ_of_lt (close.lt_trans e.lt)⟩
    | _ => .error ⟨t.span, .unexpectedInExpr t.kind⟩
termination_by 4 * ts.length
decreasing_by simp; omega

/-- Argument lists and members after an expression. -/
def postfixTail (env : Env) (e : Expr) (ts : List Token) : Parse (Step (ts.length + 1) Expr) :=
  match accept? (.punct .lParen) ts with
  | some mark => do
    let args ← arguments env mark.rest
    let close ← expect env (.punct .rParen) args.rest
    let e' ← suffixed (.call e args.value) close.value.span
    let r ← postfixTail env e' close.rest
    return ⟨r.value, r.rest,
      r.lt_of_le (Nat.lt_succ_of_lt (close.lt_trans (args.lt_of_le mark.lt)))⟩
  | none =>
    match (accept? (.punct .dot) ts).or (accept? (.punct .arrow) ts) with
    | some mark => do
      let field ← identifier env mark.rest
      let arrow := decide (mark.value.kind = .punct .arrow)
      let e' ← suffixed (.member e field.value arrow) field.value.span
      let r ← postfixTail env e' field.rest
      return ⟨r.value, r.rest, r.lt_of_le (Nat.lt_succ_of_lt (field.lt_trans mark.lt))⟩
    | none =>
      .ok (.before (if isFunction env e then .call e [] e.span else e) ts)
termination_by 4 * ts.length
decreasing_by
  · have := mark.lt; omega
  · have := mark.lt; have := args.lt; have := close.lt; omega
  · have := mark.lt; have := field.lt; omega

/-- Expressions up to a closing parenthesis, with a comma after each but perhaps the last. -/
def arguments (env : Env) (ts : List Token) : Parse (Step (ts.length + 1) (List Expr)) :=
  if endsAt (.punct .rParen) ts then .ok (.before [] ts)
  else do
    let e ← exprAt env 0 ts
    match accept? (.punct .comma) e.rest with
    | some comma =>
      let r ← arguments env comma.rest
      return ⟨e.value :: r.value, r.rest, r.lt_of_le (Nat.lt_succ_of_lt (comma.lt_trans e.lt))⟩
    | none =>
      if peek e.rest = .punct .rParen then
        .ok ⟨[e.value], e.rest, e.lt_succ⟩
      else
        .error ⟨env.here e.rest,
          .unexpectedAny (peek e.rest) [.punct .comma, .punct .rParen]⟩
termination_by 4 * ts.length + 3
decreasing_by
  · omega
  · have := e.lt; have := comma.lt; omega

end

def expr (env : Env) (ts : List Token) : Parse (Step ts.length Expr) := exprAt env 0 ts

end Grammar

/-- The tokens as one expression, with nothing but the prelude declared. -/
def Expr.ofTokens (eof : Span) (ts : List Token) : Except (Located ParseError) Expr := do
  let e ← Grammar.expr ⟨eof, .start⟩ ts
  Grammar.expectEnd e.rest
  return e.value

end Frontend
