import Frontend.Scope.Prelude
import Frontend.Token.Spelling
import Frontend.Tree.Inference

/-!
Reading tokens as trees: what readers return and the single-token steps. A reader takes a list of
tokens and gives what it read with the tokens after it. The result carries a bound on how many
tokens are left, so that repeated reading is seen to end.
-/
namespace Frontend

/-- Why tokens cannot be read as a tree. -/
inductive ParseError where
  | invalidTarget
  | unexpectedInExpr (actual : Kind)
  | unexpected (actual expected : Kind)
  | unexpectedAny (actual : Kind) (expected : List Kind)
  | expectedType (actual : Kind)
  | badNumber
  | invalidType (expected actual : Ty)
  | unknownName (name : String)
  | notCallable (ty : Ty)
  | notAStruct (ty : Ty)
  | breach (b : Breach)
  deriving DecidableEq, Repr

namespace ParseError

def code : ParseError → String
  | invalidTarget | unexpectedInExpr _ | unexpected _ _ | unexpectedAny _ _ | expectedType _
  | badNumber => "ERR_UNEXPECTED_TOKEN"
  | invalidType _ _ | notCallable _ | notAStruct _ => "ERR_INVALID_TYPE"
  | unknownName _ => "ERR_INVALID_IDENTIFIER"
  | breach _ => "ERR_INTERNAL"

def message : ParseError → String
  | invalidTarget => "invalid assignment target"
  | unexpectedInExpr actual => "unexpected token " ++ actual.name ++ " in expression"
  | unexpected actual expected =>
    "expected token " ++ expected.name ++ ", but got " ++ actual.name
  | unexpectedAny actual expected =>
    "expected one of [" ++ ", ".intercalate (expected.map Kind.name) ++ "], but got " ++ actual.name
  | expectedType actual => "expected a type, but got " ++ actual.name
  | badNumber => "invalid number literal"
  | invalidType expected actual =>
    "expected type " ++ expected.text ++ ", but got " ++ actual.text
  | unknownName name => name ++ " is not defined"
  | notCallable ty => "type " ++ ty.text ++ " is not callable"
  | notAStruct ty => "type " ++ ty.text ++ " is not a struct"
  | breach b => "internal compiler error: " ++ b.message

/-- An unknown name is reported where it stands, all else at the whole expression. -/
def ofInfer (whole : Span) : InferError → Located ParseError
  | .unknownIdentifier id | .unknownMember id => ⟨id.span, unknownName id.name⟩
  | .notCallable ty => ⟨whole, notCallable ty⟩
  | .notAStruct ty => ⟨whole, notAStruct ty⟩
  | .breach b => ⟨whole, breach b⟩

end ParseError

namespace Grammar

abbrev Parse (α : Type) := Except (Located ParseError) α

/-- Something read, and fewer than `bound` tokens after it. -/
structure Step (bound : Nat) (α : Type) where
  value : α
  rest : List Token
  lt : rest.length < bound

/-- Something read just before `ts`: in one token, or in none. -/
def Step.before (value : α) (ts : List Token) : Step (ts.length + 1) α :=
  ⟨value, ts, Nat.lt_succ_self _⟩

theorem Step.lt_succ (s : Step n α) : s.rest.length < n + 1 := Nat.lt_succ_of_lt s.lt

theorem Step.lt_trans (s : Step n α) (h : n < m) : s.rest.length < m := Nat.lt_trans s.lt h

/-- Where a reader may take nothing, no more is left than before. -/
theorem Step.le (s : Step (n + 1) α) : s.rest.length ≤ n := Nat.le_of_lt_succ s.lt

theorem Step.lt_of_le (s : Step (n + 1) α) (h : n < m) : s.rest.length < m :=
  Nat.lt_of_le_of_lt s.le h

/-- What readers know: where the input ends, and the names declared so far. -/
structure Env where
  eof : Span
  scopes : ScopeTable Unit

def Env.add (env : Env) (name : String) (ty : Ty) : Env :=
  { env with scopes := env.scopes.add (.plain name ty ()) }

def peek : List Token → Kind
  | [] => .eof
  | t :: _ => t.kind

/-- Span of the next token. -/
def Env.here (env : Env) : List Token → Span
  | [] => env.eof
  | t :: _ => t.span

/-- Whether a list of things ended by `k` ends here. -/
def endsAt (k : Kind) (ts : List Token) : Bool := peek ts = .eof || peek ts = k

def accept? (k : Kind) : (ts : List Token) → Option (Step ts.length Token)
  | [] => none
  | t :: ts => if t.kind = k then some (.before t ts) else none

def expect (env : Env) (k : Kind) (ts : List Token) : Parse (Step ts.length Token) :=
  match accept? k ts with
  | some s => .ok s
  | none => .error ⟨env.here ts, .unexpected (peek ts) k⟩

def identifier (env : Env) : (ts : List Token) → Parse (Step ts.length Ident)
  | [] => .error ⟨env.eof, .unexpected .eof .identifier⟩
  | t :: ts =>
    match t.lexeme with
    | .identifier name => .ok (.before ⟨name, t.span⟩ ts)
    | _ => .error ⟨t.span, .unexpected t.kind .identifier⟩

def expectEnd : List Token → Parse Unit
  | [] => .ok ()
  | t :: _ => .error ⟨t.span, .unexpected t.kind .eof⟩

def infer (env : Env) (e : Expr) : Parse Ty :=
  (e.infer env.scopes).mapError (ParseError.ofInfer e.span)

end Grammar

end Frontend
