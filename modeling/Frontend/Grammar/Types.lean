import Frontend.Grammar.Basic

/-!
Types in the source: stars, then a name, a primitive, or `fn` with a return type. The return type is
read whenever the next token can begin one, and is `void` otherwise.
-/
namespace Frontend

def Keyword.base? : Keyword → Option Base
  | .void => some (.prim .void)
  | .bool => some (.prim .bool)
  | .i8 => some (.prim .i8)
  | .i16 => some (.prim .i16)
  | .i32 => some (.prim .i32)
  | .i64 => some (.prim .i64)
  | .f32 => some (.prim .f32)
  | .f64 => some (.prim .f64)
  | .str => some (.prim .string)
  | .any => some (.prim .any)
  | _ => none

theorem Keyword.base?_eq_prim {k : Keyword} {base : Base} (h : k.base? = some base) :
    ∃ p, base = .prim p := by
  cases k <;> cases h <;> exact ⟨_, rfl⟩

namespace Grammar

def startsType : Kind → Bool
  | .punct .star | .identifier => true
  | k => k.namesType

/-- A type and the span of its last token. -/
def typeExpr (eof : Span) : (ts : List Token) → Parse (Step ts.length (Ty × Span))
  | [] => .error ⟨eof, .expectedType .eof⟩
  | t :: ts =>
    let refused : Located ParseError := ⟨t.span, .expectedType t.kind⟩
    match t.lexeme with
    | .punct .star => do
      let r ← typeExpr eof ts
      return ⟨(r.value.1.addLevels 1, r.value.2), r.rest, r.lt_succ⟩
    | .identifier name => .ok (.before (.inst name 0, t.span) ts)
    | .keyword .fn =>
      if startsType (peek ts) then do
        let r ← typeExpr eof ts
        return ⟨(.fn r.value.1 0, r.value.2), r.rest, r.lt_succ⟩
      else .ok (.before (.fn .void 0, t.span) ts)
    | .keyword k =>
      match k.base? with
      | some base =>
        match Ty.primitive? base with
        | some ty => .ok (.before (ty, t.span) ts)
        | none => .error ⟨t.span, .breach (.notPrimitive base)⟩
      | none => .error refused
    | _ => .error refused

/-- The return type of a function that is being defined. -/
def returnType (eof : Span) (ts : List Token) : Parse (Step (ts.length + 1) Ty) :=
  if startsType (peek ts) then do
    let r ← typeExpr eof ts
    return ⟨r.value.1, r.rest, r.lt_succ⟩
  else .ok (.before .void ts)

end Grammar

end Frontend
