import Frontend.Grammar.Statements
import Frontend.Proofs.Relocation

/-!
Reading tokens commutes with moving their spans, for every function that keeps stretches: the spans
of a tree are spans of tokens and stretches of them, and no reader asks where a token stands.
-/
namespace Frontend

def Token.relocate (f : Span → Span) (t : Token) : Token := ⟨t.lexeme, f t.span⟩

@[simp] theorem Token.kind_relocate (f : Span → Span) (t : Token) : (t.relocate f).kind = t.kind :=
  rfl

variable {f : Span → Span}

/-- Moved tokens begin as the tokens do. -/
theorem Token.map_relocate_eq_cons {ts us : List Token} {l : Lexeme} {s : Span}
    (h : ts.map (Token.relocate f) = ⟨l, s⟩ :: us) :
    ∃ s₀ ts₀, ts = ⟨l, s₀⟩ :: ts₀ ∧ ts₀.map (Token.relocate f) = us := by
  obtain ⟨t, ts₀, rfl, ht, hus⟩ := List.map_eq_cons_iff.mp h
  obtain ⟨rfl, -⟩ := Token.mk.inj ht
  exact ⟨t.span, ts₀, rfl, hus⟩

/-- Nor do they begin as the tokens do not. -/
theorem Token.map_relocate_ne_cons {ts : List Token} {l : Lexeme}
    (h : ∀ s us, ts = ⟨l, s⟩ :: us → False) (s : Span) (us : List Token)
    (heq : ts.map (Token.relocate f) = ⟨l, s⟩ :: us) : False := by
  obtain ⟨s', us', rfl, -⟩ := Token.map_relocate_eq_cons heq
  exact h s' us' rfl

theorem Token.map_relocate_ne_name {ts : List Token} {l : Lexeme}
    (h : ∀ name s s₁ us, ts = ⟨.identifier name, s⟩ :: ⟨l, s₁⟩ :: us → False) (name : String)
    (s s₁ : Span) (us : List Token)
    (heq : ts.map (Token.relocate f) = ⟨.identifier name, s⟩ :: ⟨l, s₁⟩ :: us) : False := by
  obtain ⟨s', us', rfl, h₁⟩ := Token.map_relocate_eq_cons heq
  obtain ⟨s₁', us₁', rfl, -⟩ := Token.map_relocate_eq_cons h₁
  exact h name s' s₁' us₁' rfl

/-- A function that moves a stretch to the stretch of what it moves. -/
def KeepsStretches (f : Span → Span) : Prop := ∀ s t, f (s.through t) = (f s).through (f t)

namespace Grammar

def Env.relocate (f : Span → Span) (env : Env) : Env := { env with eof := f env.eof }

/-- Readings that succeed with related results, or fail with one error, moved. -/
inductive Alike (f : Span → Span) (R : α → β → Prop) : Parse α → Parse β → Prop where
  | ok {a : α} {b : β} : R a b → Alike f R (.ok a) (.ok b)
  | error (e : Located ParseError) : Alike f R (.error e) (.error (e.relocate f))

/-- The same was read but for spans, and the same tokens are left. -/
structure Moved (f : Span → Span) (g : α → β) {n m : Nat} (a : Step n α) (b : Step m β) : Prop where
  value : b.value = g a.value
  rest : b.rest = a.rest.map (Token.relocate f)

abbrev AlikeSteps (f : Span → Span) (g : α → β) {n m : Nat} :
    Parse (Step n α) → Parse (Step m β) → Prop :=
  Alike f (Moved f g)

variable {f : Span → Span}

variable {x : Parse α} {x' : Parse β}

theorem Alike.bind {R : α → β → Prop} {S : γ → δ → Prop} {k : α → Parse γ} {k' : β → Parse δ}
    (h : Alike f R x x') (hk : ∀ a b, R a b → Alike f S (k a) (k' b)) :
    Alike f S (x >>= k) (x' >>= k') := by
  cases h with
  | error e => exact .error e
  | ok hab => exact hk _ _ hab

theorem Alike.step {g : α → β} {S : γ → δ → Prop} {n m : Nat} {x : Parse (Step n α)}
    {x' : Parse (Step m β)} {k : Step n α → Parse γ} {k' : Step m β → Parse δ}
    (h : AlikeSteps f g x x')
    (hk : ∀ (a : Step n α) lt, Alike f S (k a)
      (k' ⟨g a.value, a.rest.map (Token.relocate f), lt⟩)) :
    Alike f S (x >>= k) (x' >>= k') := by
  refine h.bind fun a b hab => ?_
  obtain ⟨v, rest, lt⟩ := b
  obtain ⟨hv, hrest⟩ := hab
  dsimp only at hv hrest
  subst hv hrest
  exact hk a lt

theorem Alike.of_relocated {g : α → β} (h : x' = relocated f g x) :
    Alike f (fun a b => b = g a) x x' := by
  subst h
  cases x with
  | error e => exact .error e
  | ok a => exact .ok rfl

theorem Alike.relocated_eq {g : α → β} (h : Alike f (fun a b => b = g a) x x') :
    x' = relocated f g x := by
  cases h with
  | error e => rfl
  | ok h => exact congrArg Except.ok h

@[simp] theorem peek_relocate (ts : List Token) : peek (ts.map (Token.relocate f)) = peek ts := by
  cases ts <;> rfl

@[simp] theorem here_relocate (env : Env) (ts : List Token) :
    (env.relocate f).here (ts.map (Token.relocate f)) = f (env.here ts) := by
  cases ts <;> rfl

@[simp] theorem endsAt_relocate (k : Kind) (ts : List Token) :
    endsAt k (ts.map (Token.relocate f)) = endsAt k ts := by
  rw [endsAt, endsAt, peek_relocate]

/-- A token is taken in both readings or in none. -/
theorem accept?_relocate (f : Span → Span) (k : Kind) (ts : List Token) :
    (accept? k ts = none ∧ accept? k (ts.map (Token.relocate f)) = none) ∨
      ∃ mark lt, accept? k ts = some mark ∧ accept? k (ts.map (Token.relocate f)) =
        some ⟨mark.value.relocate f, mark.rest.map (Token.relocate f), lt⟩ := by
  cases ts with
  | nil => exact .inl ⟨rfl, rfl⟩
  | cons t ts =>
    by_cases h : t.kind = k
    · exact .inr ⟨.before t ts, by simp [Step.before], if_pos h, if_pos h⟩
    · exact .inl ⟨if_neg h, if_neg h⟩

theorem accept?_or_relocate (f : Span → Span) (k k' : Kind) (ts : List Token) :
    ((accept? k ts).or (accept? k' ts) = none ∧
      (accept? k (ts.map (Token.relocate f))).or (accept? k' (ts.map (Token.relocate f))) = none) ∨
      ∃ mark lt, (accept? k ts).or (accept? k' ts) = some mark ∧
        (accept? k (ts.map (Token.relocate f))).or (accept? k' (ts.map (Token.relocate f))) =
          some ⟨mark.value.relocate f, mark.rest.map (Token.relocate f), lt⟩ := by
  obtain ⟨h, h'⟩ | ⟨mark, lt, h, h'⟩ := accept?_relocate f k ts
  · rw [h, h', Option.none_or, Option.none_or]
    exact accept?_relocate f k' ts
  · rw [h, h']
    exact .inr ⟨mark, lt, rfl, rfl⟩

theorem expect_relocate (env : Env) (k : Kind) (ts : List Token) :
    AlikeSteps f (Token.relocate f) (expect env k ts)
      (expect (env.relocate f) k (ts.map (Token.relocate f))) := by
  rw [expect, expect]
  obtain ⟨h, h'⟩ | ⟨mark, lt, h, h'⟩ := accept?_relocate f k ts
  · rw [h, h', peek_relocate, here_relocate]
    exact .error _
  · rw [h, h']
    exact .ok ⟨rfl, rfl⟩

theorem identifier_relocate (env : Env) (ts : List Token) :
    AlikeSteps f (Ident.relocate f) (identifier env ts)
      (identifier (env.relocate f) (ts.map (Token.relocate f))) := by
  cases ts with
  | nil => exact .error _
  | cons t ts =>
    obtain ⟨lexeme, s⟩ := t
    cases lexeme with
    | identifier name => exact .ok ⟨rfl, rfl⟩
    | _ => exact .error _

theorem infer_relocate (env : Env) (e : Expr) :
    infer (env.relocate f) (e.relocate f) = relocated f id (infer env e) := by
  rw [infer, infer, Expr.span_relocate]
  simp only [Env.relocate, Expr.infer_relocate]
  cases e.infer env.scopes with
  | ok ty => rfl
  | error err => exact congrArg Except.error (ParseError.ofInfer_relocate f e.span err)

theorem isFunction_relocate (env : Env) (e : Expr) :
    isFunction (env.relocate f) (e.relocate f) = isFunction env e := by
  simp only [isFunction, Env.relocate, Expr.infer_relocate]
  cases e.infer env.scopes <;> rfl

theorem operators_relocate (op? : Kind → Option UnaryOp) (ts : List Token) :
    Moved f (List.map (Prod.map id f)) (operators op? ts)
      (operators op? (ts.map (Token.relocate f))) := by
  induction ts with
  | nil => exact ⟨rfl, rfl⟩
  | cons t ts ih =>
    cases h : op? t.kind with
    | none =>
      obtain ⟨hv, hrest⟩ := operators_none (t :: ts) h
      obtain ⟨hv', hrest'⟩ := operators_none ((t :: ts).map (Token.relocate f)) h
      exact ⟨by rw [hv, hv']; rfl, by rw [hrest, hrest']⟩
    | some op =>
      obtain ⟨hv, hrest⟩ := operators_some h ts
      obtain ⟨hv', hrest'⟩ :=
        operators_some (t := t.relocate f) h (ts.map (Token.relocate f))
      refine ⟨?_, ?_⟩
      · rw [List.map_cons, hv', hv, ih.value]
        rfl
      · rw [List.map_cons, hrest', hrest, ih.rest]

/-- A type, with the span of its last token. -/
theorem typeExpr_relocate (eof : Span) (ts : List Token) :
    AlikeSteps f (Prod.map id f) (typeExpr eof ts)
      (typeExpr (f eof) (ts.map (Token.relocate f))) := by
  induction ts with
  | nil => exact .error _
  | cons t ts ih =>
    obtain ⟨lexeme, s⟩ := t
    change AlikeSteps f _ (typeExpr eof (⟨lexeme, s⟩ :: ts))
      (typeExpr (f eof) (⟨lexeme, f s⟩ :: ts.map (Token.relocate f)))
    rw [typeExpr, typeExpr]
    cases lexeme with
    | punct p =>
      cases p with
      | star => exact ih.step fun r _ => .ok ⟨rfl, rfl⟩
      | _ => exact .error _
    | identifier name => exact .ok ⟨rfl, rfl⟩
    | keyword k =>
      cases k with
      | fn =>
        dsimp only
        rw [peek_relocate]
        split
        · exact ih.step fun r _ => .ok ⟨rfl, rfl⟩
        · exact .ok ⟨rfl, rfl⟩
      | void | bool | i8 | i16 | i32 | i64 | f32 | f64 | str | any => exact .ok ⟨rfl, rfl⟩
      | _ => exact .error _
    | _ => exact .error _

theorem returnType_relocate (eof : Span) (ts : List Token) :
    AlikeSteps f id (returnType eof ts) (returnType (f eof) (ts.map (Token.relocate f))) := by
  simp only [returnType, peek_relocate]
  split
  · exact (typeExpr_relocate eof ts).step fun r _ => .ok ⟨rfl, rfl⟩
  · exact .ok ⟨rfl, rfl⟩

theorem leave_relocate (s : Span) (names : Names) :
    Alike f (fun a b => b = a) (leave s names) (leave (f s) names) := by
  rw [leave, leave]
  cases names.leave? with
  | none => exact .error _
  | some outer => exact .ok rfl

theorem param_relocate (env : Env) (ts : List Token) :
    AlikeSteps f (Param.relocate f) (param env ts)
      (param (env.relocate f) (ts.map (Token.relocate f))) := by
  refine (identifier_relocate env ts).step fun name _ => ?_
  refine (expect_relocate env _ name.rest).step fun colon _ => ?_
  exact (typeExpr_relocate env.eof colon.rest).step fun ty _ => .ok ⟨rfl, rfl⟩

theorem members_relocate (env : Env) (ts : List Token) :
    AlikeSteps f (Prod.map (List.map (Param.relocate f)) id) (members env ts)
      (members (env.relocate f) (ts.map (Token.relocate f))) := by
  rw [members, members, endsAt_relocate]
  split
  · exact .ok ⟨rfl, rfl⟩
  · refine (param_relocate env ts).step fun p _ => ?_
    refine (expect_relocate env _ p.rest).step fun semi _ => ?_
    have hlt := semi.lt_trans p.lt
    exact (members_relocate (env.add p.value.name.name p.value.ty) semi.rest).step fun r _ =>
      .ok ⟨rfl, rfl⟩
termination_by ts.length

theorem params_relocate (env : Env) (ts : List Token) :
    AlikeSteps f (Prod.map (List.map (Param.relocate f)) id) (params env ts)
      (params (env.relocate f) (ts.map (Token.relocate f))) := by
  rw [params, params, endsAt_relocate]
  split
  · exact .ok ⟨rfl, rfl⟩
  · obtain ⟨h, h'⟩ | ⟨dots, lt, h, h'⟩ := accept?_relocate f (.punct .variadic) ts
    · rw [h, h']
      refine (param_relocate env ts).step fun p _ => ?_
      have hlt := p.lt
      dsimp only
      obtain ⟨h, h'⟩ | ⟨comma, lt, h, h'⟩ := accept?_relocate f (.punct .comma) p.rest
      · rw [h, h']
        exact .ok ⟨rfl, rfl⟩
      · rw [h, h']
        have hlt' := comma.lt
        exact (params_relocate (env.add p.value.name.name p.value.ty) comma.rest).step fun r _ =>
          .ok ⟨rfl, rfl⟩
    · rw [h, h']
      exact .ok ⟨rfl, rfl⟩
termination_by ts.length

theorem paramList_relocate (env : Env) (ts : List Token) :
    AlikeSteps f (Prod.map (List.map (Param.relocate f)) id) (paramList env ts)
      (paramList (env.relocate f) (ts.map (Token.relocate f))) := by
  rw [paramList, paramList]
  obtain ⟨h, h'⟩ | ⟨mark, lt, h, h'⟩ := accept?_relocate f (.punct .lParen) ts
  · rw [h, h']
    exact .ok ⟨rfl, rfl⟩
  · rw [h, h']
    refine (params_relocate env mark.rest).step fun r _ => ?_
    exact (expect_relocate env _ r.rest).step fun close _ => .ok ⟨rfl, rfl⟩

theorem assigned_relocate (env : Env) (target : Ident) (value : Expr) :
    Alike f (fun a b => b = a.relocate f) (assigned env target value)
      (assigned (env.relocate f) (target.relocate f) (value.relocate f)) := by
  simp only [assigned, Env.relocate, Ident.relocate]
  cases env.scopes.find? target.name with
  | none => exact .error ⟨target.span, _⟩
  | some b =>
    refine (Alike.of_relocated (infer_relocate env value)).bind fun actual actual' hactual => ?_
    subst hactual
    rw [Expr.coerce?_relocate_if]
    cases (if b.ty.compatible _ then value.coerce? b.ty else none) with
    | some value' => exact .ok rfl
    | none =>
      dsimp only [Option.map_none]
      split
      · exact .ok rfl
      · rw [Expr.span_relocate]
        exact .error _

theorem assignment_relocate (env : Env) (target value : Expr) :
    Alike f (fun make make' => ∀ s, make' (f s) = (make s).relocate f) (assignment env target value)
      (assignment (env.relocate f) (target.relocate f) (value.relocate f)) := by
  cases target with
  | ident id =>
    refine (assigned_relocate env id value).bind fun v v' hv => ?_
    subst hv
    exact .ok fun s => rfl
  | member object field arrow s => exact .ok fun s => rfl
  | _ => exact .error _

section

-- A call inside a mutual block passes `hf` on unseen.
set_option linter.unusedSectionVars false

variable (hf : KeepsStretches f)

include hf

theorem applyOperators_relocate (ops : List (UnaryOp × Span)) (e : Expr) :
    applyOperators (ops.map <| Prod.map id f) (e.relocate f) =
      (applyOperators ops e).relocate f := by
  induction ops with
  | nil => rfl
  | cons op ops ih =>
    obtain ⟨op, s⟩ := op
    have hcons : ∀ (op : UnaryOp) (s : Span) ops e, applyOperators ((op, s) :: ops) e =
        .unary op (applyOperators ops e) (s.through (applyOperators ops e).span) :=
      fun _ _ _ _ => rfl
    rw [List.map_cons, Prod.map_apply, hcons, hcons, ih, Expr.relocate, hf, Expr.span_relocate, id]

theorem castTail_relocate (eof : Span) (e : Expr) (ts : List Token) :
    AlikeSteps f (Expr.relocate f) (castTail eof e ts)
      (castTail (f eof) (e.relocate f) (ts.map (Token.relocate f))) := by
  rw [castTail, castTail]
  obtain ⟨h, h'⟩ | ⟨mark, lt, h, h'⟩ := accept?_relocate f (.keyword .as_) ts
  · rw [h, h']
    exact .ok ⟨rfl, rfl⟩
  · rw [h, h']
    refine (typeExpr_relocate eof mark.rest).step fun ty _ => ?_
    have hlt := ty.lt_trans mark.lt
    have ih := castTail_relocate eof (.cast e ty.value.1 (e.span.through ty.value.2)) ty.rest
    rw [Expr.relocate, hf, ← Expr.span_relocate f e] at ih
    exact ih.step fun r _ => .ok ⟨rfl, rfl⟩
termination_by ts.length

mutual

theorem exprAt_relocate (env : Env) (level : Nat) (ts : List Token) :
    AlikeSteps f (Expr.relocate f) (exprAt env level ts)
      (exprAt (env.relocate f) level (ts.map (Token.relocate f))) := by
  rw [exprAt, exprAt]
  refine (operand_relocate env ts).step fun lhs _ => ?_
  have hlt := lhs.lt
  exact (binaryTail_relocate env level lhs.value lhs.rest).step fun r _ => .ok ⟨rfl, rfl⟩
termination_by 4 * ts.length + 2

theorem binaryTail_relocate (env : Env) (level : Nat) (lhs : Expr) (ts : List Token) :
    AlikeSteps f (Expr.relocate f) (binaryTail env level lhs ts)
      (binaryTail (env.relocate f) level (lhs.relocate f) (ts.map (Token.relocate f))) := by
  match ts with
  | [] =>
    rw [binaryTail]
    change AlikeSteps f _ _ (binaryTail (env.relocate f) level (lhs.relocate f) [])
    rw [binaryTail]
    exact .ok ⟨rfl, rfl⟩
  | t :: ts =>
    change AlikeSteps f _ _ (binaryTail (env.relocate f) level (lhs.relocate f)
      (t.relocate f :: ts.map (Token.relocate f)))
    rw [binaryTail_cons, binaryTail_cons, Token.kind_relocate]
    cases binaryOp? t.kind with
    | none => exact .ok ⟨rfl, rfl⟩
    | some op =>
      dsimp only
      split
      · refine (exprAt_relocate env (op.level + 1) ts).step fun rhs _ => ?_
        have hlt := rhs.lt
        have ih := binaryTail_relocate env level
          (.binary op lhs rhs.value (lhs.span.through rhs.value.span)) rhs.rest
        rw [Expr.relocate, hf, ← Expr.span_relocate f lhs, ← Expr.span_relocate f rhs.value] at ih
        exact ih.step fun r _ => .ok ⟨rfl, rfl⟩
      · exact .ok ⟨rfl, rfl⟩
termination_by 4 * ts.length
decreasing_by
  all_goals simp only [List.length_cons]
  all_goals omega

theorem operand_relocate (env : Env) (ts : List Token) :
    AlikeSteps f (Expr.relocate f) (operand env ts)
      (operand (env.relocate f) (ts.map (Token.relocate f))) := by
  rw [operand, operand]
  obtain ⟨hsigns, hts₁⟩ := operators_relocate (f := f) signOp? ts
  generalize operators signOp? ts = read at hsigns hts₁ ⊢
  generalize operators signOp? (ts.map (Token.relocate f)) = read' at hsigns hts₁ ⊢
  obtain ⟨signs, ts₁, h₁⟩ := read
  obtain ⟨signs', ts₁', h₁'⟩ := read'
  dsimp only at hsigns hts₁ ⊢
  subst hsigns hts₁
  obtain ⟨hmarks, hts₂⟩ := operators_relocate (f := f) addressOp? ts₁
  generalize operators addressOp? ts₁ = read at hmarks hts₂ ⊢
  generalize operators addressOp? (ts₁.map (Token.relocate f)) = read' at hmarks hts₂ ⊢
  obtain ⟨marks, ts₂, h₂⟩ := read
  obtain ⟨marks', ts₂', h₂'⟩ := read'
  dsimp only at hmarks hts₂ ⊢
  subst hmarks hts₂
  refine (primary_relocate env ts₂).step fun head _ => ?_
  have hlt := head.lt
  refine (postfixTail_relocate env head.value head.rest).step fun e _ => ?_
  rw [applyOperators_relocate hf]
  refine (castTail_relocate hf env.eof (applyOperators marks e.value) e.rest).step fun r _ => ?_
  exact .ok ⟨applyOperators_relocate hf signs r.value, rfl⟩
termination_by 4 * ts.length + 1

theorem primary_relocate (env : Env) (ts : List Token) :
    AlikeSteps f (Expr.relocate f) (primary env ts)
      (primary (env.relocate f) (ts.map (Token.relocate f))) := by
  match ts with
  | [] =>
    rw [primary]
    change AlikeSteps f _ _ (primary (env.relocate f) [])
    rw [primary]
    exact .error _
  | ⟨lexeme, s⟩ :: ts =>
    change AlikeSteps f _ _ (primary (env.relocate f) (⟨lexeme, f s⟩ :: ts.map (Token.relocate f)))
    rw [primary, primary]
    cases lexeme with
    | identifier name => exact .ok ⟨rfl, rfl⟩
    | number text =>
      dsimp only
      cases numberLiteral? text with
      | none => exact .error _
      | some v => exact .ok ⟨rfl, rfl⟩
    | string raw => exact .ok ⟨rfl, rfl⟩
    | keyword k =>
      cases k with
      | true_ | false_ => exact .ok ⟨rfl, rfl⟩
      | _ => exact .error _
    | punct p =>
      cases p with
      | lParen =>
        refine (exprAt_relocate env 0 ts).step fun e _ => ?_
        refine (expect_relocate env (.punct .rParen) e.rest).step fun close _ => ?_
        exact .ok ⟨congrArg (Expr.paren _) (hf s close.value.span).symm, rfl⟩
      | _ => exact .error _
    | directive d => exact .error _
termination_by 4 * ts.length
decreasing_by
  all_goals subst_vars
  all_goals simp only [List.length_cons]
  all_goals omega

theorem postfixTail_relocate (env : Env) (e : Expr) (ts : List Token) :
    AlikeSteps f (Expr.relocate f) (postfixTail env e ts)
      (postfixTail (env.relocate f) (e.relocate f) (ts.map (Token.relocate f))) := by
  rw [postfixTail, postfixTail]
  obtain ⟨h, h'⟩ | ⟨mark, lt, h, h'⟩ := accept?_relocate f (.punct .lParen) ts
  · rw [h, h']
    dsimp only
    obtain ⟨h, h'⟩ | ⟨mark, lt, h, h'⟩ := accept?_or_relocate f (.punct .dot) (.punct .arrow) ts
    · rw [h, h']
      refine .ok ⟨?_, rfl⟩
      simp only [Step.before, isFunction_relocate, Expr.span_relocate]
      split <;> rfl
    · rw [h, h']
      refine (identifier_relocate env mark.rest).step fun field _ => ?_
      have hlt := field.lt_trans mark.lt
      have ih := postfixTail_relocate env (.member e field.value
        (decide (mark.value.kind = .punct .arrow)) (e.span.through field.value.span)) field.rest
      rw [Expr.relocate, hf, ← Expr.span_relocate f e] at ih
      exact ih.step fun r _ => .ok ⟨rfl, rfl⟩
  · rw [h, h']
    have hlt := mark.lt
    refine (arguments_relocate env mark.rest).step fun args _ => ?_
    refine (expect_relocate env (.punct .rParen) args.rest).step fun close _ => ?_
    have hlt' := args.lt
    have hlt'' := close.lt
    have ih := postfixTail_relocate env
      (.call e args.value (e.span.through close.value.span)) close.rest
    rw [Expr.relocate, hf, ← Expr.span_relocate f e] at ih
    exact ih.step fun r _ => .ok ⟨rfl, rfl⟩
termination_by 4 * ts.length

theorem arguments_relocate (env : Env) (ts : List Token) :
    AlikeSteps f (Expr.relocateAll f) (arguments env ts)
      (arguments (env.relocate f) (ts.map (Token.relocate f))) := by
  rw [arguments, arguments, endsAt_relocate]
  split
  · exact .ok ⟨rfl, rfl⟩
  · refine (exprAt_relocate env 0 ts).step fun e _ => ?_
    have hlt := e.lt
    dsimp only
    obtain ⟨h, h'⟩ | ⟨comma, lt, h, h'⟩ := accept?_relocate f (.punct .comma) e.rest
    · rw [h, h', peek_relocate, here_relocate]
      dsimp only
      split
      · exact .ok ⟨rfl, rfl⟩
      · exact .error _
    · rw [h, h']
      have hlt' := comma.lt
      exact (arguments_relocate env comma.rest).step fun r _ => .ok ⟨rfl, rfl⟩
termination_by 4 * ts.length + 3

end

theorem expr_relocate (env : Env) (ts : List Token) :
    AlikeSteps f (Expr.relocate f) (expr env ts)
      (expr (env.relocate f) (ts.map (Token.relocate f))) :=
  exprAt_relocate hf env 0 ts

theorem structDef_relocate (env : Env) (name : Ident) (ts : List Token) :
    AlikeSteps f (Prod.map (Stmt.relocate f) id) (structDef env name ts)
      (structDef (env.relocate f) (name.relocate f) (ts.map (Token.relocate f))) := by
  refine (expect_relocate env _ ts).step fun mark _ => ?_
  refine (members_relocate _ mark.rest).step fun ms _ => ?_
  refine (expect_relocate env _ ms.rest).step fun close _ => ?_
  refine (leave_relocate close.value.span ms.value.2).bind fun names names' hnames => ?_
  subst hnames
  refine .ok ⟨?_, rfl⟩
  simp only [Prod.map_apply, Stmt.relocate, hf name.span]
  rfl

theorem initializer_relocate (env : Env) (ts : List Token) :
    AlikeSteps f (Option.map (Expr.relocate f)) (varDef.initializer env ts)
      (varDef.initializer (env.relocate f) (ts.map (Token.relocate f))) := by
  rw [varDef.initializer, varDef.initializer]
  obtain ⟨h, h'⟩ | ⟨mark, lt, h, h'⟩ := accept?_relocate f (.punct .assign) ts
  · rw [h, h']
    exact .ok ⟨rfl, rfl⟩
  · rw [h, h']
    exact (expr_relocate hf env mark.rest).step fun e _ => .ok ⟨rfl, rfl⟩

theorem varDef_relocate (env : Env) (name : Ident) (ts : List Token) :
    AlikeSteps f (Prod.map (Stmt.relocate f) id) (varDef env name ts)
      (varDef (env.relocate f) (name.relocate f) (ts.map (Token.relocate f))) := by
  refine (typeExpr_relocate env.eof ts).step fun ty _ => ?_
  refine (initializer_relocate hf env ty.rest).step fun init _ => ?_
  refine (expect_relocate env _ init.rest).step fun semi _ => .ok ⟨?_, rfl⟩
  simp only [Prod.map_apply, Stmt.relocate, hf name.span]
  rfl

theorem quickDef_relocate (env : Env) (name : Ident) (ts : List Token) :
    AlikeSteps f (Prod.map (Stmt.relocate f) id) (quickDef env name ts)
      (quickDef (env.relocate f) (name.relocate f) (ts.map (Token.relocate f))) := by
  refine (expr_relocate hf env ts).step fun e _ => ?_
  refine (Alike.of_relocated (infer_relocate env e.value)).bind fun ty ty' hty => ?_
  subst hty
  refine (expect_relocate env _ e.rest).step fun semi _ => .ok ⟨?_, rfl⟩
  simp only [Prod.map_apply, Stmt.relocate, hf name.span]
  rfl

theorem exprStmt_relocate (env : Env) (ts : List Token) :
    AlikeSteps f (Stmt.relocate f) (exprStmt env ts)
      (exprStmt (env.relocate f) (ts.map (Token.relocate f))) := by
  refine (expr_relocate hf env ts).step fun target _ => ?_
  dsimp only
  obtain ⟨h, h'⟩ | ⟨mark, lt, h, h'⟩ := accept?_relocate f (.punct .assign) target.rest
  · rw [h, h']
    refine (expect_relocate env _ target.rest).step fun semi _ => .ok ⟨?_, rfl⟩
    simp only [Stmt.relocate, hf target.value.span, Expr.span_relocate]
    rfl
  · rw [h, h']
    refine (expr_relocate hf env mark.rest).step fun value _ => ?_
    refine (assignment_relocate env target.value value.value).bind fun make make' hmake => ?_
    refine (expect_relocate env _ value.rest).step fun semi _ => .ok ⟨?_, rfl⟩
    rw [← hmake, hf target.value.span, ← Expr.span_relocate f target.value]
    rfl

theorem returnStmt_relocate (env : Env) (start : Span) (ts : List Token) :
    AlikeSteps f (Stmt.relocate f) (returnStmt env start ts)
      (returnStmt (env.relocate f) (f start) (ts.map (Token.relocate f))) := by
  rw [returnStmt, returnStmt]
  obtain ⟨h, h'⟩ | ⟨semi, lt, h, h'⟩ := accept?_relocate f (.punct .semicolon) ts
  · rw [h, h']
    refine (expr_relocate hf env ts).step fun e _ => ?_
    refine (expect_relocate env _ e.rest).step fun semi _ => .ok ⟨?_, rfl⟩
    simp only [Stmt.relocate, hf start]
    rfl
  · rw [h, h']
    refine .ok ⟨?_, rfl⟩
    simp only [Stmt.relocate, hf start]
    rfl

mutual

theorem stmt_relocate (env : Env) (ts : List Token) :
    AlikeSteps f (Prod.map (Stmt.relocate f) id) (stmt env ts)
      (stmt (env.relocate f) (ts.map (Token.relocate f))) := by
  rw [stmt.eq_def]
  split
  · rename_i name s s₁ s₂ ts
    change AlikeSteps f _ _ (stmt (env.relocate f) (⟨.identifier name, f s⟩ ::
      ⟨.punct .colon, f s₁⟩ :: ⟨.keyword .struct, f s₂⟩ :: ts.map (Token.relocate f)))
    rw [stmt]
    exact (structDef_relocate hf env ⟨name, s⟩ ts).step fun r _ => .ok ⟨rfl, rfl⟩
  · rename_i name s s₁ s₂ ts
    change AlikeSteps f _ _ (stmt (env.relocate f) (⟨.identifier name, f s⟩ ::
      ⟨.punct .colon, f s₁⟩ :: ⟨.keyword .fn, f s₂⟩ :: ts.map (Token.relocate f)))
    rw [stmt]
    exact (fnDef_relocate env ⟨name, s⟩ ts).step fun r _ => .ok ⟨rfl, rfl⟩
  · rename_i name s s₁ ts hstruct hfn
    change AlikeSteps f _ _ (stmt (env.relocate f)
      (⟨.identifier name, f s⟩ :: ⟨.punct .colon, f s₁⟩ :: ts.map (Token.relocate f)))
    rw [stmt]
    · exact (varDef_relocate hf env ⟨name, s⟩ ts).step fun r _ => .ok ⟨rfl, rfl⟩
    · exact Token.map_relocate_ne_cons hstruct
    · exact Token.map_relocate_ne_cons hfn
  · rename_i name s s₁ ts
    change AlikeSteps f _ _ (stmt (env.relocate f)
      (⟨.identifier name, f s⟩ :: ⟨.punct .quickAssign, f s₁⟩ :: ts.map (Token.relocate f)))
    rw [stmt]
    exact (quickDef_relocate hf env ⟨name, s⟩ ts).step fun r _ => .ok ⟨rfl, rfl⟩
  · rename_i s ts
    change AlikeSteps f _ _
      (stmt (env.relocate f) (⟨.keyword .return_, f s⟩ :: ts.map (Token.relocate f)))
    rw [stmt]
    exact (returnStmt_relocate hf env s ts).step fun r _ => .ok ⟨rfl, rfl⟩
  · rename_i s ts
    change AlikeSteps f _ _
      (stmt (env.relocate f) (⟨.keyword .break_, f s⟩ :: ts.map (Token.relocate f)))
    rw [stmt]
    refine (expect_relocate env _ ts).step fun semi _ => .ok ⟨?_, rfl⟩
    simp only [Prod.map_apply, Stmt.relocate, hf s]
    rfl
  · rename_i s ts
    change AlikeSteps f _ _
      (stmt (env.relocate f) (⟨.keyword .for_, f s⟩ :: ts.map (Token.relocate f)))
    rw [stmt]
    refine (expr_relocate hf env ts).step fun cond _ => ?_
    have hlt := cond.lt
    refine (block_relocate env cond.rest).step fun body _ => .ok ⟨?_, rfl⟩
    simp only [Prod.map_apply, Stmt.relocate, hf s]
    rfl
  · rename_i s ts
    change AlikeSteps f _ _
      (stmt (env.relocate f) (⟨.keyword .if_, f s⟩ :: ts.map (Token.relocate f)))
    rw [stmt]
    refine (expr_relocate hf env ts).step fun cond _ => ?_
    have hlt := cond.lt
    refine (block_relocate env cond.rest).step fun body _ => ?_
    have hlt' := body.lt
    refine (alternative_relocate { env with scopes := body.value.2.2 } body.value.2.1
      body.rest).step fun alt _ => .ok ⟨?_, rfl⟩
    simp only [Prod.map_apply, Stmt.relocate, hf s]
    rfl
  · rename_i s ts
    change AlikeSteps f _ _
      (stmt (env.relocate f) (⟨.punct .lBrace, f s⟩ :: ts.map (Token.relocate f)))
    rw [stmt]
    refine (blockTail_relocate env ts).step fun body _ => .ok ⟨?_, rfl⟩
    simp only [Prod.map_apply, Stmt.relocate, hf s]
    rfl
  · rename_i hstruct hfn hvar hquick hreturn hbreak hfor hif hblock
    rw [stmt]
    · exact (exprStmt_relocate hf env ts).step fun r _ => .ok ⟨rfl, rfl⟩
    · exact fun name s s₁ s₂ us => Token.map_relocate_ne_name hvar name s s₁ _
    · exact fun name s s₁ s₂ us => Token.map_relocate_ne_name hvar name s s₁ _
    · exact Token.map_relocate_ne_name hvar
    · exact Token.map_relocate_ne_name hquick
    · exact Token.map_relocate_ne_cons hreturn
    · exact Token.map_relocate_ne_cons hbreak
    · exact Token.map_relocate_ne_cons hfor
    · exact Token.map_relocate_ne_cons hif
    · exact Token.map_relocate_ne_cons hblock
termination_by 3 * ts.length
decreasing_by
  all_goals subst_vars
  all_goals simp only [List.length_cons]
  all_goals omega

theorem fnDef_relocate (env : Env) (name : Ident) (ts : List Token) :
    AlikeSteps f (Prod.map (Stmt.relocate f) id) (fnDef env name ts)
      (fnDef (env.relocate f) (name.relocate f) (ts.map (Token.relocate f))) := by
  rw [fnDef, fnDef]
  refine (returnType_relocate env.eof ts).step fun ret _ => ?_
  refine (paramList_relocate _ ret.rest).step fun ps _ => ?_
  have hret := ret.lt
  have hps := ps.lt
  dsimp only
  obtain ⟨h, h'⟩ | ⟨semi, lt, h, h'⟩ := accept?_relocate f (.punct .semicolon) ps.rest
  · rw [h, h']
    refine (expect_relocate _ _ ps.rest).step fun mark _ => ?_
    have hmark := mark.lt
    refine (stmts_relocate _ mark.rest).step fun body _ => ?_
    refine (expect_relocate _ _ body.rest).step fun close _ => ?_
    refine (leave_relocate close.value.span body.value.2).bind fun names names' hnames => ?_
    subst hnames
    refine .ok ⟨?_, rfl⟩
    simp only [Prod.map_apply, Stmt.relocate, hf name.span]
    rfl
  · rw [h, h']
    refine (leave_relocate semi.value.span _).bind fun names names' hnames => ?_
    subst hnames
    refine .ok ⟨?_, rfl⟩
    simp only [Prod.map_apply, Stmt.relocate, hf name.span]
    rfl
termination_by 3 * ts.length

theorem alternative_relocate (env : Env) (last : Span) (ts : List Token) :
    AlikeSteps f (Prod.map (Alternative.relocate f) (Prod.map f id)) (alternative env last ts)
      (alternative (env.relocate f) (f last) (ts.map (Token.relocate f))) := by
  rw [alternative.eq_def]
  split
  · rename_i s ts
    change AlikeSteps f _ _
      (alternative (env.relocate f) (f last) (⟨.keyword .elif, f s⟩ :: ts.map (Token.relocate f)))
    rw [alternative]
    refine (expr_relocate hf env ts).step fun cond _ => ?_
    have hlt := cond.lt
    refine (block_relocate env cond.rest).step fun body _ => ?_
    have hlt' := body.lt
    exact (alternative_relocate { env with scopes := body.value.2.2 } body.value.2.1
      body.rest).step fun alt _ => .ok ⟨rfl, rfl⟩
  · rename_i s ts
    change AlikeSteps f _ _
      (alternative (env.relocate f) (f last) (⟨.keyword .else_, f s⟩ :: ts.map (Token.relocate f)))
    rw [alternative]
    exact (block_relocate env ts).step fun body _ => .ok ⟨rfl, rfl⟩
  · rename_i helif helse
    rw [alternative]
    · exact .ok ⟨rfl, rfl⟩
    · exact Token.map_relocate_ne_cons helif
    · exact Token.map_relocate_ne_cons helse
termination_by 3 * ts.length
decreasing_by
  all_goals subst_vars
  all_goals simp only [List.length_cons]
  all_goals omega

theorem block_relocate (env : Env) (ts : List Token) :
    AlikeSteps f (Prod.map (Stmt.relocateAll f) (Prod.map f id)) (block env ts)
      (block (env.relocate f) (ts.map (Token.relocate f))) := by
  rw [block, block]
  refine (expect_relocate env _ ts).step fun mark _ => ?_
  have hlt := mark.lt
  exact (blockTail_relocate env mark.rest).step fun r _ => .ok ⟨rfl, rfl⟩
termination_by 3 * ts.length

theorem blockTail_relocate (env : Env) (ts : List Token) :
    AlikeSteps f (Prod.map (Stmt.relocateAll f) (Prod.map f id)) (blockTail env ts)
      (blockTail (env.relocate f) (ts.map (Token.relocate f))) := by
  rw [blockTail, blockTail]
  refine (stmts_relocate { env with scopes := env.scopes.enter } ts).step fun body _ => ?_
  refine (expect_relocate env _ body.rest).step fun close _ => ?_
  refine (leave_relocate close.value.span body.value.2).bind fun names names' hnames => ?_
  subst hnames
  exact .ok ⟨rfl, rfl⟩
termination_by 3 * ts.length + 2

theorem stmts_relocate (env : Env) (ts : List Token) :
    AlikeSteps f (Prod.map (Stmt.relocateAll f) id) (stmts env ts)
      (stmts (env.relocate f) (ts.map (Token.relocate f))) := by
  rw [stmts, stmts, endsAt_relocate]
  split
  · exact .ok ⟨rfl, rfl⟩
  · refine (stmt_relocate env ts).step fun s _ => ?_
    have hlt := s.lt
    exact (stmts_relocate { env with scopes := s.value.2 } s.rest).step fun r _ =>
      .ok ⟨rfl, rfl⟩
termination_by 3 * ts.length + 1

end

theorem program_relocate (env : Env) (ts : List Token) :
    Alike f (fun p q => q = Stmt.relocateAll f p) (program env ts)
      (program (env.relocate f) (ts.map (Token.relocate f))) := by
  match ts with
  | [] =>
    rw [program]
    change Alike f _ _ (program (env.relocate f) [])
    rw [program]
    exact .ok rfl
  | t :: ts =>
    rw [program]
    change Alike f _ _ (program (env.relocate f) (t.relocate f :: ts.map (Token.relocate f)))
    rw [program, Token.kind_relocate]
    split
    · refine (stmt_relocate hf env (t :: ts)).step fun s _ => ?_
      have hlt := s.lt
      refine (program_relocate { env with scopes := s.value.2 } s.rest).bind fun p q hpq => ?_
      subst hpq
      exact .ok rfl
    · exact .error _
termination_by ts.length
decreasing_by exact hlt

end

end Grammar

/-- Reading a program commutes with moving spans. -/
theorem Program.ofTokens_relocate (hf : KeepsStretches f) (eof : Span) (ts : List Token) :
    Program.ofTokens (f eof) (ts.map (Token.relocate f)) =
      relocated f (Stmt.relocateAll f) (Program.ofTokens eof ts) :=
  (Grammar.program_relocate hf ⟨eof, .start⟩ ts).relocated_eq

/-- Reading an expression commutes with moving spans. -/
theorem Expr.ofTokens_relocate (hf : KeepsStretches f) (eof : Span) (ts : List Token) :
    Expr.ofTokens (f eof) (ts.map (Token.relocate f)) =
      relocated f (Expr.relocate f) (Expr.ofTokens eof ts) := by
  refine Grammar.Alike.relocated_eq ?_
  refine (Grammar.expr_relocate hf ⟨eof, .start⟩ ts).step fun e _ => ?_
  have hend : Grammar.Alike f (fun _ _ => True) (Grammar.expectEnd e.rest)
      (Grammar.expectEnd (e.rest.map (Token.relocate f))) := by
    cases e.rest with
    | nil => exact .ok trivial
    | cons t ts => exact .error _
  exact hend.bind fun _ _ _ => .ok rfl

end Frontend
