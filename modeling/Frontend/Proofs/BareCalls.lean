import Frontend.Proofs.Phrases
import Frontend.Proofs.Placeless

/-!
Names of functions without arguments. Where a name stands as an operand and is bound to a function,
it is read as a call of it; so it makes no difference whether an empty argument list is written
after it, unless the function returns a function: what an argument list makes is called once more,
and what the name alone makes is not.
-/
namespace Frontend

theorem Span.through_self (s : Span) : s.through s = s := by
  simp [through, hi]

namespace Grammar

/-- What is read and what is left, whatever the tokens before. -/
def seen {n : Nat} (x : Parse (Step n α)) : Parse (α × List Token) :=
  x.map fun r => (r.value, r.rest)

section Seen

variable {n m n' m' : Nat} {x : Parse (Step n α)} {x' : Parse (Step n' α)}
  {f : Step n α → Parse (Step m β)} {f' : Step n' α → Parse (Step m' β)}

theorem Gives.seen_eq {a : α} {rest : List Token} (h : Gives x a rest) :
    seen x = .ok (a, rest) := by
  obtain ⟨r, rfl, rfl, rfl⟩ := h
  rfl

theorem seen_eq_seen (h : seen x = seen x') : (∃ e, x = .error e ∧ x' = .error e) ∨
    ∃ a rest lt lt', x = .ok ⟨a, rest, lt⟩ ∧ x' = .ok ⟨a, rest, lt'⟩ := by
  cases x with
  | error e =>
    cases x' with
    | error e' =>
      obtain rfl := Except.error.inj h
      exact .inl ⟨e, rfl, rfl⟩
    | ok r' => cases h
  | ok r =>
    cases x' with
    | error e' => cases h
    | ok r' =>
      obtain ⟨a, rest, lt⟩ := r
      obtain ⟨a', rest', lt'⟩ := r'
      obtain ⟨rfl, rfl⟩ := Prod.mk.inj (Except.ok.inj h)
      exact .inr ⟨a, rest, lt, lt', rfl, rfl⟩

/-- Readers that see the same, and go on in the same way. -/
theorem seen_bind (hx : seen x = seen x')
    (hf : ∀ {a rest lt lt'}, seen (f ⟨a, rest, lt⟩) = seen (f' ⟨a, rest, lt'⟩)) :
    seen (x >>= f) = seen (x' >>= f') := by
  obtain ⟨e, rfl, rfl⟩ | ⟨a, rest, lt, lt', rfl, rfl⟩ := seen_eq_seen hx
  · rfl
  · exact hf

variable {mid spot spot' ts' : List Token}

/-- Readers that give the same, and see the same in what they leave. -/
theorem Gives.seen_bind {a : α} {mid' : List Token} (hx : Gives x a mid) (hx' : Gives x' a mid')
    (hf : ∀ {lt lt'}, seen (f ⟨a, mid, lt⟩) = seen (f' ⟨a, mid', lt'⟩)) :
    seen (x >>= f) = seen (x' >>= f') := by
  obtain ⟨⟨a, mid, lt⟩, rfl, rfl, rfl⟩ := hx
  obtain ⟨⟨_, mid', lt'⟩, rfl, rfl, rfl⟩ := hx'
  exact hf

theorem seen_bind_congr {γ : Type} (y : Parse γ) {g : γ → Parse (Step m β)}
    {g' : γ → Parse (Step m' β)}
    (hg : ∀ {c}, seen (g c) = seen (g' c)) : seen (y >>= g) = seen (y >>= g') := by
  cases y with
  | error e => rfl
  | ok c => exact hg

end Seen

/-- The tokens after the unary operators at the front. -/
def afterOperators (ts : List Token) : List Token :=
  (operators addressOp? (operators signOp? ts).rest).rest

/-- The head of an operand with its suffixes, and what is left. -/
def chain (env : Env) (ts : List Token) : Parse (Expr × List Token) := do
  let first ← primary env ts
  seen (postfixTail env first.value first.rest)

/-- Something that may hold an operand. -/
inductive Reader where
  | program
  | stmts
  | stmt
  | alternative (last : Span)
  | block
  | expr (level : Nat)
  | operators (level : Nat) (lhs : Expr)
  | operand
  | suffixes (head : Expr)
  | arguments

/-- The same is read from the one as from the other. -/
def Reader.Same (env : Env) (ts ts' : List Token) : Reader → Prop
  | .program => Grammar.program env ts = Grammar.program env ts'
  | .stmts => seen (Grammar.stmts env ts) = seen (Grammar.stmts env ts')
  | .stmt => seen (Grammar.stmt env ts) = seen (Grammar.stmt env ts')
  | .alternative last => seen (Grammar.alternative env last ts) =
      seen (Grammar.alternative env last ts')
  | .block => seen (Grammar.block env ts) = seen (Grammar.block env ts')
  | .expr level => seen (exprAt env level ts) = seen (exprAt env level ts')
  | .operators level lhs => seen (binaryTail env level lhs ts) = seen (binaryTail env level lhs ts')
  | .operand => seen (Grammar.operand env ts) = seen (Grammar.operand env ts')
  | .suffixes head => seen (postfixTail env head ts) = seen (postfixTail env head ts')
  | .arguments => seen (Grammar.arguments env ts) = seen (Grammar.arguments env ts')

section Places

variable (here : Env) (spot : List Token)

/-- Over the tokens given, reading comes to an operand at the head of `spot`, where it knows the
names of `here`. What comes before it was read; nothing is said of what follows. -/
inductive Comes : Reader → Env → List Token → Prop where
  | top {env front} : peek (front ++ spot) = .identifier → Comes .stmt env front →
      Comes .program env front
  | topNext {env s names front mid} : peek (front ++ spot) = .identifier →
      Gives (stmt env (front ++ spot)) (s, names) (mid ++ spot) →
      Comes .program { env with scopes := names } mid → Comes .program env front
  | first {env front} : endsAt (.punct .rBrace) (front ++ spot) = false → Comes .stmt env front →
      Comes .stmts env front
  | next {env s names front mid} : endsAt (.punct .rBrace) (front ++ spot) = false →
      Gives (stmt env (front ++ spot)) (s, names) (mid ++ spot) →
      Comes .stmts { env with scopes := names } mid → Comes .stmts env front
  | inFunction {env sig s₁ s₂ s₃ inner front mid} :
      ParsesSignature env (front ++ spot) sig inner (⟨.punct .lBrace, s₃⟩ :: (mid ++ spot)) →
      Comes .stmts { env with scopes := inner } mid →
      Comes .stmt env (⟨.identifier sig.name.name, sig.name.span⟩ :: ⟨.punct .colon, s₁⟩ ::
        ⟨.keyword .fn, s₂⟩ :: front)
  | initial {env s₁ s₂ ty last front mid} {name : Ident} : peek (front ++ spot) ≠ .keyword .fn →
      Gives (typeExpr env.eof (front ++ spot)) (ty, last) (⟨.punct .assign, s₂⟩ :: (mid ++ spot)) →
      Comes (.expr 0) env mid →
      Comes .stmt env (⟨.identifier name.name, name.span⟩ :: ⟨.punct .colon, s₁⟩ :: front)
  | quick {env name s s₁ front} : Comes (.expr 0) env front →
      Comes .stmt env (⟨.identifier name, s⟩ :: ⟨.punct .quickAssign, s₁⟩ :: front)
  | returned {env s front} : peek (front ++ spot) ≠ .punct .semicolon → Comes (.expr 0) env front →
      Comes .stmt env (⟨.keyword .return_, s⟩ :: front)
  | cond {env k s front} : k = .for_ ∨ k = .if_ → Comes (.expr 0) env front →
      Comes .stmt env (⟨.keyword k, s⟩ :: front)
  | body {env k s cond front mid} : k = .for_ ∨ k = .if_ →
      Gives (expr env (front ++ spot)) cond (mid ++ spot) → Comes .block env mid →
      Comes .stmt env (⟨.keyword k, s⟩ :: front)
  | otherwise {env s cond body last names front mid after} :
      Gives (expr env (front ++ spot)) cond (mid ++ spot) →
      Gives (block env (mid ++ spot)) (body, last, names) (after ++ spot) →
      Comes (.alternative last) { env with scopes := names } after →
      Comes .stmt env (⟨.keyword .if_, s⟩ :: front)
  | braces {env s front} : Comes .stmts { env with scopes := env.scopes.enter } front →
      Comes .stmt env (⟨.punct .lBrace, s⟩ :: front)
  | target {env front} : startsNoExpr (peek (front ++ spot)) = false →
      peek (front ++ spot).tail ≠ .punct .colon → peek (front ++ spot).tail ≠ .punct .quickAssign →
      Comes (.expr 0) env front → Comes .stmt env front
  | assigned {env target s front mid} :
      Gives (expr env (front ++ spot)) target (⟨.punct .assign, s⟩ :: (mid ++ spot)) →
      Comes (.expr 0) env mid → Comes .stmt env front
  | elifCond {env last s front} : Comes (.expr 0) env front →
      Comes (.alternative last) env (⟨.keyword .elif, s⟩ :: front)
  | elifBody {env last s cond front mid} :
      Gives (expr env (front ++ spot)) cond (mid ++ spot) → Comes .block env mid →
      Comes (.alternative last) env (⟨.keyword .elif, s⟩ :: front)
  | elifOtherwise {env last s cond body next names front mid after} :
      Gives (expr env (front ++ spot)) cond (mid ++ spot) →
      Gives (block env (mid ++ spot)) (body, next, names) (after ++ spot) →
      Comes (.alternative next) { env with scopes := names } after →
      Comes (.alternative last) env (⟨.keyword .elif, s⟩ :: front)
  | elseBody {env last s front} : Comes .block env front →
      Comes (.alternative last) env (⟨.keyword .else_, s⟩ :: front)
  | inBlock {env s front} : Comes .stmts { env with scopes := env.scopes.enter } front →
      Comes .block env (⟨.punct .lBrace, s⟩ :: front)
  | left {env level front} : Comes .operand env front → Comes (.expr level) env front
  | right {env level lhs front mid} : Gives (operand env (front ++ spot)) lhs (mid ++ spot) →
      Comes (.operators level lhs) env mid → Comes (.expr level) env front
  | rhs {env level lhs t op front} : binaryOp? t.kind = some op → level ≤ op.level →
      Comes (.expr (op.level + 1)) env front → Comes (.operators level lhs) env (t :: front)
  | onward {env level lhs rhs t op front mid} : binaryOp? t.kind = some op → level ≤ op.level →
      Gives (exprAt env (op.level + 1) (front ++ spot)) rhs (mid ++ spot) →
      Comes (.operators level (.binary op lhs rhs (lhs.span.through rhs.span))) env mid →
      Comes (.operators level lhs) env (t :: front)
  | here {front} : afterOperators (front ++ spot) = spot → Comes .operand here front
  | paren {env s front mid} : afterOperators (front ++ spot) = ⟨.punct .lParen, s⟩ :: mid ++ spot →
      Comes (.expr 0) env mid → Comes .operand env front
  | suffixed {env first front mid after} : afterOperators (front ++ spot) = mid ++ spot →
      Gives (primary env (mid ++ spot)) first (after ++ spot) → Comes (.suffixes first) env after →
      Comes .operand env front
  | args {env first s front} : Comes .arguments env front →
      Comes (.suffixes first) env (⟨.punct .lParen, s⟩ :: front)
  | called {env first args s close front mid} :
      Gives (arguments env (front ++ spot)) args (⟨.punct .rParen, close⟩ :: (mid ++ spot)) →
      Comes (.suffixes (.call first args (first.span.through close))) env mid →
      Comes (.suffixes first) env (⟨.punct .lParen, s⟩ :: front)
  | member {env first s field arrow front} :
      Comes (.suffixes (.member first field arrow (first.span.through field.span))) env front →
      Comes (.suffixes first) env (⟨.punct (if arrow then .arrow else .dot), s⟩ ::
        ⟨.identifier field.name, field.span⟩ :: front)
  | argument {env front} : endsAt (.punct .rParen) (front ++ spot) = false →
      Comes (.expr 0) env front → Comes .arguments env front
  | nextArgument {env e s front mid} : endsAt (.punct .rParen) (front ++ spot) = false →
      Gives (exprAt env 0 (front ++ spot)) e (⟨.punct .comma, s⟩ :: (mid ++ spot)) →
      Comes .arguments env mid → Comes .arguments env front

end Places

/-- What was read before a place is read alike before what stands there instead. -/
theorem Local.swap {P : List Token → List Token → Prop} {front : List Token}
    (h : Local P (front ++ spot) (mid ++ spot)) (hpeek : peek spot' = peek spot) :
    P (front ++ spot') (mid ++ spot') := by
  obtain ⟨first, hts, hP⟩ := h
  rw [← List.append_assoc] at hts
  rw [List.append_cancel_right hts, List.append_assoc]
  exact hP _ (peek_append mid hpeek)

/-- A name, and what follows it. -/
def bare (f : Ident) (rest : List Token) : List Token := ⟨.identifier f.name, f.span⟩ :: rest

/-- The name with an empty argument list, at the same place. -/
def emptyCall (f : Ident) (rest : List Token) : List Token :=
  bare f (⟨.punct .lParen, f.span⟩ :: ⟨.punct .rParen, f.span⟩ :: rest)

section Swap

variable {env here : Env} {f : Ident} {front mid rest ts : List Token}

theorem program_eq (h : peek ts = .identifier) : program env ts = do
    let s ← stmt env ts
    let r ← program { env with scopes := s.value.2 } s.rest
    return s.value.1 :: r := by
  cases ts with
  | nil => cases h
  | cons t ts =>
    rw [program]
    exact if_pos h

theorem afterOperators_swap (h : afterOperators (front ++ spot) = mid ++ spot)
    (hpeek : peek spot' = peek spot) :
    (operators signOp? (front ++ spot')).value = (operators signOp? (front ++ spot)).value ∧
    (operators addressOp? (operators signOp? (front ++ spot')).rest).value =
      (operators addressOp? (operators signOp? (front ++ spot)).rest).value ∧
    afterOperators (front ++ spot') = mid ++ spot' := by
  have hlocal := (operators_local signOp? rfl (front ++ spot)).trans
    (operators_local addressOp? rfl _)
  rw [show (operators addressOp? _).rest = mid ++ spot from h] at hlocal
  obtain ⟨_, ⟨hsigns, rfl⟩, hmarks, hrest⟩ := hlocal.swap hpeek
  exact ⟨hsigns, hmarks, hrest⟩

theorem operand_seen (env : Env) (ts : List Token) : seen (operand env ts) = (do
    let e ← chain env (afterOperators ts)
    let r ← seen (castTail env.eof
      (applyOperators (operators addressOp? (operators signOp? ts).rest).value e.1) e.2)
    return (applyOperators (operators signOp? ts).value r.1, r.2)) := by
  rw [operand]
  change seen (primary env (afterOperators ts) >>= _) =
    (primary env (afterOperators ts) >>= _) >>= _
  cases primary env (afterOperators ts) with
  | error e => rfl
  | ok first =>
    change seen (postfixTail env first.value first.rest >>= _) =
      seen (postfixTail env first.value first.rest) >>= _
    cases postfixTail env first.value first.rest with
    | error e => rfl
    | ok e =>
      change seen (castTail env.eof _ e.rest >>= _) = seen (castTail env.eof _ e.rest) >>= _
      cases castTail env.eof _ e.rest <;> rfl

/-- After the unary operators, the same chain is seen. -/
theorem operand_same (hpeek : peek spot' = peek spot) (mid : List Token)
    (h : afterOperators (front ++ spot) = mid ++ spot)
    (hchain : chain env (mid ++ spot) = chain env (mid ++ spot')) :
    Reader.Same env (front ++ spot) (front ++ spot') .operand := by
  obtain ⟨hsigns, hmarks, hrest⟩ := afterOperators_swap h hpeek
  rw [Reader.Same, operand_seen, operand_seen, h, hrest, hchain, hsigns, hmarks]

theorem stmt_eq_exprStmt_of_peek (hfirst : startsNoExpr (peek ts) = false)
    (hcolon : peek ts.tail ≠ .punct .colon) (hquick : peek ts.tail ≠ .punct .quickAssign) :
    stmt env ts = do
      let r ← exprStmt env ts
      return ⟨(r.value, env.scopes), r.rest, r.lt⟩ := by
  refine stmt_eq_exprStmt hfirst ?_
  rintro _ _ p _ _ rfl
  exact ⟨fun hp => hcolon (congrArg Kind.punct hp), fun hp => hquick (congrArg Kind.punct hp)⟩

theorem Gives.chain_eq {e : Expr} (h : Gives (primary env ts) e rest) :
    chain env ts = seen (postfixTail env e rest) := by
  obtain ⟨r, hr, rfl, rfl⟩ := h
  rw [chain, hr]
  rfl

theorem chain_same (h : seen (primary env ts) = seen (primary env ts')) :
    chain env ts = chain env ts' := by
  rw [chain, chain]
  obtain ⟨e, hx, hx'⟩ | ⟨a, rest, lt, lt', hx, hx'⟩ := seen_eq_seen h
  all_goals rw [hx, hx']; rfl

theorem blockTail_same (h : Reader.Same { env with scopes := env.scopes.enter } ts ts' .stmts) :
    seen (blockTail env ts) = seen (blockTail env ts') := by
  rw [blockTail, blockTail]
  exact seen_bind h <| seen_bind rfl <| seen_bind_congr _ rfl

theorem peek_tail_swap (front : List Token) {p : Punct} (hp : p ≠ .lParen)
    (h : peek (front ++ bare f rest).tail ≠ .punct p) :
    peek (front ++ emptyCall f rest).tail ≠ .punct p := by
  cases front with
  | nil => simpa [emptyCall, bare, peek, Token.kind, Lexeme.kind] using hp.symm
  | cons t front =>
    have hsame : peek (front ++ emptyCall f rest) = peek (front ++ bare f rest) :=
      peek_append front rfl
    exact fun hp => h (hsame.symm.trans hp)

/-- Wherever a name is an operand, the same is read before an empty argument list, if the same is
read there. -/
theorem Comes.same {reader : Reader} (h : Comes here (bare f rest) reader env front)
    (hhere : chain here (bare f rest) = chain here (emptyCall f rest)) :
    reader.Same env (front ++ bare f rest) (front ++ emptyCall f rest) := by
  have hpeek : peek (emptyCall f rest) = peek (bare f rest) := rfl
  have hahead (front : List Token) : peek (front ++ emptyCall f rest) =
      peek (front ++ bare f rest) :=
    peek_append front hpeek
  -- By the way to the place: what stands before it was read without a look past the next token, and
  -- what is read from there on is the same by induction.
  induction h with simp only [Reader.Same, List.cons_append]
  | top hname _ ih =>
    rw [program_eq hname, program_eq (by rwa [hahead])]
    obtain ⟨e, hx, hx'⟩ | ⟨a, rest, lt, lt', hx, hx'⟩ := seen_eq_seen ih
    all_goals rw [hx, hx']; rfl
  | @topNext _ s _ _ _ hname hs _ ih =>
    have hs' := ((stmt_parses _ _ hs).local.imp Parses.given).swap hpeek
    rw [program_eq hname, program_eq (by rwa [hahead])]
    obtain ⟨⟨_, _, _⟩, hs, ⟨⟩, rfl⟩ := hs
    obtain ⟨⟨_, _, _⟩, hs', ⟨⟩, rfl⟩ := hs'
    rw [hs, hs']
    have hbind := congrArg (fun p : Parse Program => p >>= fun r => .ok (s :: r)) ih
    exact hbind
  | first hends _ ih =>
    rw [stmts, stmts, if_neg (by simp [hends]),
      if_neg (by simpa [endsAt, hahead] using hends)]
    exact seen_bind ih <| seen_bind rfl rfl
  | next hends hs _ ih =>
    rw [stmts, stmts, if_neg (by simp [hends]),
      if_neg (by simpa [endsAt, hahead] using hends)]
    have hs' := ((stmt_parses _ _ hs).local.imp Parses.given).swap hpeek
    exact hs.seen_bind hs' <| seen_bind ih rfl
  | inFunction hsig _ ih =>
    have hsig' := hsig.local.drop.swap hpeek
    obtain ⟨hret, hps⟩ := hsig
    obtain ⟨hret', hps'⟩ := hsig'
    rw [stmt, stmt]
    refine seen_bind ?_ rfl
    rw [fnDef, fnDef]
    refine hret.seen_bind hret' <| hps.given.seen_bind hps'.given ?_
    dsimp only
    rw [accept?_ne (by simp [peek, Token.kind, Lexeme.kind]),
      accept?_ne (by simp [peek, Token.kind, Lexeme.kind])]
    exact (expect_mark _ _ _).seen_bind (expect_mark _ _ _) <|
      seen_bind ih <| seen_bind rfl <| seen_bind_congr _ rfl
  | initial hfn hty _ ih =>
    have hty' := (typeExpr_local hty).drop.swap hpeek
    rw [stmt_eq_varDef hfn hty, stmt_eq_varDef (by rwa [hahead]) hty']
    refine seen_bind (hty.seen_bind hty' <| seen_bind ?_ <| seen_bind rfl rfl) rfl
    rw [varDef.initializer, varDef.initializer, accept?_mark, accept?_mark]
    exact seen_bind ih rfl
  | quick _ ih =>
    rw [stmt, stmt]
    exact seen_bind (seen_bind ih <| seen_bind_congr _ <| seen_bind rfl rfl) rfl
  | returned hsemi _ ih =>
    rw [stmt, stmt]
    refine seen_bind ?_ rfl
    rw [returnStmt, returnStmt, accept?_ne hsemi, accept?_ne (by rwa [hahead])]
    exact seen_bind ih <| seen_bind rfl rfl
  | cond hk _ ih =>
    rcases hk with rfl | rfl <;> rw [stmt, stmt]
    · exact seen_bind ih <| seen_bind rfl rfl
    · exact seen_bind ih <| seen_bind rfl <| seen_bind rfl rfl
  | body hk he _ ih =>
    have he' := (expr_local he).swap hpeek
    rcases hk with rfl | rfl <;> rw [stmt, stmt]
    · exact he.seen_bind he' <| seen_bind ih rfl
    · exact he.seen_bind he' <| seen_bind ih <| seen_bind rfl rfl
  | otherwise he hb _ ih =>
    have he' := (expr_local he).swap hpeek
    have hb' := ((block_parses _ _ hb).local.imp Parses.given).swap hpeek
    rw [stmt, stmt]
    exact he.seen_bind he' <| hb.seen_bind hb' <| seen_bind ih rfl
  | braces _ ih =>
    rw [stmt, stmt]
    exact seen_bind (blockTail_same ih) rfl
  | target hfirst hcolon hquick _ ih =>
    rw [stmt_eq_exprStmt_of_peek hfirst hcolon hquick, stmt_eq_exprStmt_of_peek
      (by rwa [hahead])
      (peek_tail_swap _ (by decide) hcolon) (peek_tail_swap _ (by decide) hquick)]
    refine seen_bind (seen_bind ih fun {_ after _ _} => ?_) rfl
    dsimp only
    cases accept? (.punct .assign) after with
    | none => exact seen_bind rfl rfl
    | some mark => exact seen_bind rfl <| seen_bind_congr _ <| seen_bind rfl rfl
  | assigned he _ ih =>
    have he' := (expr_local he).drop.swap hpeek
    rw [stmt_of_expr he (.inr rfl), stmt_of_expr he' (.inr rfl)]
    refine seen_bind (he.seen_bind he' ?_) rfl
    dsimp only
    rw [accept?_mark, accept?_mark]
    exact seen_bind ih <| seen_bind_congr _ <| seen_bind rfl rfl
  | elifCond _ ih =>
    rw [alternative, alternative]
    exact seen_bind ih <| seen_bind rfl <| seen_bind rfl rfl
  | elifBody he _ ih =>
    have he' := (expr_local he).swap hpeek
    rw [alternative, alternative]
    exact he.seen_bind he' <| seen_bind ih <| seen_bind rfl rfl
  | elifOtherwise he hb _ ih =>
    have he' := (expr_local he).swap hpeek
    have hb' := ((block_parses _ _ hb).local.imp Parses.given).swap hpeek
    rw [alternative, alternative]
    exact he.seen_bind he' <| hb.seen_bind hb' <| seen_bind ih rfl
  | elseBody _ ih =>
    rw [alternative, alternative]
    exact seen_bind ih rfl
  | inBlock _ ih =>
    rw [block, block]
    exact (expect_mark _ _ _).seen_bind (expect_mark _ _ _) <| seen_bind (blockTail_same ih) rfl
  | left _ ih =>
    rw [exprAt, exprAt]
    exact seen_bind ih <| seen_bind rfl rfl
  | right he _ ih =>
    have he' := ((operand_builds _ _ he).local.imp Builds.given).swap hpeek
    rw [exprAt, exprAt]
    exact he.seen_bind he' <| seen_bind ih rfl
  | rhs hop hlevel _ ih =>
    rw [binaryTail_cons, binaryTail_cons, hop]
    dsimp only
    rw [if_pos hlevel, if_pos hlevel]
    exact seen_bind ih <| seen_bind rfl rfl
  | onward hop hlevel he _ ih =>
    have he' := ((exprAt_builds _ _ _ he).local.imp Builds.given).swap hpeek
    rw [binaryTail_cons, binaryTail_cons, hop]
    dsimp only
    rw [if_pos hlevel, if_pos hlevel]
    exact he.seen_bind he' <| seen_bind ih rfl
  | here hops => exact operand_same hpeek [] hops hhere
  | @paren _ s _ mid hops _ ih =>
    refine operand_same hpeek (⟨.punct .lParen, s⟩ :: mid) hops (chain_same ?_)
    rw [List.cons_append, List.cons_append, primary, primary]
    exact seen_bind ih <| seen_bind rfl rfl
  | suffixed hops hfirst _ ih =>
    have hfirst' := ((primary_builds _ _ hfirst).local.imp Builds.given).swap hpeek
    refine operand_same hpeek _ hops ?_
    rw [hfirst.chain_eq, hfirst'.chain_eq]
    exact ih
  | args _ ih =>
    rw [postfixTail, postfixTail, accept?_mark, accept?_mark]
    exact seen_bind ih <| seen_bind rfl <| seen_bind rfl rfl
  | called hargs _ ih =>
    have hargs' := ((arguments_builds _ _ hargs).local.imp Builds.given).drop.swap hpeek
    rw [postfixTail, postfixTail, accept?_mark, accept?_mark]
    exact hargs.seen_bind hargs' <| (expect_mark _ _ _).seen_bind (expect_mark _ _ _) <|
      seen_bind ih rfl
  | @member env _ _ field arrow _ _ ih =>
    have hfield (ts : List Token) :
        Gives (identifier env (⟨.identifier field.name, field.span⟩ :: ts)) field ts := .done
    cases arrow <;> rw [postfixTail, postfixTail] <;>
      exact (hfield _).seen_bind (hfield _) <| seen_bind ih rfl
  | argument hends _ ih =>
    rw [arguments, arguments, if_neg (by simp [hends]),
      if_neg (by simpa [endsAt, hahead] using hends)]
    refine seen_bind ih fun {_ after _ _} => ?_
    dsimp only
    cases accept? (.punct .comma) after with
    | none => dsimp only; split <;> rfl
    | some comma => exact seen_bind rfl rfl
  | nextArgument hends he _ ih =>
    have he' := ((exprAt_builds _ _ _ he).local.imp Builds.given).drop.swap hpeek
    rw [arguments, arguments, if_neg (by simp [hends]),
      if_neg (by simpa [endsAt, hahead] using hends)]
    refine he.seen_bind he' ?_
    dsimp only
    rw [accept?_mark, accept?_mark]
    exact seen_bind ih rfl

end Swap

theorem isFunction_eq {env : Env} {e : Expr} {ty : Ty} (h : e.infer env.scopes = .ok ty) :
    isFunction env e = ty.isFunction := by
  rw [isFunction, h]

section Functions

variable {env : Env} {f : Ident} {ret : Ty} {levels : Int} {rest : List Token}

/-- The name alone is called once, whatever comes of it. -/
theorem chain_bare (hf : (Expr.ident f).infer env.scopes = .ok (.fn ret levels))
    (hlevels : levels ≤ 0) (hnext : NoSuffix rest) :
    chain env (bare f rest) = .ok (.call (.ident f) [] f.span, rest) := by
  have hname : Gives (primary env (bare f rest)) (.ident f) rest := (Builds.ident rfl).given
  have hcall : Builds env rest (.suffixes (.ident f) _) rest := .noSuffix hnext
  have hfn : (Ty.fn ret levels).isFunction = true := Ty.isFunction_fn.mpr hlevels
  rw [isFunction_eq hf, if_pos hfn] at hcall
  rw [hname.chain_eq, hcall.given.seen_eq]
  rfl

/-- With an argument list, what comes of it is called as well if it is a function. -/
theorem chain_emptyCall (hf : (Expr.ident f).infer env.scopes = .ok (.fn ret levels))
    (hnext : NoSuffix rest) : chain env (emptyCall f rest) =
      .ok (if ret.isFunction then .call (.call (.ident f) [] f.span) [] f.span
        else .call (.ident f) [] f.span, rest) := by
  have hname : Gives (primary env (emptyCall f rest)) (.ident f) _ := (Builds.ident rfl).given
  have hret : (Expr.call (.ident f) [] f.span).infer env.scopes = .ok ret := by
    rw [Expr.infer, hf]
    rfl
  have hcall : Builds env (⟨.punct .lParen, f.span⟩ :: ⟨.punct .rParen, f.span⟩ :: rest)
      (.suffixes (.ident f) _) rest := .call (.noArgument rfl) (.noSuffix hnext)
  rw [show (Expr.ident f).span.through f.span = f.span from f.span.through_self,
    isFunction_eq hret] at hcall
  rw [hname.chain_eq, hcall.given.seen_eq]
  rfl

end Functions

end Grammar

/-- What is read of a text, but for places, once it has been cut into tokens. -/
def readUnplaced (src : String) : Except (Located Fault) (Except (Located ParseError) Program) :=
  (tokenize src).map fun ts =>
    relocated (fun _ => .nowhere) Program.unplaced (Program.ofTokens (Text.endSpan src) ts)

/-- The text `src'` is `src` but for layout and for an empty argument list after an operand: the
name of a function that returns `ret`, with neither arguments nor a member after it. -/
structure CallWritten (src src' : String) (front : List Token) (f : Ident) (rest : List Token)
    (env : Grammar.Env) (ret : Ty) : Prop where
  scan : tokenize src = .ok (front ++ Grammar.bare f rest)
  scan' : (tokenize src').toOption.map (·.map fun t => (t.kind, t.lexeme.text?)) =
    some ((front ++ Grammar.emptyCall f rest).map fun t => (t.kind, t.lexeme.text?))
  comes : Grammar.Comes env (Grammar.bare f rest) .program ⟨Text.endSpan src, .start⟩ front
  bound : ∃ levels ≤ 0, (env.scopes.find? f.name).map (·.ty) = some (.fn ret levels)
  next : Grammar.NoSuffix rest

/-- The name of a function as an operand may be written with an empty argument list if the function
returns no function: the text is read to the same end, to the same tree but for places, and so is
checked and lowered to the same end. A function that returns a function is called once for its name,
and twice for its name with an empty argument list. -/
theorem bare_name_is_empty_call (moduleName src src' : String) (front : List Token) (f : Ident)
    (rest : List Token) (env : Grammar.Env) (ret : Ty)
    (h : CallWritten src src' front f rest env ret) :
    (ret.isFunction = false →
      readUnplaced src' = readUnplaced src ∧ judged moduleName src' = judged moduleName src) ∧
    Grammar.chain env (Grammar.bare f rest) = .ok (.call (.ident f) [] f.span, rest) ∧
    Grammar.chain env (Grammar.emptyCall f rest) =
      .ok (if ret.isFunction then .call (.call (.ident f) [] f.span) [] f.span
        else .call (.ident f) [] f.span, rest) := by
  obtain ⟨levels, hlevels, hbound⟩ := h.bound
  obtain ⟨b, hb, hty⟩ := Option.map_eq_some_iff.mp hbound
  have hf : (Expr.ident f).infer env.scopes = .ok (.fn ret levels) := by rw [Expr.infer, hb, ← hty]
  have hbare := Grammar.chain_bare hf hlevels h.next
  have hempty := Grammar.chain_emptyCall hf h.next
  refine ⟨fun hret => ?_, hbare, hempty⟩
  obtain ⟨ts', hscan', hlexemes⟩ := Option.map_eq_some_iff.mp h.scan'
  rw [toOption_eq_some] at hscan'
  have hread : Program.ofTokens (Text.endSpan src) (front ++ Grammar.bare f rest) =
      Program.ofTokens (Text.endSpan src) (front ++ Grammar.emptyCall f rest) :=
    h.comes.same (by rw [hbare, hempty, hret]; rfl)
  constructor
  · have hmoved := Program.ofTokens_relocate keepsStretches_nowhere (Text.endSpan src') ts'
    rw [Token.map_relocate_nowhere_eq hlexemes] at hmoved
    rw [readUnplaced, readUnplaced, h.scan, hscan']
    simp only [Except.map, hread]
    exact congrArg Except.ok (hmoved.symm.trans
      (Program.ofTokens_relocate keepsStretches_nowhere (Text.endSpan src) _))
  · have hverdict := verdict_eq_of_lexemes moduleName (Text.endSpan src')
      (Text.endSpan src) hlexemes
    rw [verdict, verdict, ← hread] at hverdict
    rw [judged, judged, h.scan, hscan']
    exact congrArg Except.ok hverdict

/-- `printf` is known from the start. -/
theorem callWritten_printf : CallWritten "x := -printf;" "x := -printf();"
    [⟨.identifier "x", ⟨0, 1, ⟨1, 1⟩⟩⟩, ⟨.punct .quickAssign, ⟨2, 2, ⟨1, 3⟩⟩⟩,
      ⟨.punct .minus, ⟨5, 1, ⟨1, 6⟩⟩⟩]
    ⟨"printf", ⟨6, 6, ⟨1, 7⟩⟩⟩ [⟨.punct .semicolon, ⟨12, 1, ⟨1, 13⟩⟩⟩]
    ⟨Text.endSpan "x := -printf;", .start⟩ .i32 where
  scan := toOption_eq_some.mp (by decide +kernel)
  scan' := by decide +kernel
  comes := .top rfl (.quick (.left (.here rfl)))
  bound := ⟨0, Int.le_refl 0, by decide +kernel⟩
  next := ⟨by decide, by decide, by decide⟩

theorem bare_printf_is_empty_call :
    readUnplaced "x := -printf();" = readUnplaced "x := -printf;" ∧
      judged "m" "x := -printf();" = judged "m" "x := -printf;" :=
  (bare_name_is_empty_call "m" _ _ _ _ _ _ _ callWritten_printf).1 rfl

/-- Types of the variables in the bodies of functions. -/
def Program.innerTypes (p : Program) : List Ty :=
  p.flatMap fun
    | .fnDef _ body _ => body.filterMap fun
      | .varDef _ ty _ _ => some ty
      | _ => none
    | _ => []

/-- The function returns a function, and the variable gets another type if the call is written. -/
theorem bare_name_is_not_empty_call :
    surveyed "f : fn fn i32 \x7b x := f; \x7d" (fun p _ _ => some p.innerTypes) =
      some [.fn .i32 0] ∧
    surveyed "f : fn fn i32 \x7b x := f(); \x7d" (fun p _ _ => some p.innerTypes) =
      some [.i32] := by
  decide +kernel

end Frontend
