import Frontend.Grammar.Statements
import Frontend.Proofs.Parses

/-!
What readers of statements do when they succeed, as derivations: which tokens stand where, which
expressions and types are read between them, and with which names each part is read.
-/
namespace Frontend

namespace Grammar

section Readers

variable {env : Env} {ts rest : List Token}

theorem leave_eq_ok {s : Span} {names outer : Names} :
    leave s names = .ok outer ↔ names.leave? = some outer := by
  unfold leave
  cases names.leave? <;> simp

variable {ty : Ty} {p : Param} {ps : List Param} {more : Bool}

theorem infer_eq_ok {e : Expr} : infer env e = .ok ty ↔ e.infer env.scopes = .ok ty := by
  unfold infer
  cases e.infer env.scopes <;> simp [Except.mapError]

theorem peek_ne_keyword {k : Keyword} (h : ∀ s us, ts = ⟨.keyword k, s⟩ :: us → False) :
    peek ts ≠ .keyword k := by
  intro hk
  cases ts with
  | nil => cases hk
  | cons t us => exact h t.span us (by rw [← Lexeme.kind_eq_keyword.mp hk])

/-- The value, or what a coercion makes of it. -/
theorem assigned_inv {target : Ident} {e e' : Expr} (h : assigned env target e = .ok e') :
    ∃ b, env.scopes.find? target.name = some b ∧
      (e' = e ∧ e.infer env.scopes = .ok b.ty ∨ e.coerce? b.ty = some e') := by
  unfold assigned at h
  split at h
  · cases h
  next b hb =>
    obtain ⟨actual, hactual, h⟩ := bind_eq_ok.mp h
    refine ⟨b, hb, ?_⟩
    dsimp only at h
    split at h
    next hc =>
      obtain rfl := Except.ok.inj h
      exact .inr (by split at hc <;> simp_all)
    next =>
      split at h
      next hty =>
        obtain rfl := Except.ok.inj h
        exact .inl ⟨rfl, hty ▸ infer_eq_ok.mp hactual⟩
      next => cases h

/-- A name, a colon and a type. -/
theorem param_inv (h : Gives (param env ts) p rest) :
    ∃ s last mid, ts = ⟨.identifier p.name.name, p.name.span⟩ :: ⟨.punct .colon, s⟩ :: mid ∧
      Gives (typeExpr env.eof mid) (p.ty, last) rest := by
  obtain ⟨name, afterName, _, hname, h⟩ := gives_step h
  obtain ⟨colon, mid, _, hcolon, h⟩ := gives_step h
  obtain ⟨⟨ty, last⟩, _, _, hty, h⟩ := gives_step h
  obtain ⟨rfl, rfl⟩ := gives_ok.mp h
  obtain ⟨s, rfl, rfl⟩ := expect_punct hcolon
  exact ⟨s, last, mid, identifier_inv hname, hty⟩

theorem returnType_inv {eof : Span} (h : Gives (returnType eof ts) ty rest) :
    (∃ last, Gives (typeExpr eof ts) (ty, last) rest) ∨
      startsType (peek ts) = false ∧ ty = .void ∧ rest = ts := by
  unfold returnType at h
  split at h
  · obtain ⟨⟨ty', last⟩, _, _, hty, h⟩ := gives_step h
    obtain ⟨rfl, rfl⟩ := gives_ok.mp h
    exact .inl ⟨last, hty⟩
  · rename_i hts
    obtain ⟨rfl, rfl⟩ := gives_ok.mp h
    exact .inr ⟨Bool.eq_false_iff.mpr hts, rfl, rfl⟩

end Readers

/-- Members of a struct and the names with them. -/
inductive ParsesMembers : Env → List Token → List Param → Names → List Token → Prop where
  | nil {env ts} : endsAt (.punct .rBrace) ts → ParsesMembers env ts [] env.scopes ts
  | cons {env p s ts mid ps names rest} : Gives (param env ts) p (⟨.punct .semicolon, s⟩ :: mid) →
      ParsesMembers (env.add p.name.name p.ty) mid ps names rest →
      ParsesMembers env ts (p :: ps) names rest

theorem members_parses (env : Env) (ts : List Token) {ps : List Param} {names : Names}
    {rest : List Token} (h : Gives (members env ts) (ps, names) rest) :
    ParsesMembers env ts ps names rest := by
  unfold members at h
  split at h
  · rename_i hends
    obtain ⟨⟨⟩, rfl⟩ := gives_ok.mp h
    exact .nil hends
  · obtain ⟨p, afterParam, hlt, hp, h⟩ := gives_step h
    obtain ⟨semi, mid, hlt', hsemi, h⟩ := gives_step h
    obtain ⟨⟨ps', names'⟩, _, _, hps, h⟩ := gives_step h
    have hdec := Nat.lt_trans hlt' hlt
    obtain ⟨⟨⟩, rfl⟩ := gives_ok.mp h
    obtain ⟨s, rfl, rfl⟩ := expect_punct hsemi
    exact .cons hp (members_parses _ mid hps)
termination_by ts.length

/-- Parameters, whether more arguments may follow them, and the names with them. -/
inductive ParsesParams : Env → List Token → List Param → Bool → Names → List Token → Prop where
  | nil {env ts} : endsAt (.punct .rParen) ts → ParsesParams env ts [] false env.scopes ts
  | variadic {env s ts} : ParsesParams env (⟨.punct .variadic, s⟩ :: ts) [] true env.scopes ts
  | last {env p ts rest} : Gives (param env ts) p rest → peek rest ≠ .punct .comma →
      ParsesParams env ts [p] false (env.add p.name.name p.ty).scopes rest
  | cons {env p s ts mid ps more names rest} : Gives (param env ts) p (⟨.punct .comma, s⟩ :: mid) →
      ParsesParams (env.add p.name.name p.ty) mid ps more names rest →
      ParsesParams env ts (p :: ps) more names rest

theorem params_parses (env : Env) (ts : List Token) {ps : List Param} {more : Bool} {names : Names}
    {rest : List Token} (h : Gives (params env ts) (ps, more, names) rest) :
    ParsesParams env ts ps more names rest := by
  unfold params at h
  split at h
  · rename_i hends
    obtain ⟨⟨⟩, rfl⟩ := gives_ok.mp h
    exact .nil hends
  · split at h
    · rename_i hdots
      obtain ⟨s, _, _, rfl, rfl⟩ := accept?_punct hdots
      obtain ⟨⟨⟩, rfl⟩ := gives_ok.mp h
      exact .variadic
    · obtain ⟨p, afterParam, hlt, hp, h⟩ := gives_step h
      dsimp only at h
      split at h
      · rename_i hnone
        obtain ⟨⟨⟩, rfl⟩ := gives_ok.mp h
        exact .last hp ((accept?_eq_none (by decide)).mp hnone)
      · rename_i hcomma
        obtain ⟨s, mid, hlt', rfl, rfl⟩ := accept?_punct hcomma
        have hdec := Nat.lt_trans hlt' hlt
        obtain ⟨⟨ps', more', names'⟩, _, _, hps, h⟩ := gives_step h
        obtain ⟨⟨⟩, rfl⟩ := gives_ok.mp h
        exact .cons hp (params_parses _ mid hps)
termination_by ts.length

/-- A parameter list, which may be left out. -/
inductive ParsesParamList (env : Env) : List Token → List Param → Bool → Names → List Token → Prop
    where
  | none {ts} : peek ts ≠ .punct .lParen → ParsesParamList env ts [] false env.scopes ts
  | parens {s s' ts ps more names rest} :
      ParsesParams env ts ps more names (⟨.punct .rParen, s'⟩ :: rest) →
      ParsesParamList env (⟨.punct .lParen, s⟩ :: ts) ps more names rest

theorem paramList_parses {env : Env} {ts rest : List Token} {names : Names}
    (h : Gives (paramList env ts) (ps, more, names) rest) :
    ParsesParamList env ts ps more names rest := by
  unfold paramList at h
  split at h
  · rename_i hnone
    obtain ⟨⟨⟩, rfl⟩ := gives_ok.mp h
    exact .none ((accept?_eq_none (by decide)).mp hnone)
  · rename_i hmark
    obtain ⟨s, mid, _, rfl, rfl⟩ := accept?_punct hmark
    obtain ⟨⟨ps', more', names'⟩, _, _, hps, h⟩ := gives_step h
    obtain ⟨close, _, _, hclose, h⟩ := gives_step h
    obtain ⟨⟨⟩, rfl⟩ := gives_ok.mp h
    obtain ⟨s', rfl, rfl⟩ := expect_punct hclose
    exact .parens (params_parses env mid hps)

/-- What follows `fn`: the return type, and the parameters in a scope of their own. -/
inductive ParsesSignature (env : Env) : List Token → Signature → Names → List Token → Prop where
  | mk {name ret ts mid ps more names rest} : Gives (returnType env.eof ts) ret mid →
      ParsesParamList { env with scopes := (env.add name.name (.fn ret 0)).scopes.enter }
        mid ps more names rest →
      ParsesSignature env ts ⟨name, ret, ps, more⟩ names rest

/-- What is read where statements stand: one of them, those up to the end of a scope, those in
braces with the span of the brace that closes them, or what follows the body of an `if`, with the
span that the `if` ends with. -/
inductive Phrase where
  | stmt (s : Stmt)
  | stmts (ss : List Stmt)
  | block (ss : List Stmt) (close : Span)
  | alternative (last : Span) (a : Alternative) (close : Span)

/-- What is read is as `S` says of statements, `B` of bodies and `A` of alternatives. -/
def Phrase.Each (S : Stmt → Prop) (B : List Stmt → Prop) (A : Alternative → Prop) : Phrase → Prop
  | .stmt s => S s
  | .stmts ss | .block ss _ => B ss
  | .alternative _ a _ => A a

/-- From these tokens the phrase is read with the names of `env`. Other names are known after it,
and the rest of the tokens is left. -/
inductive Parses : Env → List Token → Phrase → Names → List Token → Prop where
  | structDef {env name s₁ s₂ s₃ close ts ms inner outer rest} :
      ParsesMembers { env with scopes := env.scopes.enterMarked (membersMarker name.name) () } ts ms
        inner (⟨.punct .rBrace, close⟩ :: rest) →
      inner.leave? = some outer →
      Parses env (⟨.identifier name.name, name.span⟩ :: ⟨.punct .colon, s₁⟩ ::
          ⟨.keyword .struct, s₂⟩ :: ⟨.punct .lBrace, s₃⟩ :: ts)
        (.stmt (.structDef name ms (name.span.through close)))
        (outer.add ⟨name.name, .struct name.name 0, .none, some env.scopes.size, ()⟩) rest
  | fnDecl {env sig s₁ s₂ close ts inner outer rest} :
      ParsesSignature env ts sig inner (⟨.punct .semicolon, close⟩ :: rest) →
      inner.leave? = some outer →
      Parses env (⟨.identifier sig.name.name, sig.name.span⟩ :: ⟨.punct .colon, s₁⟩ ::
          ⟨.keyword .fn, s₂⟩ :: ts)
        (.stmt (.fnDecl sig (sig.name.span.through close))) outer rest
  | fnDef {env sig s₁ s₂ s₃ close ts mid body inner names outer rest} :
      ParsesSignature env ts sig inner (⟨.punct .lBrace, s₃⟩ :: mid) →
      Parses { env with scopes := inner } mid (.stmts body) names
      (⟨.punct .rBrace, close⟩ :: rest) →
      names.leave? = some outer →
      Parses env (⟨.identifier sig.name.name, sig.name.span⟩ :: ⟨.punct .colon, s₁⟩ ::
          ⟨.keyword .fn, s₂⟩ :: ts)
        (.stmt (.fnDef sig body (sig.name.span.through close))) outer rest
  | varDef {env name s₁ last close ts ty rest} : peek ts ≠ .keyword .fn →
      Gives (typeExpr env.eof ts) (ty, last) (⟨.punct .semicolon, close⟩ :: rest) →
      Parses env (⟨.identifier name.name, name.span⟩ :: ⟨.punct .colon, s₁⟩ :: ts)
        (.stmt (.varDef name ty none (name.span.through close))) (env.add name.name ty).scopes rest
  | varInit {env name s₁ s₂ last close ts mid ty e rest} : peek ts ≠ .keyword .fn →
      Gives (typeExpr env.eof ts) (ty, last) (⟨.punct .assign, s₂⟩ :: mid) →
      Gives (expr env mid) e (⟨.punct .semicolon, close⟩ :: rest) →
      Parses env (⟨.identifier name.name, name.span⟩ :: ⟨.punct .colon, s₁⟩ :: ts)
        (.stmt (.varDef name ty (some e) (name.span.through close)))
        (env.add name.name ty).scopes rest
  | quickDef {env name s₁ close ts ty e rest} :
      Gives (expr env ts) e (⟨.punct .semicolon, close⟩ :: rest) → e.infer env.scopes = .ok ty →
      Parses env (⟨.identifier name.name, name.span⟩ :: ⟨.punct .quickAssign, s₁⟩ :: ts)
        (.stmt (.varDef name ty (some e) (name.span.through close)))
        (env.add name.name ty).scopes rest
  | expr {env close ts e rest} : Gives (expr env ts) e (⟨.punct .semicolon, close⟩ :: rest) →
      Parses env ts (.stmt (.expr e (e.span.through close))) env.scopes rest
  | varSet {env target s₁ close ts mid e e' rest} :
      Gives (Grammar.expr env ts) (.ident target) (⟨.punct .assign, s₁⟩ :: mid) →
      Gives (Grammar.expr env mid) e (⟨.punct .semicolon, close⟩ :: rest) →
      assigned env target e = .ok e' →
      Parses env ts (.stmt (.varSet target e' (target.span.through close))) env.scopes rest
  | memberSet {env object field arrow s s₁ close ts mid e rest} :
      Gives (Grammar.expr env ts) (.member object field arrow s) (⟨.punct .assign, s₁⟩ :: mid) →
      Gives (Grammar.expr env mid) e (⟨.punct .semicolon, close⟩ :: rest) →
      Parses env ts (.stmt (.memberSet (.member object field arrow s) e (s.through close)))
        env.scopes rest
  | return_ {env s close rest} :
      Parses env (⟨.keyword .return_, s⟩ :: ⟨.punct .semicolon, close⟩ :: rest)
        (.stmt (.return_ none (s.through close))) env.scopes rest
  | returnValue {env s close ts e rest} :
      Gives (Grammar.expr env ts) e (⟨.punct .semicolon, close⟩ :: rest) →
      Parses env (⟨.keyword .return_, s⟩ :: ts) (.stmt (.return_ (some e) (s.through close)))
        env.scopes rest
  | break_ {env s close rest} :
      Parses env (⟨.keyword .break_, s⟩ :: ⟨.punct .semicolon, close⟩ :: rest)
        (.stmt (.break_ (s.through close))) env.scopes rest
  | for_ {env s close ts mid cond body outer rest} : Gives (Grammar.expr env ts) cond mid →
      Parses env mid (.block body close) outer rest →
      Parses env (⟨.keyword .for_, s⟩ :: ts) (.stmt (.for_ cond body (s.through close))) outer rest
  | if_ {env s last close ts mid after cond body otherwise names outer rest} :
      Gives (Grammar.expr env ts) cond mid → Parses env mid (.block body last) names after →
      Parses { env with scopes := names } after (.alternative last otherwise close) outer rest →
      Parses env (⟨.keyword .if_, s⟩ :: ts) (.stmt (.if_ cond body otherwise (s.through close)))
        outer rest
  | braces {env s close ts body names outer rest} :
      Parses { env with scopes := env.scopes.enter } ts (.stmts body) names
        (⟨.punct .rBrace, close⟩ :: rest) →
      names.leave? = some outer →
      Parses env (⟨.punct .lBrace, s⟩ :: ts) (.stmt (.block body (s.through close))) outer rest
  | none {env last ts} : peek ts ≠ .keyword .elif → peek ts ≠ .keyword .else_ →
      Parses env ts (.alternative last .none last) env.scopes ts
  | else_ {env s last close ts body outer rest} : Parses env ts (.block body close) outer rest →
      Parses env (⟨.keyword .else_, s⟩ :: ts) (.alternative last (.else_ body) close) outer rest
  | elif {env s last next close ts mid after cond body otherwise names outer rest} :
      Gives (Grammar.expr env ts) cond mid → Parses env mid (.block body next) names after →
      Parses { env with scopes := names } after (.alternative next otherwise close) outer rest →
      Parses env (⟨.keyword .elif, s⟩ :: ts) (.alternative last (.elif cond body otherwise) close)
        outer rest
  | block {env s close ts body names outer rest} :
      Parses { env with scopes := env.scopes.enter } ts (.stmts body) names
        (⟨.punct .rBrace, close⟩ :: rest) →
      names.leave? = some outer →
      Parses env (⟨.punct .lBrace, s⟩ :: ts) (.block body close) outer rest
  | nil {env ts} : endsAt (.punct .rBrace) ts → Parses env ts (.stmts []) env.scopes ts
  | cons {env ts s names mid ss outer rest} : endsAt (.punct .rBrace) ts = false →
      Parses env ts (.stmt s) names mid →
      Parses { env with scopes := names } mid (.stmts ss) outer rest →
      Parses env ts (.stmts (s :: ss)) outer rest

section Statements

variable {env : Env} {ts rest : List Token} {name : Ident} {s s₁ s₂ : Span} {r : Stmt}
  {names : Names}

theorem structDef_parses (h : Gives (structDef env name ts) (r, names) rest) :
    Parses env (⟨.identifier name.name, name.span⟩ :: ⟨.punct .colon, s₁⟩ ::
      ⟨.keyword .struct, s₂⟩ :: ts) (.stmt r) names rest := by
  obtain ⟨mark, mid, _, hmark, h⟩ := gives_step h
  obtain ⟨⟨ms, inner⟩, _, _, hms, h⟩ := gives_step h
  obtain ⟨close, _, _, hclose, h⟩ := gives_step h
  obtain ⟨outer, houter, h⟩ := gives_bind.mp h
  obtain ⟨⟨⟩, rfl⟩ := gives_ok.mp h
  obtain ⟨_, rfl, rfl⟩ := expect_punct hmark
  obtain ⟨_, rfl, rfl⟩ := expect_punct hclose
  exact .structDef (members_parses _ mid hms) (leave_eq_ok.mp houter)

theorem varDef_parses (hfn : peek ts ≠ .keyword .fn)
    (h : Gives (varDef env name ts) (r, names) rest) :
    Parses env (⟨.identifier name.name, name.span⟩ :: ⟨.punct .colon, s₁⟩ :: ts)
      (.stmt r) names rest := by
  obtain ⟨⟨ty, last⟩, afterType, _, hty, h⟩ := gives_step h
  obtain ⟨init, afterInit, _, hinit, h⟩ := gives_step h
  obtain ⟨semi, _, _, hsemi, h⟩ := gives_step h
  obtain ⟨⟨⟩, rfl⟩ := gives_ok.mp h
  obtain ⟨_, rfl, rfl⟩ := expect_punct hsemi
  unfold varDef.initializer at hinit
  split at hinit
  · obtain ⟨rfl, rfl⟩ := gives_ok.mp hinit
    exact .varDef hfn hty
  · rename_i hmark
    obtain ⟨_, mid, _, rfl, rfl⟩ := accept?_punct hmark
    obtain ⟨e, _, _, he, hinit⟩ := gives_step hinit
    obtain ⟨rfl, rfl⟩ := gives_ok.mp hinit
    exact .varInit hfn hty he

theorem quickDef_parses (h : Gives (quickDef env name ts) (r, names) rest) :
    Parses env (⟨.identifier name.name, name.span⟩ :: ⟨.punct .quickAssign, s₁⟩ :: ts)
      (.stmt r) names rest := by
  obtain ⟨e, _, _, he, h⟩ := gives_step h
  obtain ⟨ty, hty, h⟩ := gives_bind.mp h
  obtain ⟨semi, _, _, hsemi, h⟩ := gives_step h
  obtain ⟨⟨⟩, rfl⟩ := gives_ok.mp h
  obtain ⟨_, rfl, rfl⟩ := expect_punct hsemi
  exact .quickDef he (infer_eq_ok.mp hty)

theorem exprStmt_parses (h : Gives (exprStmt env ts) r rest) :
    Parses env ts (.stmt r) env.scopes rest := by
  obtain ⟨target, afterTarget, _, htarget, h⟩ := gives_step h
  dsimp only at h
  split at h
  · obtain ⟨semi, _, _, hsemi, h⟩ := gives_step h
    obtain ⟨rfl, rfl⟩ := gives_ok.mp h
    obtain ⟨_, rfl, rfl⟩ := expect_punct hsemi
    exact .expr htarget
  · rename_i hmark
    obtain ⟨_, mid, _, rfl, rfl⟩ := accept?_punct hmark
    obtain ⟨e, _, _, he, h⟩ := gives_step h
    obtain ⟨make, hmake, h⟩ := gives_bind.mp h
    obtain ⟨semi, _, _, hsemi, h⟩ := gives_step h
    obtain ⟨rfl, rfl⟩ := gives_ok.mp h
    obtain ⟨_, rfl, rfl⟩ := expect_punct hsemi
    unfold assignment at hmake
    split at hmake
    · obtain ⟨e', he', hmake⟩ := bind_eq_ok.mp hmake
      obtain rfl := Except.ok.inj hmake
      exact .varSet htarget he he'
    · obtain rfl := Except.ok.inj hmake
      exact .memberSet htarget he
    · simp at hmake

theorem returnStmt_parses (h : Gives (returnStmt env s ts) r rest) :
    Parses env (⟨.keyword .return_, s⟩ :: ts) (.stmt r) env.scopes rest := by
  unfold returnStmt at h
  split at h
  · rename_i hsemi
    obtain ⟨_, _, _, rfl, rfl⟩ := accept?_punct hsemi
    obtain ⟨rfl, rfl⟩ := gives_ok.mp h
    exact .return_
  · obtain ⟨e, _, _, he, h⟩ := gives_step h
    obtain ⟨semi, _, _, hsemi, h⟩ := gives_step h
    obtain ⟨rfl, rfl⟩ := gives_ok.mp h
    obtain ⟨_, rfl, rfl⟩ := expect_punct hsemi
    exact .returnValue he

end Statements

mutual

theorem stmt_parses (env : Env) (ts : List Token) {s : Stmt} {names : Names} {rest : List Token}
    (h : Gives (stmt env ts) (s, names) rest) : Parses env ts (.stmt s) names rest := by
  unfold stmt at h
  split at h
  · obtain ⟨⟨_, _⟩, _, _, hr, h⟩ := gives_step h
    obtain ⟨⟨⟩, rfl⟩ := gives_ok.mp h
    exact structDef_parses hr
  · obtain ⟨⟨_, _⟩, _, _, hr, h⟩ := gives_step h
    obtain ⟨⟨⟩, rfl⟩ := gives_ok.mp h
    exact fnDef_parses env _ _ hr
  · rename_i hfn
    obtain ⟨⟨_, _⟩, _, _, hr, h⟩ := gives_step h
    obtain ⟨⟨⟩, rfl⟩ := gives_ok.mp h
    exact varDef_parses (peek_ne_keyword hfn) hr
  · obtain ⟨⟨_, _⟩, _, _, hr, h⟩ := gives_step h
    obtain ⟨⟨⟩, rfl⟩ := gives_ok.mp h
    exact quickDef_parses hr
  · obtain ⟨_, _, _, hr, h⟩ := gives_step h
    obtain ⟨⟨⟩, rfl⟩ := gives_ok.mp h
    exact returnStmt_parses hr
  · obtain ⟨semi, _, _, hsemi, h⟩ := gives_step h
    obtain ⟨⟨⟩, rfl⟩ := gives_ok.mp h
    obtain ⟨_, rfl, rfl⟩ := expect_punct hsemi
    exact .break_
  · obtain ⟨cond, afterCond, hlt, hcond, h⟩ := gives_step h
    obtain ⟨⟨body, close, outer⟩, _, _, hbody, h⟩ := gives_step h
    obtain ⟨⟨⟩, rfl⟩ := gives_ok.mp h
    exact .for_ hcond (block_parses env afterCond hbody)
  · obtain ⟨cond, afterCond, hlt, hcond, h⟩ := gives_step h
    obtain ⟨⟨body, last, outer⟩, afterBody, hlt', hbody, h⟩ := gives_step h
    obtain ⟨⟨otherwise, close, names⟩, _, _, hother, h⟩ := gives_step h
    obtain ⟨⟨⟩, rfl⟩ := gives_ok.mp h
    have hdec := Nat.lt_trans hlt' hlt
    exact .if_ hcond (block_parses env afterCond hbody) (alternative_parses _ _ afterBody hother)
  · obtain ⟨⟨body, close, outer⟩, _, _, hbody, h⟩ := gives_step h
    obtain ⟨⟨⟩, rfl⟩ := gives_ok.mp h
    obtain ⟨_, hbody, hl⟩ := blockTail_parses env _ hbody
    exact .braces hbody hl
  · obtain ⟨_, _, _, hr, h⟩ := gives_step h
    obtain ⟨⟨⟩, rfl⟩ := gives_ok.mp h
    exact exprStmt_parses hr
termination_by 3 * ts.length
decreasing_by
  all_goals subst_vars
  all_goals simp only [List.length_cons]
  all_goals omega

theorem fnDef_parses (env : Env) (name : Ident) (ts : List Token) {s : Stmt} {names : Names}
    {rest : List Token} {s₁ s₂ : Span} (h : Gives (fnDef env name ts) (s, names) rest) :
    Parses env (⟨.identifier name.name, name.span⟩ :: ⟨.punct .colon, s₁⟩ ::
      ⟨.keyword .fn, s₂⟩ :: ts) (.stmt s) names rest := by
  unfold fnDef at h
  obtain ⟨ret, afterRet, hlt, hret, h⟩ := gives_step h
  obtain ⟨⟨ps, more, inner⟩, afterParams, hlt', hps, h⟩ := gives_step h
  have hsig : ParsesSignature env ts ⟨name, ret, ps, more⟩ inner afterParams :=
    .mk hret (paramList_parses hps)
  dsimp only at h
  split at h
  · rename_i hsemi
    obtain ⟨_, _, _, rfl, rfl⟩ := accept?_punct hsemi
    obtain ⟨outer, houter, h⟩ := gives_bind.mp h
    obtain ⟨⟨⟩, rfl⟩ := gives_ok.mp h
    exact .fnDecl hsig (leave_eq_ok.mp houter)
  · obtain ⟨mark, mid, hlt'', hmark, h⟩ := gives_step h
    obtain ⟨⟨body, after⟩, _, _, hbody, h⟩ := gives_step h
    obtain ⟨close, _, _, hclose, h⟩ := gives_step h
    obtain ⟨outer, houter, h⟩ := gives_bind.mp h
    obtain ⟨⟨⟩, rfl⟩ := gives_ok.mp h
    have hdec := Nat.lt_of_lt_of_le (Nat.lt_of_lt_of_le hlt'' (Nat.le_of_lt_succ hlt'))
      (Nat.le_of_lt_succ hlt)
    obtain ⟨_, rfl, rfl⟩ := expect_punct hmark
    obtain ⟨_, rfl, rfl⟩ := expect_punct hclose
    exact .fnDef hsig (stmts_parses _ mid hbody) (leave_eq_ok.mp houter)
termination_by 3 * ts.length

theorem alternative_parses (env : Env) (last : Span) (ts : List Token) {a : Alternative}
    {close : Span} {names : Names} {rest : List Token}
    (h : Gives (alternative env last ts) (a, close, names) rest) :
    Parses env ts (.alternative last a close) names rest := by
  unfold alternative at h
  split at h
  · obtain ⟨cond, afterCond, hlt, hcond, h⟩ := gives_step h
    obtain ⟨⟨body, next, outer⟩, afterBody, hlt', hbody, h⟩ := gives_step h
    obtain ⟨⟨otherwise, close, names⟩, _, _, hother, h⟩ := gives_step h
    obtain ⟨⟨⟩, rfl⟩ := gives_ok.mp h
    have hdec := Nat.lt_trans hlt' hlt
    exact .elif hcond (block_parses env afterCond hbody) (alternative_parses _ _ afterBody hother)
  · obtain ⟨⟨body, close, outer⟩, _, _, hbody, h⟩ := gives_step h
    obtain ⟨⟨⟩, rfl⟩ := gives_ok.mp h
    exact .else_ (block_parses env _ hbody)
  · rename_i helif helse
    obtain ⟨⟨⟩, rfl⟩ := gives_ok.mp h
    exact .none (peek_ne_keyword helif) (peek_ne_keyword helse)
termination_by 3 * ts.length
decreasing_by
  all_goals subst_vars
  all_goals simp only [List.length_cons]
  all_goals omega

theorem block_parses (env : Env) (ts : List Token) {body : List Stmt} {close : Span} {names : Names}
    {rest : List Token} (h : Gives (block env ts) (body, close, names) rest) :
    Parses env ts (.block body close) names rest := by
  unfold block at h
  obtain ⟨mark, mid, hlt, hmark, h⟩ := gives_step h
  obtain ⟨⟨_, _, _⟩, _, _, hbody, h⟩ := gives_step h
  obtain ⟨⟨⟩, rfl⟩ := gives_ok.mp h
  obtain ⟨_, rfl, rfl⟩ := expect_punct hmark
  obtain ⟨_, hbody, hl⟩ := blockTail_parses env mid hbody
  exact .block hbody hl
termination_by 3 * ts.length

theorem blockTail_parses (env : Env) (ts : List Token) {body : List Stmt} {close : Span}
    {outer : Names} {rest : List Token} (h : Gives (blockTail env ts) (body, close, outer) rest) :
    ∃ names, Parses { env with scopes := env.scopes.enter } ts (.stmts body) names
      (⟨.punct .rBrace, close⟩ :: rest) ∧ names.leave? = some outer := by
  unfold blockTail at h
  obtain ⟨⟨_, inner⟩, _, _, hbody, h⟩ := gives_step h
  obtain ⟨mark, _, _, hmark, h⟩ := gives_step h
  obtain ⟨outer, houter, h⟩ := gives_bind.mp h
  obtain ⟨⟨⟩, rfl⟩ := gives_ok.mp h
  obtain ⟨_, rfl, rfl⟩ := expect_punct hmark
  exact ⟨inner, stmts_parses _ ts hbody, leave_eq_ok.mp houter⟩
termination_by 3 * ts.length + 2

theorem stmts_parses (env : Env) (ts : List Token) {ss : List Stmt} {names : Names}
    {rest : List Token}
    (h : Gives (stmts env ts) (ss, names) rest) : Parses env ts (.stmts ss) names rest := by
  unfold stmts at h
  split at h
  · rename_i hends
    obtain ⟨⟨⟩, rfl⟩ := gives_ok.mp h
    exact .nil hends
  · rename_i hends
    obtain ⟨⟨s, after⟩, mid, hlt, hs, h⟩ := gives_step h
    obtain ⟨⟨_, _⟩, _, _, hss, h⟩ := gives_step h
    obtain ⟨⟨⟩, rfl⟩ := gives_ok.mp h
    exact .cons (Bool.eq_false_iff.mpr hends) (stmt_parses env ts hs) (stmts_parses _ mid hss)
termination_by 3 * ts.length + 1

end

section Locality

variable {env : Env} {ts rest : List Token} {names : Names}

theorem param_gives {s last : Span} (h : Gives (typeExpr env.eof ts) (p.ty, last) rest) :
    Gives (param env (⟨.identifier p.name.name, p.name.span⟩ :: ⟨.punct .colon, s⟩ :: ts))
      p rest := by
  have hname : Gives (identifier env (⟨.identifier p.name.name, p.name.span⟩ ::
      ⟨.punct .colon, s⟩ :: ts)) p.name (⟨.punct .colon, s⟩ :: ts) := gives_ok.mpr ⟨rfl, rfl⟩
  exact hname.bind fun _ => (expect_mark _ _ _).bind fun _ => h.bind fun _ => .done

theorem param_local (h : Gives (param env ts) p rest) :
    Local (fun ts rest => Gives (param env ts) p rest) ts rest := by
  obtain ⟨s, last, mid, rfl, hty⟩ := param_inv h
  exact (typeExpr_local hty).push [_, _] param_gives

theorem returnType_local {eof : Span} (h : Gives (returnType eof ts) ty rest) :
    Local (fun ts rest => Gives (returnType eof ts) ty rest) ts rest := by
  obtain ⟨_, hty⟩ | ⟨hnone, rfl, rfl⟩ := returnType_inv h
  · have hstarts := startsType_of_spelled (typeExpr_spelled hty).1
    refine (typeExpr_local hty).ahead.imp fun ⟨hpeek, _, hty⟩ => ?_
    rw [returnType, if_pos (by rwa [hpeek])]
    exact hty.bind fun _ => .done
  · refine .nil fun rest' hpeek => ?_
    rw [returnType, if_neg (by rw [hpeek, hnone]; decide)]
    exact .done

theorem ParsesMembers.local (h : ParsesMembers env ts ps names rest) :
    Local (fun ts rest => ParsesMembers env ts ps names rest) ts rest := by
  induction h with
  | nil hends => exact .nil fun rest' hpeek => .nil ((endsAt_congr hpeek).trans hends)
  | cons hp _ ih => exact ((param_local hp).drop.trans ih).imp fun ⟨_, h, h'⟩ => .cons h h'

theorem ParsesParams.local (h : ParsesParams env ts ps more names rest) :
    Local (fun ts rest => ParsesParams env ts ps more names rest) ts rest := by
  induction h with
  | nil hends => exact .nil fun rest' hpeek => .nil ((endsAt_congr hpeek).trans hends)
  | variadic => exact ⟨[_], rfl, fun _ _ => .variadic⟩
  | last hp hnext => exact (param_local hp).ahead.imp fun ⟨_, hpeek, h⟩ => .last h (by rwa [hpeek])
  | cons hp _ ih => exact ((param_local hp).drop.trans ih).imp fun ⟨_, h, h'⟩ => .cons h h'

theorem ParsesSignature.local {sig : Signature} (h : ParsesSignature env ts sig names rest) :
    Local (fun ts rest => ParsesSignature env ts sig names rest) ts rest := by
  obtain ⟨hret, hps⟩ := h
  refine ((returnType_local hret).trans
    (Q := fun ts rest => ParsesParamList _ ts _ _ names rest) ?_).imp fun ⟨_, h, h'⟩ => .mk h h'
  cases hps with
  | none hnext => exact .nil fun rest' hpeek => .none (by rwa [hpeek])
  | parens hps => exact hps.local.drop.cons .parens

/-- A phrase is read without regard to what comes after the token after it. -/
theorem Parses.local {x : Phrase} (h : Parses env ts x names rest) :
    Local (fun ts rest => Parses env ts x names rest) ts rest := by
  induction h with
  | structDef hms hl => exact hms.local.drop.push [_, _, _, _] fun h => .structDef h hl
  | fnDecl hsig hl => exact hsig.local.drop.push [_, _, _] fun h => .fnDecl h hl
  | fnDef hsig _ hl ih =>
    exact (hsig.local.drop.trans ih.drop).push [_, _, _] fun ⟨_, h, h'⟩ => .fnDef h h' hl
  | varDef hfn hty =>
    exact (typeExpr_local hty).ahead.drop.push [_, _] fun ⟨hpeek, _, h⟩ =>
      .varDef (fun hk => hfn (hpeek.symm.trans hk)) h
  | varInit hfn hty he =>
    exact ((typeExpr_local hty).ahead.drop.trans (expr_local he).drop).push [_, _]
      fun ⟨_, ⟨hpeek, _, h⟩, h'⟩ => .varInit (fun hk => hfn (hpeek.symm.trans hk)) h h'
  | quickDef he hty => exact (expr_local he).drop.push [_, _] fun h => .quickDef h hty
  | expr he => exact (expr_local he).drop.imp .expr
  | varSet htarget he hset =>
    exact ((expr_local htarget).drop.trans (expr_local he).drop).imp fun ⟨_, h, h'⟩ =>
      .varSet h h' hset
  | memberSet htarget he =>
    exact ((expr_local htarget).drop.trans (expr_local he).drop).imp fun ⟨_, h, h'⟩ =>
      .memberSet h h'
  | return_ => exact ⟨[_, _], rfl, fun _ _ => .return_⟩
  | returnValue he => exact (expr_local he).drop.cons .returnValue
  | break_ => exact ⟨[_, _], rfl, fun _ _ => .break_⟩
  | for_ he _ ih => exact ((expr_local he).trans ih).cons fun ⟨_, h, h'⟩ => .for_ h h'
  | if_ he _ _ ih ih' =>
    exact ((expr_local he).trans (ih.trans ih')).cons fun ⟨_, h, _, h', h''⟩ => .if_ h h' h''
  | braces _ hl ih => exact ih.drop.cons fun h => .braces h hl
  | none helif helse => exact .nil fun rest' hpeek => .none (by rwa [hpeek]) (by rwa [hpeek])
  | else_ _ ih => exact ih.cons .else_
  | elif he _ _ ih ih' =>
    exact ((expr_local he).trans (ih.trans ih')).cons fun ⟨_, h, _, h', h''⟩ => .elif h h' h''
  | block _ hl ih => exact ih.drop.cons fun h => .block h hl
  | nil hends => exact .nil fun rest' hpeek => .nil ((endsAt_congr hpeek).trans hends)
  | cons hends _ _ ih ih' =>
    exact (ih.ahead.trans ih').imp fun ⟨_, ⟨hpeek, _, h⟩, h'⟩ =>
      .cons ((endsAt_congr hpeek).trans hends) h h'

end Locality

theorem Parses.rest {env : Env} {ts rest : List Token} {names : Names} {x : Phrase}
    (h : Parses env ts x names rest) : rest <:+ ts := h.local.suffix

section Readings

variable {env : Env} {ts rest : List Token} {names : Names} {ps : List Param} {s : Span} {e : Expr}

theorem ParsesMembers.given (h : ParsesMembers env ts ps names rest) :
    Gives (members env ts) (ps, names) rest := by
  induction h with
  | nil hends =>
    rw [members, if_pos hends]
    exact .done
  | cons hp _ ih =>
    obtain ⟨_, _, _, rfl, -⟩ := param_inv hp
    rw [members, if_neg (by simp [endsAt, peek, Token.kind, Lexeme.kind])]
    exact hp.bind fun _ => (expect_mark _ _ _).bind fun _ => ih.bind fun _ => .done

theorem ParsesParams.given (h : ParsesParams env ts ps more names rest) :
    Gives (params env ts) (ps, more, names) rest := by
  induction h with
  | nil hends =>
    rw [params, if_pos hends]
    exact .done
  | variadic =>
    rw [params]
    exact .done
  | last hp hnext =>
    obtain ⟨_, _, _, rfl, -⟩ := param_inv hp
    rw [params, if_neg (by simp [endsAt, peek, Token.kind, Lexeme.kind]),
      accept?_ne (by simp [peek, Token.kind, Lexeme.kind])]
    refine hp.bind fun _ => ?_
    dsimp only
    rw [accept?_ne hnext]
    exact .done
  | cons hp _ ih =>
    obtain ⟨_, _, _, rfl, -⟩ := param_inv hp
    rw [params, if_neg (by simp [endsAt, peek, Token.kind, Lexeme.kind]),
      accept?_ne (by simp [peek, Token.kind, Lexeme.kind])]
    refine hp.bind fun _ => ?_
    dsimp only
    rw [accept?_mark]
    exact ih.bind fun _ => .done

theorem ParsesParamList.given (h : ParsesParamList env ts ps more names rest) :
    Gives (paramList env ts) (ps, more, names) rest := by
  cases h with
  | none hnext =>
    rw [paramList, accept?_ne hnext]
    exact .done
  | parens hps =>
    rw [paramList, accept?_mark]
    exact hps.given.bind fun _ => (expect_mark _ _ _).bind fun _ => .done

/-- A name before `:` or `:=` is the expression that can be read there. -/
theorem expr_name {name : String} {s₁ : Span} {p : Punct} (hp : p = .colon ∨ p = .quickAssign)
    (ts : List Token) : ∃ e, Gives (expr env (⟨.identifier name, s⟩ :: ⟨.punct p, s₁⟩ :: ts)) e
      (⟨.punct p, s₁⟩ :: ts) := by
  refine ⟨_, (Builds.expr (.operand (.ident rfl) (.noSuffix ?_) (.noCast ?_))
    (.noOperator ?_)).given⟩ <;>
    obtain rfl | rfl := hp
  · exact ⟨nofun, nofun, nofun⟩
  · exact ⟨nofun, nofun, nofun⟩
  · nofun
  · nofun
  · nofun
  · nofun

/-- What begins a statement that is no expression, or ends one. No expression begins with it. -/
def startsNoExpr : Kind → Bool
  | .keyword .return_ | .keyword .break_ | .keyword .for_ | .keyword .if_ => true
  | .punct .lBrace | .punct .semicolon => true
  | _ => false

theorem operators_of_startsNoExpr (h : startsNoExpr (peek ts)) :
    (operators addressOp? (operators signOp? ts).rest).rest = ts := by
  have hnone : signOp? (peek ts) = none ∧ addressOp? (peek ts) = none := by
    unfold startsNoExpr at h
    split at h <;> simp_all [signOp?, addressOp?]
  rw [(operators_none ts hnone.1).2, (operators_none ts hnone.2).2]

theorem Builds.head_starts (h : Builds env ts (.head e) rest) : startsNoExpr (peek ts) = false := by
  cases h with
  | ident ht | paren ht _ =>
    rw [peek, Token.kind, ht]
    rfl
  | literal h =>
    unfold Lexeme.Means at h
    split at h <;> simp_all [peek, Token.kind, Lexeme.kind, startsNoExpr]

theorem expr_starts (h : Gives (expr env ts) e rest) : startsNoExpr (peek ts) = false := by
  by_contra hts
  rw [Bool.not_eq_false] at hts
  cases exprAt_builds env 0 ts h with
  | expr hoperand _ =>
    cases hoperand with
    | operand hhead _ _ =>
      rw [operators_of_startsNoExpr hts] at hhead
      simp [hhead.head_starts] at hts

theorem stmt_eq_exprStmt (hfirst : startsNoExpr (peek ts) = false)
    (hdef : ∀ name s p s₁ us, ts = ⟨.identifier name, s⟩ :: ⟨.punct p, s₁⟩ :: us →
      p ≠ .colon ∧ p ≠ .quickAssign) :
    stmt env ts = do
      let r ← exprStmt env ts
      return ⟨(r.value, env.scopes), r.rest, r.lt⟩ := by
  rw [stmt]
  all_goals
    intros
    subst_vars
    first | exact (hdef _ _ _ _ _ rfl).1 rfl | exact (hdef _ _ _ _ _ rfl).2 rfl | cases hfirst

/-- A statement that begins with an expression. -/
theorem stmt_of_expr {p : Punct} (h : Gives (expr env ts) e (⟨.punct p, s⟩ :: rest))
    (hp : p = .semicolon ∨ p = .assign) :
    stmt env ts = do
      let r ← exprStmt env ts
      return ⟨(r.value, env.scopes), r.rest, r.lt⟩ := by
  refine stmt_eq_exprStmt (expr_starts h) ?_
  rintro name _ q _ us rfl
  by_contra hq
  have hq : q = .colon ∨ q = .quickAssign := by
    by_contra hne
    exact hq (not_or.mp hne)
  obtain ⟨_, hname⟩ := expr_name hq us
  obtain rfl := Kind.punct.inj (congrArg peek (h.unique hname).2)
  obtain rfl | rfl := hp <;> simp at hq

/-- What the readers do when they read the phrase. -/
def Phrase.Given (env : Env) (ts : List Token) (names : Names) (rest : List Token) : Phrase → Prop
  | .stmt s => Gives (Grammar.stmt env ts) (s, names) rest
  | .stmts ss => Gives (Grammar.stmts env ts) (ss, names) rest
  | .block ss close => Gives (Grammar.block env ts) (ss, close, names) rest
  | .alternative last a close => Gives (Grammar.alternative env last ts) (a, close, names) rest

/-- A definition with a type that is not a function's. -/
theorem stmt_eq_varDef {name : Ident} {last : Span} (hfn : peek ts ≠ .keyword .fn)
    (hty : Gives (typeExpr env.eof ts) (ty, last) rest) :
    stmt env (⟨.identifier name.name, name.span⟩ :: ⟨.punct .colon, s⟩ :: ts) = do
      let r ← varDef env name ts
      return ⟨r.value, r.rest, Nat.lt_succ_of_lt r.lt_succ⟩ := by
  rw [stmt]
  · rintro _ _ rfl
    exact not_gives_error hty
  · rintro _ _ rfl
    exact hfn rfl

theorem initializer_none (s : Span) (ts : List Token) :
    Gives (varDef.initializer env (⟨.punct .semicolon, s⟩ :: ts)) none
      (⟨.punct .semicolon, s⟩ :: ts) := by
  rw [varDef.initializer, accept?_ne (by simp [peek, Token.kind, Lexeme.kind])]
  exact .done

theorem initializer_some (h : Gives (expr env ts) e rest) :
    Gives (varDef.initializer env (⟨.punct .assign, s⟩ :: ts)) (some e) rest := by
  rw [varDef.initializer, accept?_mark]
  exact h.bind fun _ => .done

theorem blockTail_gives {body : List Stmt} {close : Span} {inner : Names}
    (h : Gives (stmts { env with scopes := env.scopes.enter } ts) (body, inner)
      (⟨.punct .rBrace, close⟩ :: rest)) (hl : inner.leave? = some names) :
    Gives (blockTail env ts) (body, close, names) rest := by
  rw [blockTail]
  exact h.bind fun _ => (expect_mark _ _ _).bind fun _ =>
    gives_bind.mpr ⟨names, leave_eq_ok.mpr hl, .done⟩

/-- What is derived is read. -/
theorem Parses.given {x : Phrase} (h : Parses env ts x names rest) : x.Given env ts names rest := by
  induction h with
  | structDef hms hl =>
    rw [Phrase.Given, Grammar.stmt]
    refine Gives.bind ?_ fun _ => .done
    exact (expect_mark _ _ _).bind fun _ => hms.given.bind fun _ =>
      (expect_mark _ _ _).bind fun _ =>
      gives_bind.mpr ⟨_, leave_eq_ok.mpr hl, .done⟩
  | fnDecl hsig hl =>
    obtain ⟨hret, hps⟩ := hsig
    rw [Phrase.Given, Grammar.stmt]
    refine Gives.bind ?_ fun _ => .done
    rw [Grammar.fnDef]
    refine hret.bind fun _ => hps.given.bind fun _ => ?_
    dsimp only
    rw [accept?_mark]
    exact gives_bind.mpr ⟨_, leave_eq_ok.mpr hl, .done⟩
  | fnDef hsig _ hl ih =>
    obtain ⟨hret, hps⟩ := hsig
    rw [Phrase.Given, Grammar.stmt]
    refine Gives.bind ?_ fun _ => .done
    rw [Grammar.fnDef]
    refine hret.bind fun _ => hps.given.bind fun _ => ?_
    dsimp only
    rw [accept?_ne (by simp [peek, Token.kind, Lexeme.kind])]
    exact (expect_mark _ _ _).bind fun _ => ih.bind fun _ => (expect_mark _ _ _).bind fun _ =>
      gives_bind.mpr ⟨_, leave_eq_ok.mpr hl, .done⟩
  | varDef hfn hty =>
    rw [Phrase.Given, stmt_eq_varDef hfn hty]
    refine Gives.bind ?_ fun _ => .done
    exact hty.bind fun _ => (initializer_none _ _).bind fun _ =>
      (expect_mark _ _ _).bind fun _ => .done
  | varInit hfn hty he =>
    rw [Phrase.Given, stmt_eq_varDef hfn hty]
    refine Gives.bind ?_ fun _ => .done
    exact hty.bind fun _ => (initializer_some he).bind fun _ =>
      (expect_mark _ _ _).bind fun _ => .done
  | quickDef he hty =>
    rw [Phrase.Given, Grammar.stmt]
    refine Gives.bind ?_ fun _ => .done
    exact he.bind fun _ => gives_bind.mpr ⟨_, infer_eq_ok.mpr hty,
      (expect_mark _ _ _).bind fun _ => .done⟩
  | expr he =>
    rw [Phrase.Given, stmt_of_expr he (.inl rfl)]
    refine Gives.bind (he.bind fun _ => ?_) fun _ => .done
    dsimp only
    rw [accept?_ne (by simp [peek, Token.kind, Lexeme.kind])]
    exact (expect_mark _ _ _).bind fun _ => .done
  | varSet htarget he hset =>
    rw [Phrase.Given, stmt_of_expr htarget (.inr rfl)]
    refine Gives.bind (htarget.bind fun _ => ?_) fun _ => .done
    dsimp only
    rw [accept?_mark]
    exact he.bind fun _ => gives_bind.mpr ⟨_, bind_eq_ok.mpr ⟨_, hset, rfl⟩,
      (expect_mark _ _ _).bind fun _ => .done⟩
  | memberSet htarget he =>
    rw [Phrase.Given, stmt_of_expr htarget (.inr rfl)]
    refine Gives.bind (htarget.bind fun _ => ?_) fun _ => .done
    dsimp only
    rw [accept?_mark]
    exact he.bind fun _ => gives_bind.mpr ⟨_, rfl, (expect_mark _ _ _).bind fun _ => .done⟩
  | return_ =>
    rw [Phrase.Given, Grammar.stmt]
    exact .done
  | returnValue he =>
    rw [Phrase.Given, Grammar.stmt]
    refine Gives.bind ?_ fun _ => .done
    have hstarts := expr_starts he
    rw [returnStmt, accept?_ne fun hsemi => by simp [hsemi, startsNoExpr] at hstarts]
    exact he.bind fun _ => (expect_mark _ _ _).bind fun _ => .done
  | break_ =>
    rw [Phrase.Given, Grammar.stmt]
    exact (expect_mark _ _ _).bind fun _ => .done
  | for_ he _ ih =>
    rw [Phrase.Given, Grammar.stmt]
    exact he.bind fun _ => ih.bind fun _ => .done
  | if_ he _ _ ih ih' =>
    rw [Phrase.Given, Grammar.stmt]
    exact he.bind fun _ => ih.bind fun _ => ih'.bind fun _ => .done
  | braces _ hl ih =>
    rw [Phrase.Given, Grammar.stmt]
    exact (blockTail_gives ih hl).bind fun _ => .done
  | none helif helse =>
    rw [Phrase.Given, Grammar.alternative]
    · exact .done
    · rintro _ _ rfl
      exact helif rfl
    · rintro _ _ rfl
      exact helse rfl
  | else_ _ ih =>
    rw [Phrase.Given, Grammar.alternative]
    exact ih.bind fun _ => .done
  | elif he _ _ ih ih' =>
    rw [Phrase.Given, Grammar.alternative]
    exact he.bind fun _ => ih.bind fun _ => ih'.bind fun _ => .done
  | block _ hl ih =>
    rw [Phrase.Given, Grammar.block]
    exact (expect_mark _ _ _).bind fun _ => (blockTail_gives ih hl).bind fun _ => .done
  | nil hends =>
    rw [Phrase.Given, Grammar.stmts, if_pos hends]
    exact .done
  | cons hends _ _ ih ih' =>
    rw [Phrase.Given, Grammar.stmts, if_neg (Bool.eq_false_iff.mp hends)]
    exact ih.bind fun _ => ih'.bind fun _ => .done

end Readings

/-- A program is statements to the end of the tokens. -/
theorem program_parses (env : Env) (ts : List Token) {p : Program} (h : program env ts = .ok p) :
    ∃ names, Parses env ts (.stmts p) names [] := by
  unfold program at h
  split at h
  · obtain rfl := Except.ok.inj h
    exact ⟨env.scopes, .nil rfl⟩
  · split at h
    · rename_i hid
      obtain ⟨s, hs, h⟩ := bind_eq_ok.mp h
      obtain ⟨r, hr, h⟩ := bind_eq_ok.mp h
      obtain rfl := Except.ok.inj h
      have hlt := s.lt
      obtain ⟨names, hrest⟩ := program_parses _ s.rest hr
      refine ⟨names, .cons ?_ (stmt_parses env _ (gives_of_eq_ok hs)) hrest⟩
      simp [endsAt, peek, hid]
    · simp at h
termination_by ts.length

end Grammar

end Frontend
