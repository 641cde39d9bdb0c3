import Frontend.Proofs.Readers

/-!
What reading comes to on its way through the tokens. One reader calls another with the names and the
tokens that what was read before it has left, whatever comes of the rest. Wherever reading comes to,
its table is in range, and for every scope in it a token was taken; so tokens can run short, but
numbers of scopes cannot.
-/
namespace Frontend.Grammar

/-- Something to be read. -/
inductive Task where
  | program
  | stmts
  | stmt
  | fnDef (name : Ident)
  | structDef (name : Ident)
  | members
  | params
  | alternative (last : Span)
  | block
  /-- A block after its opening brace. -/
  | blockTail
  | expr

/-- Scopes that the task itself opens. -/
def Task.opens : Task → Nat
  | .fnDef _ | .structDef _ | .blockTail => 1
  | _ => 0

theorem Task.opens_le (k : Task) : k.opens ≤ 1 := by
  cases k <;> simp [opens]

/-- The names that are known inside a function before its parameters are read. -/
def Env.inside (env : Env) (name : Ident) (ret : Ty) : Env :=
  { env with scopes := (env.add name.name (.fn ret 0)).scopes.enter }

/-- Reading the first with some names from some tokens reads the second on the way, with the names
and from the tokens that follow it. What comes before it was read. -/
inductive Calls : Task → Env → List Token → Task → Env → List Token → Prop where
  | top {env t ts} : t.kind = .identifier → Calls .program env (t :: ts) .stmt env (t :: ts)
  | topNext {env t ts s} : t.kind = .identifier → Grammar.stmt env (t :: ts) = .ok s →
      Calls .program env (t :: ts) .program { env with scopes := s.value.2 } s.rest
  | first {env ts} : endsAt (.punct .rBrace) ts = false → Calls .stmts env ts .stmt env ts
  | next {env ts s} : endsAt (.punct .rBrace) ts = false → Grammar.stmt env ts = .ok s →
      Calls .stmts env ts .stmts { env with scopes := s.value.2 } s.rest
  | structDef {env name s s₁ s₂ ts} :
      Calls .stmt env (⟨.identifier name, s⟩ :: ⟨.punct .colon, s₁⟩ :: ⟨.keyword .struct, s₂⟩ :: ts)
        (.structDef ⟨name, s⟩) env ts
  | fnDef {env name s s₁ s₂ ts} :
      Calls .stmt env (⟨.identifier name, s⟩ :: ⟨.punct .colon, s₁⟩ :: ⟨.keyword .fn, s₂⟩ :: ts)
        (.fnDef ⟨name, s⟩) env ts
  | initial {env name s s₁ ts ty mark} : typeExpr env.eof ts = .ok ty →
      accept? (.punct .assign) ty.rest = some mark →
      Calls .stmt env (⟨.identifier name, s⟩ :: ⟨.punct .colon, s₁⟩ :: ts) .expr env mark.rest
  | quick {env name s s₁ ts} :
      Calls .stmt env (⟨.identifier name, s⟩ :: ⟨.punct .quickAssign, s₁⟩ :: ts) .expr env ts
  | returned {env s ts} : accept? (.punct .semicolon) ts = none →
      Calls .stmt env (⟨.keyword .return_, s⟩ :: ts) .expr env ts
  | cond {env k s ts} : k = .for_ ∨ k = .if_ → Calls .stmt env (⟨.keyword k, s⟩ :: ts) .expr env ts
  | body {env k s ts cond} : k = .for_ ∨ k = .if_ → Grammar.expr env ts = .ok cond →
      Calls .stmt env (⟨.keyword k, s⟩ :: ts) .block env cond.rest
  | otherwise {env s ts cond body} : Grammar.expr env ts = .ok cond →
      Grammar.block env cond.rest = .ok body →
      Calls .stmt env (⟨.keyword .if_, s⟩ :: ts) (.alternative body.value.2.1)
        { env with scopes := body.value.2.2 } body.rest
  | braces {env s ts} : Calls .stmt env (⟨.punct .lBrace, s⟩ :: ts) .blockTail env ts
  | target {env ts} : Calls .stmt env ts .expr env ts
  | assigned {env ts target mark} : Grammar.expr env ts = .ok target →
      accept? (.punct .assign) target.rest = some mark → Calls .stmt env ts .expr env mark.rest
  | elifCond {env last s ts} :
      Calls (.alternative last) env (⟨.keyword .elif, s⟩ :: ts) .expr env ts
  | elifBody {env last s ts cond} : Grammar.expr env ts = .ok cond →
      Calls (.alternative last) env (⟨.keyword .elif, s⟩ :: ts) .block env cond.rest
  | elifOtherwise {env last s ts cond body} : Grammar.expr env ts = .ok cond →
      Grammar.block env cond.rest = .ok body →
      Calls (.alternative last) env (⟨.keyword .elif, s⟩ :: ts) (.alternative body.value.2.1)
        { env with scopes := body.value.2.2 } body.rest
  | elseBody {env last s ts} :
      Calls (.alternative last) env (⟨.keyword .else_, s⟩ :: ts) .block env ts
  | opened {env ts mark} : expect env (.punct .lBrace) ts = .ok mark →
      Calls .block env ts .blockTail env mark.rest
  | inBlock {env ts} : Calls .blockTail env ts .stmts { env with scopes := env.scopes.enter } ts
  | params {env name ts ret mark} : returnType env.eof ts = .ok ret →
      accept? (.punct .lParen) ret.rest = some mark →
      Calls (.fnDef name) env ts .params (env.inside name ret.value) mark.rest
  | inFunction {env name ts ret ps mark} : returnType env.eof ts = .ok ret →
      paramList (env.inside name ret.value) ret.rest = .ok ps →
      expect { env with scopes := ps.value.2.2 } (.punct .lBrace) ps.rest = .ok mark →
      Calls (.fnDef name) env ts .stmts { env with scopes := ps.value.2.2 } mark.rest
  | members {env name ts mark} : expect env (.punct .lBrace) ts = .ok mark →
      Calls (.structDef name) env ts .members
        { env with scopes := env.scopes.enterMarked (membersMarker name.name) () } mark.rest
  | nextMember {env ts p semi} : param env ts = .ok p →
      expect env (.punct .semicolon) p.rest = .ok semi →
      Calls .members env ts .members (env.add p.value.name.name p.value.ty) semi.rest
  | nextParam {env ts p comma} : param env ts = .ok p →
      accept? (.punct .comma) p.rest = some comma →
      Calls .params env ts .params (env.add p.value.name.name p.value.ty) comma.rest
  /-- Operands, arguments and what stands in parentheses. -/
  | part {env ts rest} : rest <:+ ts → Calls .expr env ts .expr env rest

/-- Reading the first comes to the second in one or more calls, or in none. -/
def Reaches (k : Task) (env : Env) (ts : List Token) (k' : Task) (env' : Env) (ts' : List Token) :
    Prop :=
  Relation.ReflTransGen
    (fun c c' : Task × Env × List Token => Calls c.1 c.2.1 c.2.2 c'.1 c'.2.1 c'.2.2)
    (k, env, ts) (k', env', ts')

/-- What reading can count on, of the tokens `all` before the end `eof`. Each scope but the first
was opened by a token that is no longer there. -/
structure Sound (eof : Span) (all : List Token) (k : Task) (env : Env) (ts : List Token) :
    Prop where
  eof : env.eof = eof
  suffix : ts <:+ all
  room : env.scopes.HasRoom (all.length + 1) (k.opens + ts.length)

section Steps

variable {eof : Span} {all ts rest : List Token} {env : Env} {names : Names} {k k' : Task}

namespace Sound

/-- What a reader that closes its scopes has left. -/
theorem after (h : Sound eof all k env ts) (hread : Balanced env.scopes ts names rest)
    (hopens : k'.opens = 0) : Sound eof all k' { env with scopes := names } rest := by
  refine ⟨h.eof, hread.suffix.trans h.suffix, h.room.grows hread.grows ?_⟩
  have := hread.suffix.length_le
  omega

/-- Farther on with the same names. -/
theorem skip (h : Sound eof all k env ts) (hrest : rest <:+ ts) (hopens : k'.opens = 0) :
    Sound eof all k' env rest :=
  h.after (.skip _ hrest) hopens

/-- A token that was taken pays for a scope. -/
theorem taken (h : Sound eof all k env ts) (hrest : rest <:+ ts) (hlt : rest.length < ts.length) :
    Sound eof all k' env rest := by
  refine ⟨h.eof, hrest.trans h.suffix, h.room.mono ?_⟩
  have := k'.opens_le
  omega

/-- Inside the scope that the task opens. -/
theorem entered (h : Sound eof all k env ts) (hopens : k.opens = 1) (ho : env.scopes.Opens names)
    (hrest : rest <:+ ts) (hopens' : k'.opens = 0) :
    Sound eof all k' { env with scopes := names } rest := by
  refine ⟨h.eof, hrest.trans h.suffix, h.room.opens ho ?_⟩
  have := hrest.length_le
  omega

/-- Inside a function, after what its name and return type take. -/
theorem inside {name : Ident} {ret : Ty} (h : Sound eof all (.fnDef name) env ts)
    (hrest : rest <:+ ts)
    (hopens : k'.opens = 0) : Sound eof all k' (env.inside name ret) rest := by
  have hself : Sound eof all (.fnDef name) (env.add name.name (.fn ret 0)) ts :=
    ⟨h.eof, h.suffix, h.room.grows (.add _ (by simp)) (by omega)⟩
  exact hself.entered rfl (.enter _) hrest hopens

end Sound

/-- After the condition that a keyword introduces. -/
theorem expr_rest_cons {t : Token} {e : Step ts.length Expr} (h : Grammar.expr env ts = .ok e) :
    e.rest <:+ t :: ts :=
  ((expr_meets env ts).of_eq_ok h).trans (List.suffix_cons t ts)

/-- A call can count on what the caller could. -/
theorem Calls.sound {env' : Env} {ts' : List Token} (h : Calls k env ts k' env' ts')
    (hs : Sound eof all k env ts) : Sound eof all k' env' ts' := by
  cases h with
  | top hid => exact hs.skip List.suffix_rfl rfl
  | topNext hid hstmt => exact hs.after ((stmt_meets _ _).of_eq_ok hstmt) rfl
  | first hend => exact hs.skip List.suffix_rfl rfl
  | next hend hstmt => exact hs.after ((stmt_meets _ _).of_eq_ok hstmt) rfl
  | structDef | fnDef => exact hs.taken ⟨[_, _, _], rfl⟩ (by simp; omega)
  | initial hty hmark =>
    refine hs.skip ?_ rfl
    exact (accept?_rest hmark).trans ((typeExpr_rest hty).trans ⟨[_, _], rfl⟩)
  | quick => exact hs.skip ⟨[_, _], rfl⟩ rfl
  | returned hnone => exact hs.skip (List.suffix_cons _ _) rfl
  | cond hk => exact hs.skip (List.suffix_cons _ _) rfl
  | body hk hcond => exact hs.skip (expr_rest_cons hcond) rfl
  | otherwise hcond hbody =>
    have hbody := (block_meets _ _).of_eq_ok hbody
    exact hs.after ((Balanced.skip _ (expr_rest_cons hcond)).trans hbody) rfl
  | braces => exact hs.taken (List.suffix_cons _ _) (Nat.lt_succ_self _)
  | target => exact hs.skip List.suffix_rfl rfl
  | assigned htarget hmark =>
    exact hs.skip ((accept?_rest hmark).trans ((expr_meets _ _).of_eq_ok htarget)) rfl
  | elifCond => exact hs.skip (List.suffix_cons _ _) rfl
  | elifBody hcond => exact hs.skip (expr_rest_cons hcond) rfl
  | elifOtherwise hcond hbody =>
    have hbody := (block_meets _ _).of_eq_ok hbody
    exact hs.after ((Balanced.skip _ (expr_rest_cons hcond)).trans hbody) rfl
  | elseBody => exact hs.skip (List.suffix_cons _ _) rfl
  | @opened _ _ mark hmark => exact hs.taken (expect_rest hmark) mark.lt
  | inBlock => exact hs.entered rfl (.enter _) List.suffix_rfl rfl
  | params hret hmark =>
    exact hs.inside ((accept?_rest hmark).trans (returnType_local (gives_of_eq_ok hret)).suffix) rfl
  | @inFunction _ name _ ret _ _ hret hps hmark =>
    have hin : Sound eof all .params (env.inside name ret.value) ret.rest :=
      hs.inside (returnType_local (gives_of_eq_ok hret)).suffix rfl
    exact hin.after (((paramList_meets _ _).of_eq_ok hps).trans (.skip _ (expect_rest hmark))) rfl
  | members hmark => exact hs.entered rfl (.enterMarked _ _ _) (expect_rest hmark) rfl
  | nextMember hp hsemi =>
    have hparam := (param_local (gives_of_eq_ok hp)).suffix
    exact hs.after (.add _ _ _ ((expect_rest hsemi).trans hparam)) rfl
  | nextParam hp hcomma =>
    have hparam := (param_local (gives_of_eq_ok hp)).suffix
    exact hs.after (.add _ _ _ ((accept?_rest hcomma).trans hparam)) rfl
  | part hrest => exact hs.skip hrest rfl

theorem Reaches.sound {env' : Env} {ts' : List Token} (h : Reaches k env ts k' env' ts')
    (hs : Sound eof all k env ts) : Sound eof all k' env' ts' :=
  carried_along (P := fun c : Task × Env × List Token => Sound eof all c.1 c.2.1 c.2.2)
    Calls.sound h hs

end Steps

/-- The spans of the tree that is read, or that of the error. -/
def Task.spans (k : Task) (env : Env) (ts : List Token) : List Span :=
  match k with
  | .stmt =>
    match Grammar.stmt env ts with
    | .ok r => r.value.1.spans
    | .error e => [e.span]
  | .expr =>
    match Grammar.expr env ts with
    | .ok r => r.value.spans
    | .error e => [e.span]
  | _ => []

section Spans

variable {f : Span → Span}

/-- Where moving the tokens changes nothing, what is read stays as well. -/
theorem Alike.value_eq {g : α → α} {n : Nat} {x : Parse (Step n α)} (h : AlikeSteps f g x x)
    {r : Step n α} (hx : x = .ok r) : g r.value = r.value := by
  subst hx
  cases h with
  | ok hr => exact hr.value.symm

theorem Alike.span_eq {R : α → β → Prop} {x : Parse α} {y : Parse β} (h : Alike f R x y)
    {e : Located ParseError} (hx : x = .error e) (hy : y = .error e) : f e.span = e.span := by
  cases h with
  | ok hr => cases hx
  | error e' =>
    obtain rfl := Except.error.inj hx
    exact congrArg Located.span (Except.error.inj hy)

theorem Sound.kept {eof : Span} {all ts : List Token} {env : Env} {k : Task}
    (h : Sound eof all k env ts) (heof : f eof = eof) (hall : all.map (Token.relocate f) = all) :
    env.relocate f = env ∧ ts.map (Token.relocate f) = ts := by
  refine ⟨?_, ?_⟩
  · rw [Env.relocate, h.eof, heof, ← h.eof]
  · obtain ⟨front, rfl⟩ := h.suffix
    rw [List.map_append] at hall
    exact (List.append_inj hall (by simp)).2

/-- Every span that is made ends in the text. -/
theorem Sound.spans_end {src : String} {all ts : List Token} {env : Env} {k : Task}
    (hscan : tokenize src = .ok all) (h : Sound (Text.endSpan src) all k env ts) :
    ∀ s ∈ k.spans env ts, s.hi ≤ byteLength src.toList := by
  intro s hs
  refine (starts_and_ends_of_kept hscan fun f hf heof hall => ?_).1
  obtain ⟨henv, hts⟩ := h.kept heof hall
  cases k with
  | stmt =>
    have hread := stmt_relocate hf env ts
    rw [henv, hts] at hread
    simp only [Task.spans] at hs
    cases hr : Grammar.stmt env ts with
    | ok r =>
      rw [hr] at hs
      have hkept : r.value.1.relocate f = r.value.1 := congrArg Prod.fst (hread.value_eq hr)
      exact (Stmt.relocate_eq_self r.value.1).mp hkept s hs
    | error e =>
      rw [hr] at hs
      obtain rfl := List.mem_singleton.mp hs
      exact hread.span_eq hr hr
  | expr =>
    have hread := expr_relocate hf env ts
    rw [henv, hts] at hread
    simp only [Task.spans] at hs
    cases hr : Grammar.expr env ts with
    | ok r =>
      rw [hr] at hs
      exact (Expr.relocate_eq_self r.value).mp (hread.value_eq hr) s hs
    | error e =>
      rw [hr] at hs
      obtain rfl := List.mem_singleton.mp hs
      exact hread.span_eq hr hr
  | _ => cases hs

end Spans

end Frontend.Grammar
