import Frontend.Proofs.Truncation
import Frontend.Proofs.Yields

/-!
Where statements stand. A statement stands at the front of the tokens, before a rest, if it is
written there as statements are, and its span and those of its parts run from their first to their
last token. Everything that is read stands where it was read.
-/
namespace Frontend

/-- As it stands in the text: literals may have been retyped, and calls that are not written have
the span of what they call. -/
def Manner.placed : Manner where
  __ := Manner.read
  literal l _ _ := ∃ v ty, l.Means v ty
  added := Eq
  span_added := by
    rintro s _ ts rest rfl hs
    exact hs

def Ident.Names (id : Ident) (t : Token) : Prop := t.lexeme = .identifier id.name ∧ id.span = t.span

/-- An expression that may be missing. -/
def Expr.MayStand : Option Expr → List Token → List Token → Prop
  | none, ts, rest => ts = rest
  | some e, ts, rest => e.Stands .placed ts rest

/-- The same after `=`. -/
def Expr.MayFollow : Option Expr → List Token → List Token → Prop
  | none, ts, rest => ts = rest
  | some e, ts, rest => ∃ a mid, ts = a :: mid ∧ a.lexeme = .punct .assign ∧
      e.Stands .placed mid rest

def Param.Stands (p : Param) (ts rest : List Token) : Prop :=
  ∃ n c mid, ts = n :: c :: mid ∧ p.name.Names n ∧ c.lexeme = .punct .colon ∧
    Manner.placed.type p.ty mid rest

/-- Members of a struct. -/
def Param.MembersStand : List Param → List Token → List Token → Prop
  | [], ts, rest => ts = rest
  | p :: ps, ts, rest => ∃ semi mid, p.Stands ts (semi :: mid) ∧ semi.lexeme = .punct .semicolon ∧
      Param.MembersStand ps mid rest

/-- Parameters of a function. -/
def Param.AllStand (variadic : Bool) : List Param → List Token → List Token → Prop
  | [], ts, rest =>
    if variadic then ∃ dots, ts = dots :: rest ∧ dots.lexeme = .punct .variadic else ts = rest
  | p :: ps, ts, rest =>
    (ps = [] ∧ variadic = false ∧ p.Stands ts rest) ∨
      ∃ c mid, p.Stands ts (c :: mid) ∧ c.lexeme = .punct .comma ∧
      Param.AllStand variadic ps mid rest

def Signature.Stands (sig : Signature) (ts rest : List Token) : Prop :=
  ∃ n c f mid mid', ts = n :: c :: f :: mid ∧ sig.name.Names n ∧ c.lexeme = .punct .colon ∧
    f.lexeme = .keyword .fn ∧
    (Manner.placed.type sig.ret mid mid' ∨ sig.ret = .void ∧ mid = mid') ∧
    (sig.params = [] ∧ sig.variadic = false ∧ mid' = rest ∨
      ∃ l r inner, mid' = l :: inner ∧ l.lexeme = .punct .lParen ∧
        Param.AllStand sig.variadic sig.params inner (r :: rest) ∧ r.lexeme = .punct .rParen)

def InBraces (inner : List Token → List Token → Prop) (ts rest : List Token) : Prop :=
  ∃ l r mid, ts = l :: mid ∧ l.lexeme = .punct .lBrace ∧ inner mid (r :: rest) ∧
    r.lexeme = .punct .rBrace

mutual

/-- The statement is written at the front of the tokens, before `rest`. -/
def Stmt.Stands : Stmt → List Token → List Token → Prop
  | .varDef name ty init s, ts, rest => s.Stretches ts rest ∧
    ∃ n t semi mid, ts = n :: t :: mid ∧ name.Names n ∧ semi.lexeme = .punct .semicolon ∧
      ((∃ mid', t.lexeme = .punct .colon ∧ Manner.placed.type ty mid mid' ∧
        Expr.MayFollow init mid' (semi :: rest)) ∨
        ∃ e, t.lexeme = .punct .quickAssign ∧ init = some e ∧ e.Stands .placed mid (semi :: rest))
  | .structDef name members s, ts, rest => s.Stretches ts rest ∧
    ∃ n c k mid, ts = n :: c :: k :: mid ∧ name.Names n ∧ c.lexeme = .punct .colon ∧
      k.lexeme = .keyword .struct ∧ InBraces (Param.MembersStand members) mid rest
  | .fnDef sig body s, ts, rest => s.Stretches ts rest ∧
    ∃ mid, sig.Stands ts mid ∧ InBraces (Stmt.AllStand body) mid rest
  | .fnDecl sig s, ts, rest => s.Stretches ts rest ∧
    ∃ semi, sig.Stands ts (semi :: rest) ∧ semi.lexeme = .punct .semicolon
  | .varSet target value s, ts, rest => s.Stretches ts rest ∧
    ∃ n a semi mid, ts = n :: a :: mid ∧ target.Names n ∧ a.lexeme = .punct .assign ∧
      value.Stands .placed mid (semi :: rest) ∧ semi.lexeme = .punct .semicolon
  | .memberSet target value s, ts, rest => s.Stretches ts rest ∧
    ∃ a semi mid, target.Stands .placed ts (a :: mid) ∧ a.lexeme = .punct .assign ∧
      value.Stands .placed mid (semi :: rest) ∧ semi.lexeme = .punct .semicolon
  | .expr e s, ts, rest => s.Stretches ts rest ∧
    ∃ semi, e.Stands .placed ts (semi :: rest) ∧ semi.lexeme = .punct .semicolon
  | .return_ value s, ts, rest => s.Stretches ts rest ∧
    ∃ t semi mid, ts = t :: mid ∧ t.lexeme = .keyword .return_ ∧
      Expr.MayStand value mid (semi :: rest) ∧ semi.lexeme = .punct .semicolon
  | .break_ s, ts, rest => s.Stretches ts rest ∧
    ∃ t semi, ts = t :: semi :: rest ∧ t.lexeme = .keyword .break_ ∧ semi.lexeme = .punct .semicolon
  | .for_ cond body s, ts, rest => s.Stretches ts rest ∧
    ∃ t mid mid', ts = t :: mid ∧ t.lexeme = .keyword .for_ ∧ cond.Stands .placed mid mid' ∧
      InBraces (Stmt.AllStand body) mid' rest
  | .if_ cond body otherwise s, ts, rest => s.Stretches ts rest ∧
    ∃ t mid mid' after, ts = t :: mid ∧ t.lexeme = .keyword .if_ ∧ cond.Stands .placed mid mid' ∧
      InBraces (Stmt.AllStand body) mid' after ∧ otherwise.Stands after rest
  | .block body s, ts, rest => s.Stretches ts rest ∧ InBraces (Stmt.AllStand body) ts rest

def Alternative.Stands : Alternative → List Token → List Token → Prop
  | .none, ts, rest => ts = rest
  | .else_ body, ts, rest =>
    ∃ t mid, ts = t :: mid ∧ t.lexeme = .keyword .else_ ∧ InBraces (Stmt.AllStand body) mid rest
  | .elif cond body otherwise, ts, rest =>
    ∃ t mid mid' after, ts = t :: mid ∧ t.lexeme = .keyword .elif ∧ cond.Stands .placed mid mid' ∧
      InBraces (Stmt.AllStand body) mid' after ∧ otherwise.Stands after rest

/-- Statements one after the other. -/
def Stmt.AllStand : List Stmt → List Token → List Token → Prop
  | [], ts, rest => ts = rest
  | s :: ss, ts, rest => ∃ mid, s.Stands ts mid ∧ Stmt.AllStand ss mid rest

end

/-- The stretch from one token to a later one. -/
theorem Span.Stretches.tokens {first last : Token} {ts rest : List Token}
    (hts : InOrder (first :: ts)) (hlast : last :: rest <:+ ts) :
    (first.span.through last.span).Stretches (first :: ts) rest :=
  (Span.Stretches.token first ts).through hts hlast rfl

theorem Span.Stretches.rest {s : Span} {ts rest : List Token} (h : s.Stretches ts rest) :
    rest <:+ ts := by
  obtain ⟨last, hlast, -⟩ := h.last_suffix
  exact (List.suffix_cons last rest).trans hlast

theorem Manner.read_within_placed {all : List Token} : Manner.read.Within .placed all where
  literal h := ⟨_, _, h⟩
  type _ _ := id
  span := id
  added := False.elim

theorem Stmt.Stands.span {s : Stmt} {ts rest : List Token} (h : s.Stands ts rest) :
    s.span.Stretches ts rest := by
  cases s <;> exact h.1

theorem Expr.Stands.names {id : Ident} {ts rest : List Token}
    (h : (Expr.ident id).Stands .placed ts rest) : ∃ n, ts = n :: rest ∧ id.Names n := by
  obtain ⟨n, rfl, hn, hs⟩ := h
  exact ⟨n, rfl, hn, hs.unique (.token n rest)⟩

/-- A retyped literal stands where it stood. -/
theorem Expr.Stands.coerce? {ty : Ty} {e e' : Expr} {ts rest : List Token}
    (h : e.Stands .placed ts rest) (he : e.coerce? ty = some e') : e'.Stands .placed ts rest := by
  fun_induction Expr.coerce? ty e generalizing e' ts rest with
  | case1 =>
    obtain rfl := Option.some.inj he
    exact h
  | case2 =>
    obtain rfl := Option.some.inj he
    exact h
  | case3 => simp at he
  | case4 inner s ih =>
    obtain ⟨inner', hinner, rfl⟩ := Option.map_eq_some_iff.mp he
    obtain ⟨l, r, mid, hts, hl, hin, hr⟩ := h
    exact ⟨l, r, mid, hts, hl, ih hin hinner, hr⟩
  | case5 inner s ih =>
    obtain ⟨inner', hinner, rfl⟩ := Option.map_eq_some_iff.mp he
    obtain ⟨t, mid, hts, ht, hin, hs⟩ := h
    exact ⟨t, mid, hts, ht, ih hin hinner, hs⟩
  | case6 => simp at he

/-- The span is that of the last token before `rest`. -/
def Span.Closes (ts rest : List Token) (s : Span) : Prop :=
  ∃ last, last :: rest <:+ ts ∧ s = last.span

namespace Span.Closes

variable {s : Span} {t : Token} {ts all rest : List Token}

theorem widen (h : s.Closes ts rest) (hts : ts <:+ all) : s.Closes all rest := by
  obtain ⟨last, hlast, hs⟩ := h
  exact ⟨last, hlast.trans hts, hs⟩

theorem stretches (h : s.Closes ts rest) (hts : InOrder (t :: ts)) :
    (t.span.through s).Stretches (t :: ts) rest := by
  obtain ⟨last, hlast, rfl⟩ := h
  exact .tokens hts hlast

end Span.Closes

namespace Grammar

variable {env : Env} {ts rest : List Token} {names : Names}

theorem expr_stands {e : Expr} (h : Gives (expr env ts) e rest) (hts : InOrder ts) :
    e.Stands .placed ts rest := by
  obtain ⟨e₀, he, -, -, hstands⟩ := expr_yields h hts
  rw [he]
  exact (hstands.mono Manner.read_within_placed List.suffix_rfl).withCalls (fun _ => rfl) env true

theorem param_stands {p : Param} (h : Gives (param env ts) p rest) : p.Stands ts rest := by
  obtain ⟨s, _, mid, rfl, hty⟩ := param_inv h
  exact ⟨_, _, mid, rfl, ⟨rfl, rfl⟩, rfl, (typeExpr_spelled hty).1⟩

theorem ParsesMembers.stand {ps : List Param} (h : ParsesMembers env ts ps names rest) :
    Param.MembersStand ps ts rest := by
  induction h with
  | nil => rfl
  | cons hp _ ih => exact ⟨_, _, param_stands hp, rfl, ih⟩

theorem ParsesParams.stand {ps : List Param} {more : Bool}
    (h : ParsesParams env ts ps more names rest) : Param.AllStand more ps ts rest := by
  induction h with
  | nil => rfl
  | variadic => exact ⟨_, rfl, rfl⟩
  | last hp _ => exact .inl ⟨rfl, rfl, param_stands hp⟩
  | cons hp _ ih => exact .inr ⟨_, _, param_stands hp, rfl, ih⟩

/-- Return type and parameters, after the name of a function and `fn`. -/
theorem ParsesSignature.stands {sig : Signature} (h : ParsesSignature env ts sig names rest)
    (s₁ s₂ : Span) :
      sig.Stands (⟨.identifier sig.name.name, sig.name.span⟩ :: ⟨.punct .colon, s₁⟩ ::
      ⟨.keyword .fn, s₂⟩ :: ts) rest := by
  obtain @⟨name, ret, _, mid, ps, more, _, _, hret, hps⟩ := h
  refine ⟨_, _, _, ts, mid, rfl, ⟨rfl, rfl⟩, rfl, rfl, ?_, ?_⟩
  · obtain ⟨_, hty⟩ | ⟨-, rfl, rfl⟩ := returnType_inv hret
    · exact .inl (typeExpr_spelled hty).1
    · exact .inr ⟨rfl, rfl⟩
  · cases hps with
    | none => exact .inl ⟨rfl, rfl, rfl⟩
    | parens hps => exact .inr ⟨_, _, _, rfl, rfl, hps.stand, rfl⟩

theorem assigned_stands {target : Ident} {e e' : Expr} (h : assigned env target e = .ok e')
    (he : e.Stands .placed ts rest) : e'.Stands .placed ts rest := by
  obtain ⟨_, -, ⟨rfl, -⟩ | hc⟩ := assigned_inv h
  · exact he
  · exact he.coerce? hc

/-- How a phrase stands before `rest`. The span that an `if` ends with is handed on from its body to
its alternatives. -/
def Phrase.Stands (ts rest : List Token) : Phrase → Prop
  | .stmt s => s.Stands ts rest
  | .stmts ss => Stmt.AllStand ss ts rest
  | .block ss close => InBraces (Stmt.AllStand ss) ts rest ∧ close.Closes ts.tail rest
  | .alternative last a close => a.Stands ts rest ∧
    ∀ all, ts <:+ all → last.Closes all ts → close.Closes all rest

theorem Parses.stands {x : Phrase} (h : Parses env ts x names rest) (hts : InOrder ts) :
    x.Stands ts rest := by
  induction h with
  | structDef hms _ =>
    exact ⟨.tokens hts (hms.local.suffix.trans ⟨[_, _, _], rfl⟩), _, _, _, _, rfl,
      ⟨rfl, rfl⟩, rfl, rfl, _, _, _, rfl, rfl, hms.stand, rfl⟩
  | fnDecl hsig _ =>
    exact ⟨.tokens hts (hsig.local.suffix.trans ⟨[_, _], rfl⟩), _, hsig.stands _ _, rfl⟩
  | fnDef hsig hbody _ ih =>
    have hmid := (List.suffix_cons _ _).trans hsig.local.suffix
    exact ⟨.tokens hts (hbody.rest.trans (hmid.trans ⟨[_, _], rfl⟩)), _,
      hsig.stands _ _, _, _, _, rfl, rfl, ih (hts.suffix (hmid.trans ⟨[_, _, _], rfl⟩)), rfl⟩
  | varDef _ hty =>
    have hty := (typeExpr_spelled hty).1
    exact ⟨.tokens hts (hty.rest.trans (List.suffix_cons _ _)), _, _, _, _, rfl, ⟨rfl, rfl⟩, rfl,
      .inl ⟨_, rfl, hty, rfl⟩⟩
  | varInit _ hty he =>
    have hty := (typeExpr_spelled hty).1
    have hmid := (List.suffix_cons _ _).trans hty.rest
    exact ⟨.tokens hts ((expr_rest he).trans (hmid.trans (List.suffix_cons _ _))), _, _, _, _, rfl,
      ⟨rfl, rfl⟩, rfl, .inl ⟨_, rfl, hty, _, _, rfl, rfl,
        expr_stands he (hts.suffix (hmid.trans ⟨[_, _], rfl⟩))⟩⟩
  | quickDef he _ =>
    exact ⟨.tokens hts ((expr_rest he).trans (List.suffix_cons _ _)), _, _, _, _, rfl,
      ⟨rfl, rfl⟩, rfl, .inr ⟨_, rfl, rfl, expr_stands he (hts.suffix ⟨[_, _], rfl⟩)⟩⟩
  | expr he =>
    have he := expr_stands he hts
    exact ⟨he.span.through hts List.suffix_rfl rfl, _, he, rfl⟩
  | varSet htarget he hset =>
    have htarget := expr_stands htarget hts
    have hmid := (List.suffix_cons _ _).trans htarget.rest
    obtain ⟨n, hn, hnames⟩ := htarget.names
    exact ⟨htarget.span.through hts ((expr_rest he).trans (List.suffix_cons _ _)) rfl,
      n, _, _, _, hn, hnames, rfl, assigned_stands hset (expr_stands he (hts.suffix hmid)), rfl⟩
  | memberSet htarget he =>
    have htarget := expr_stands htarget hts
    have hmid := (List.suffix_cons _ _).trans htarget.rest
    exact ⟨htarget.span.through hts ((expr_rest he).trans (List.suffix_cons _ _)) rfl, _,
      _, _, htarget, rfl, expr_stands he (hts.suffix hmid), rfl⟩
  | return_ => exact ⟨.tokens hts List.suffix_rfl, _, _, _, rfl, rfl, rfl, rfl⟩
  | returnValue he =>
    exact ⟨.tokens hts (expr_rest he), _, _, _, rfl, rfl,
      expr_stands he (hts.suffix (List.suffix_cons _ _)), rfl⟩
  | break_ => exact ⟨.tokens hts List.suffix_rfl, _, _, rfl, rfl, rfl⟩
  | for_ he _ ih =>
    have htail := hts.suffix (List.suffix_cons _ _)
    have hmid := expr_rest he
    obtain ⟨hbraces, hcloses⟩ := ih (htail.suffix hmid)
    exact ⟨(hcloses.widen ((List.tail_suffix _).trans hmid)).stretches hts, _, _, _, rfl, rfl,
      expr_stands he htail, hbraces⟩
  | if_ he hbody _ ih ih' =>
    have htail := hts.suffix (List.suffix_cons _ _)
    have hmid := expr_rest he
    have hafter := hbody.rest.trans hmid
    obtain ⟨hbraces, hcloses⟩ := ih (htail.suffix hmid)
    obtain ⟨halts, hends⟩ := ih' (htail.suffix hafter)
    have hends := hends _ hafter (hcloses.widen ((List.tail_suffix _).trans hmid))
    exact ⟨hends.stretches hts, _, _, _, _, rfl, rfl, expr_stands he htail, hbraces, halts⟩
  | braces hbody _ ih =>
    exact ⟨.tokens hts hbody.rest, _, _, _, rfl, rfl, ih (hts.suffix (List.suffix_cons _ _)), rfl⟩
  | none => exact ⟨rfl, fun _ _ hlast => hlast⟩
  | else_ _ ih =>
    obtain ⟨hbraces, hcloses⟩ := ih (hts.suffix (List.suffix_cons _ _))
    refine ⟨⟨_, _, rfl, rfl, hbraces⟩, fun all hall _ => hcloses.widen ?_⟩
    exact (List.tail_suffix _).trans ((List.suffix_cons _ _).trans hall)
  | elif he hbody _ ih ih' =>
    have htail := hts.suffix (List.suffix_cons _ _)
    have hmid := expr_rest he
    have hafter := hbody.rest.trans hmid
    obtain ⟨hbraces, hcloses⟩ := ih (htail.suffix hmid)
    obtain ⟨halts, hends⟩ := ih' (htail.suffix hafter)
    refine ⟨⟨_, _, _, _, rfl, rfl, expr_stands he htail, hbraces, halts⟩, fun all hall _ => ?_⟩
    have hall := (List.suffix_cons _ _).trans hall
    exact hends all (hafter.trans hall) (hcloses.widen
      ((List.tail_suffix _).trans (hmid.trans hall)))
  | block hbody _ ih =>
    exact ⟨⟨_, _, _, rfl, rfl, ih (hts.suffix (List.suffix_cons _ _)), rfl⟩, _, hbody.rest, rfl⟩
  | nil => rfl
  | cons _ hs _ ih ih' => exact ⟨_, ih hts, ih' (hts.suffix hs.rest)⟩

theorem program_stands (env : Env) (ts : List Token) (p : Program) (h : program env ts = .ok p)
    (hts : InOrder ts) : Stmt.AllStand p ts [] := by
  obtain ⟨_, hp⟩ := program_parses env ts h
  exact hp.stands hts

end Grammar

end Frontend
