import Frontend.Proofs.Writing

/-!
What is read is what is written. Every reader of expressions gives a tree that is layered and stands
where it was read, each node with the span from its first to its last token, but for the calls that
are added to chains that stand for functions.
-/
namespace Frontend

/-- Exactly as it is read, before calls are added: levels stay within a signed byte, and spans run
from the first token to the last. -/
def Manner.read : Manner where
  literal := Lexeme.Means
  type := Ty.Spelled fun ty => ty.addLevels 1
  span := Span.Stretches
  added _ _ := False
  type_rest h := h.rest
  span_added := nofun

namespace Grammar

variable {env : Env} {all ts mid rest : List Token} {e : Expr}

theorem binaryOp?_eq_some {k : Kind} {op : BinaryOp} :
    binaryOp? k = some op ↔ k = .punct op.mark := by
  constructor
  · intro h
    unfold binaryOp? at h
    split at h
    · split at h <;> simp at h <;> subst h <;> rfl
    · simp at h
  · rintro rfl
    cases op <;> rfl

theorem signOp?_eq_some {k : Kind} {op : UnaryOp} :
    signOp? k = some op ↔ k = .punct op.mark ∧ op.isSign = true := by
  constructor
  · intro h
    unfold signOp? at h
    split at h <;> simp at h <;> subst h <;> exact ⟨rfl, rfl⟩
  · rintro ⟨rfl, h⟩
    cases op <;> simp [UnaryOp.isSign] at h <;> rfl

theorem addressOp?_eq_some {k : Kind} {op : UnaryOp} :
    addressOp? k = some op ↔ k = .punct op.mark ∧ op.isSign = false := by
  constructor
  · intro h
    unfold addressOp? at h
    split at h <;> simp at h <;> subst h <;> exact ⟨rfl, rfl⟩
  · rintro ⟨rfl, h⟩
    cases op <;> simp [UnaryOp.isSign] at h <;> rfl

theorem signOp?_tier (k : Kind) (op : UnaryOp) (h : signOp? k = some op) :
    k = .punct op.mark ∧ (if op.isSign then 10 else 12) = 10 := by
  obtain ⟨hk, hsign⟩ := signOp?_eq_some.mp h
  exact ⟨hk, if_pos hsign⟩

theorem addressOp?_tier (k : Kind) (op : UnaryOp) (h : addressOp? k = some op) :
    k = .punct op.mark ∧ (if op.isSign then 10 else 12) = 12 := by
  obtain ⟨hk, hsign⟩ := addressOp?_eq_some.mp h
  exact ⟨hk, if_neg (Bool.eq_false_iff.mp hsign)⟩

/-- The expression is a layered tree of at least this tier that stands before `rest`, with calls
added; the last chain may still go on unless it `ends`. -/
def Yields (env : Env) (tier : Nat) (ends : Bool) (ts : List Token) (e : Expr) (rest : List Token) :
    Prop :=
  ∃ e₀ : Expr, e = e₀.withCalls env ends ∧ tier ≤ e₀.tier ∧ e₀.Layered ∧ e₀.Stands .read ts rest

namespace Yields

variable {tier : Nat} {ends : Bool}

theorem span (h : Yields env tier ends ts e rest) : e.span.Stretches ts rest := by
  obtain ⟨e₀, rfl, -, -, hstands⟩ := h
  rw [Expr.span_withCalls]
  exact hstands.span

theorem suffix (h : Yields env tier ends ts e rest) : rest <:+ ts := by
  obtain ⟨e₀, -, -, -, hstands⟩ := h
  exact hstands.rest

theorem weaken {tier' : Nat} (htier : tier' ≤ tier) (h : Yields env tier ends ts e rest) :
    Yields env tier' ends ts e rest := by
  obtain ⟨e₀, he, ht, h₀⟩ := h
  exact ⟨e₀, he, Nat.le_trans htier ht, h₀⟩

/-- A chain that ends is called if it stands for a function. -/
theorem close (h : Yields env 13 false ts e rest) :
    Yields env 13 true ts (if isFunction env e then .call e [] e.span else e) rest := by
  obtain ⟨e₀, rfl, ht, h₀⟩ := h
  exact ⟨e₀, (Expr.withCalls_of_chain env ht).symm, ht, h₀⟩

theorem literal {t : Token} {v : Value} {ty : Ty} (h : t.lexeme.Means v ty) :
    Yields env 13 false (t :: rest) (.literal v ty t.span) rest :=
  ⟨.literal v ty t.span, rfl, Nat.le_refl 13, trivial, t, rfl, h, .token t rest⟩

theorem ident {t : Token} {name : String} (h : t.lexeme = .identifier name) :
    Yields env 13 false (t :: rest) (.ident ⟨name, t.span⟩) rest :=
  ⟨.ident ⟨name, t.span⟩, rfl, Nat.le_refl 13, trivial, t, rfl, h, .token t rest⟩

theorem paren {l r : Token} (hts : InOrder (l :: mid)) (hl : l.lexeme = .punct .lParen)
    (h : Yields env tier true mid e (r :: rest)) (hr : r.lexeme = .punct .rParen) :
    Yields env 13 false (l :: mid) (.paren e (l.span.through r.span)) rest := by
  have hs := (Span.Stretches.token l mid).through hts h.suffix rfl
  obtain ⟨e₀, rfl, -, hlayered, hstands⟩ := h
  exact ⟨.paren e₀ (l.span.through r.span), rfl, Nat.le_refl 13, hlayered, l, r, mid, rfl, hl,
    hstands, hr, hs⟩

theorem unary {t : Token} {op : UnaryOp} (hts : InOrder (t :: ts)) (ht : t.lexeme = .punct op.mark)
    (htier : tier = if op.isSign then 10 else 12) (h : Yields env tier true ts e rest) :
    Yields env tier true (t :: ts) (.unary op e (t.span.through e.span)) rest := by
  obtain ⟨last, hlast, hhi⟩ := h.span.last_suffix
  have hs := (Span.Stretches.token t ts).through hts hlast hhi
  obtain ⟨e₀, rfl, hle, hlayered, hstands⟩ := h
  rw [Expr.span_withCalls] at hs ⊢
  subst htier
  exact ⟨.unary op e₀ (t.span.through e₀.span), rfl, Nat.le_refl _, ⟨hle, hlayered⟩, t, ts, rfl, ht,
    hstands, hs⟩

theorem binary {t : Token} {op : BinaryOp} {rhs : Expr} (hall : InOrder all)
    (hlhs : Yields env tier true all e (t :: ts)) (htier : op.level ≤ tier)
    (ht : t.lexeme = .punct op.mark) (hrhs : Yields env (op.level + 1) true ts rhs rest) :
    Yields env op.level true all (.binary op e rhs (e.span.through rhs.span)) rest := by
  obtain ⟨last, hlast, hhi⟩ := hrhs.span.last_suffix
  have hs := hlhs.span.through hall (hlast.trans (List.suffix_cons t ts)) hhi
  obtain ⟨e₀, rfl, hle, hlayered, hstands⟩ := hlhs
  obtain ⟨rhs₀, rfl, hle', hlayered', hstands'⟩ := hrhs
  rw [Expr.span_withCalls, Expr.span_withCalls] at hs ⊢
  exact ⟨.binary op e₀ rhs₀ (e₀.span.through rhs₀.span), rfl, Nat.le_refl _,
    ⟨Nat.le_trans htier hle, hle', hlayered, hlayered'⟩, t, ts, hstands, ht, hstands', hs⟩

theorem cast {t last : Token} {ty : Ty} (hall : InOrder all)
    (h : Yields env 11 true all e (t :: ts)) (ht : t.lexeme = .keyword .as_)
    (hty : Manner.read.type ty ts rest) (hlast : last :: rest <:+ ts) :
    Yields env 11 true all (.cast e ty (e.span.through last.span)) rest := by
  have hs := h.span.through hall (hlast.trans (List.suffix_cons t ts)) rfl
  obtain ⟨e₀, rfl, hle, hlayered, hstands⟩ := h
  rw [Expr.span_withCalls] at hs ⊢
  exact ⟨.cast e₀ ty (e₀.span.through last.span), rfl, Nat.le_refl 11, ⟨hle, hlayered⟩, t, ts,
    hstands, ht, hty, hs⟩

theorem member {t i : Token} {field : Ident} {arrow : Bool} (hall : InOrder all)
    (h : Yields env 13 false all e (t :: i :: rest))
    (ht : t.lexeme = .punct (if arrow then .arrow else .dot))
    (hi : i.lexeme = .identifier field.name) (hfield : field.span = i.span) :
    Yields env 13 false all (.member e field arrow (e.span.through field.span)) rest := by
  have hs := h.span.through hall (List.suffix_cons t (i :: rest)) (congrArg Span.hi hfield)
  obtain ⟨e₀, rfl, hle, hlayered, hstands⟩ := h
  rw [Expr.span_withCalls] at hs ⊢
  exact ⟨.member e₀ field arrow (e₀.span.through field.span), rfl, Nat.le_refl 13, ⟨hle, hlayered⟩,
    t, i, hstands, ht, hi, hfield ▸ .token i rest, hs⟩

/-- The arguments of a call, as `Yields` is for one expression. -/
def All (env : Env) (ts : List Token) (es : List Expr) (rest : List Token) : Prop :=
  ∃ es₀, es = Expr.allWithCalls env es₀ ∧ Expr.AllLayered es₀ ∧ Expr.AllStand .read es₀ ts rest

theorem All.suffix {es : List Expr} (h : All env ts es rest) : rest <:+ ts := by
  obtain ⟨es₀, -, -, hstand⟩ := h
  exact hstand.rest

theorem All.nil (ts : List Token) : All env ts [] ts := ⟨[], rfl, trivial, rfl⟩

theorem All.last (h : Yields env tier true ts e rest) : All env ts [e] rest := by
  obtain ⟨e₀, rfl, -, hlayered, hstands⟩ := h
  exact ⟨[e₀], rfl, ⟨hlayered, trivial⟩, .inl ⟨rfl, hstands⟩⟩

theorem All.cons {c : Token} {es : List Expr} (h : Yields env tier true ts e (c :: mid))
    (hc : c.lexeme = .punct .comma) (hes : All env mid es rest) : All env ts (e :: es) rest := by
  obtain ⟨e₀, rfl, -, hlayered, hstands⟩ := h
  obtain ⟨es₀, rfl, hlayered', hstand⟩ := hes
  exact ⟨e₀ :: es₀, rfl, ⟨hlayered, hlayered'⟩, .inr ⟨c, mid, hstands, hc, hstand⟩⟩

theorem call {l r : Token} {args : List Expr} (hall : InOrder all)
    (h : Yields env 13 false all e (l :: ts)) (hl : l.lexeme = .punct .lParen)
    (hargs : All env ts args (r :: rest)) (hr : r.lexeme = .punct .rParen) :
    Yields env 13 false all (.call e args (e.span.through r.span)) rest := by
  have hs := h.span.through hall (hargs.suffix.trans (List.suffix_cons l ts)) rfl
  obtain ⟨e₀, rfl, hle, hlayered, hstands⟩ := h
  obtain ⟨args₀, rfl, hlayered', hstand⟩ := hargs
  rw [Expr.span_withCalls] at hs ⊢
  exact ⟨.call e₀ args₀ (e₀.span.through r.span), rfl, Nat.le_refl 13, ⟨hle, hlayered, hlayered'⟩,
    .inl ⟨l, r, ts, hstands, hl, hstand, hr, hs⟩⟩

/-- Operators stand before what they are applied to, all of one tier. -/
theorem operators {op? : Kind → Option UnaryOp} {ts : List Token}
    (h : Yields env tier true (Grammar.operators op? ts).rest e rest)
    (hop : ∀ k op, op? k = some op → k = .punct op.mark ∧ (if op.isSign then 10 else 12) = tier)
    (hts : InOrder ts) :
    Yields env tier true ts (applyOperators (Grammar.operators op? ts).value e) rest := by
  induction ts with
  | nil => exact h
  | cons t ts ih =>
    cases ht : op? t.kind with
    | none =>
      simp only [Grammar.operators, ht] at h ⊢
      exact h
    | some op =>
      simp only [Grammar.operators, ht] at h ⊢
      obtain ⟨hkind, htier⟩ := hop _ _ ht
      exact unary hts (Lexeme.kind_eq_punct.mp hkind) htier.symm
        (ih h (hts.suffix (List.suffix_cons t ts)))

end Yields

/-- What reading the form makes of tokens in order. What has been read before them is of some tier,
and what comes next binds no tighter. -/
def Form.Yields (env : Env) (ts rest : List Token) : Form → Prop
  | .expr level e => level ≤ 10 → InOrder ts →
    Grammar.Yields env level true ts e rest ∧ NoTighter level rest
  | .operators level lhs e => ∀ ⦃all tier⦄, InOrder all → level ≤ tier →
    Grammar.Yields env tier true all lhs ts →
    (∀ op, binaryOp? (peek ts) = some op → op.level ≤ tier) →
    Grammar.Yields env level true all e rest ∧ NoTighter level rest
  | .operand e => InOrder ts → Grammar.Yields env 10 true ts e rest
  | .head e => InOrder ts → Grammar.Yields env 13 false ts e rest
  | .suffixes first e => ∀ ⦃all⦄, InOrder all → Grammar.Yields env 13 false all first ts →
    Grammar.Yields env 13 true all e rest
  | .casts inner e => ∀ ⦃all⦄, InOrder all → Grammar.Yields env 11 true all inner ts →
    Grammar.Yields env 11 true all e rest
  | .arguments es => InOrder ts → Yields.All env ts es rest

theorem Builds.yields {x : Form} (h : Builds env ts x rest) : x.Yields env ts rest := by
  induction h with
  | expr _ _ ih ih' =>
    exact fun hlevel hts => ih' hts hlevel (ih hts) fun op _ => Nat.le_succ_of_le op.level_le
  | noOperator hnext => exact fun _ _ _ hle hlhs _ => ⟨hlhs.weaken hle, hnext⟩
  | @operator _ t op _ _ _ ts _ _ hop hle _ _ ih ih' =>
    intro all tier hall _ hlhs hnext
    have ht : t.lexeme = .punct op.mark := Lexeme.kind_eq_punct.mp (binaryOp?_eq_some.mp hop)
    have hts := (hall.suffix hlhs.suffix).suffix (List.suffix_cons t ts)
    obtain ⟨hright, hafter⟩ := ih (Nat.succ_le_succ op.level_le) hts
    exact ih' hall hle (hlhs.binary hall (hnext op hop) ht hright)
      fun op' hop' => Nat.le_of_lt_succ (hafter op' hop')
  | @operand _ _ _ ts _ _ _ _ _ _ ih ih' ih'' =>
    intro hts
    have hts₁ := hts.suffix (operators_rest signOp? rfl ts)
    have hts₂ := hts₁.suffix (operators_rest addressOp? rfl _)
    have haddress := ((ih' hts₂ (ih hts₂)).weaken (by decide : 12 ≤ 13)).operators
      addressOp?_tier hts₁
    exact ((ih'' hts₁ (haddress.weaken (by decide))).weaken (by decide)).operators signOp?_tier hts
  | ident hname => exact fun _ => .ident hname
  | literal hmeans => exact fun _ => .literal hmeans
  | @paren l close _ ts _ hl _ ih =>
    exact fun hts => .paren (r := ⟨.punct .rParen, close⟩) hts hl
      (ih (by decide) (hts.suffix (List.suffix_cons l ts))).1 rfl
  | noSuffix _ => exact fun _ _ he => he.close
  | @call s close _ _ _ ts _ _ _ _ ih ih' =>
    intro all hall he
    have hmid := (hall.suffix he.suffix).suffix (List.suffix_cons _ ts)
    exact ih' hall (he.call (r := ⟨.punct .rParen, close⟩) hall rfl (ih hmid) rfl)
  | member _ ih => exact fun _ hall he => ih hall (he.member hall rfl rfl rfl)
  | noCast _ => exact fun _ _ he => he
  | cast ht hty _ ih =>
    intro all hall he
    obtain ⟨hspelled, last, hlast, rfl⟩ := typeExpr_spelled hty
    exact ih hall (he.cast hall ht hspelled hlast)
  | noArgument _ => exact fun _ => .nil _
  | lastArgument _ _ _ ih => exact fun hts => .last (ih (by decide) hts).1
  | @argument s _ _ _ mid _ _ h _ ih ih' =>
    intro hts
    have hmid := (hts.suffix h.rest).suffix (List.suffix_cons _ mid)
    exact .cons (ih (by decide) hts).1 rfl (ih' hmid)

theorem expr_yields {env : Env} {ts rest : List Token} {e : Expr} (h : Gives (expr env ts) e rest)
    (hts : InOrder ts) : Yields env 0 true ts e rest :=
  ((exprAt_builds env 0 ts h).yields (by decide) hts).1

end Grammar

end Frontend
