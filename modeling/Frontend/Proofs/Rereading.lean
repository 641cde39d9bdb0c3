import Frontend.Proofs.RelocatedReading
import Frontend.Proofs.Yields

/-!
What is written is what is read. From the tokens of a layered tree that stands before something that
cannot extend it, the readers give that very tree, with calls added. A tree is read from the left,
so each part is followed by what its reader does next: chains by more arguments and members, casts
by more casts, operands by more operators.
-/
namespace Frontend

namespace Grammar

variable {env : Env} {n level : Nat} {t : Token} {ts mid rest final : List Token} {e out : Expr}

theorem typeExpr_gives (eof : Span) {ty : Ty} {ts rest : List Token}
    (h : Manner.read.type ty ts rest) :
    ∃ last, last :: rest <:+ ts ∧ Gives (typeExpr eof ts) (ty, last.span) rest := by
  induction (h : Ty.Spelled _ ty ts rest) with
  | @prim t k p rest ht hp =>
    refine ⟨t, List.suffix_rfl, .before (.prim p 0, t.span) rest, ?_, rfl, rfl⟩
    rw [typeExpr, ht]
    cases k <;> simp [Keyword.base?] at hp <;> subst hp <;> rfl
  | @named t name rest ht =>
    refine ⟨t, List.suffix_rfl, .before (.inst name 0, t.span) rest, ?_, rfl, rfl⟩
    rw [typeExpr, ht]
  | @star t ty ts rest ht hty ih =>
    obtain ⟨last, hlast, ⟨_, rest, hlt⟩, hr, rfl, rfl⟩ := ih
    refine ⟨last, hlast.trans (List.suffix_cons t ts),
      ⟨(ty.addLevels 1, last.span), rest, Nat.lt_succ_of_lt hlt⟩, ?_, rfl, rfl⟩
    rw [typeExpr, ht]
    exact bind_eq_ok.mpr ⟨_, hr, rfl⟩
  | @fn t ret ts rest ht hty ih =>
    obtain ⟨last, hlast, ⟨_, rest, hlt⟩, hr, rfl, rfl⟩ := ih
    refine ⟨last, hlast.trans (List.suffix_cons t ts),
      ⟨(.fn ret 0, last.span), rest, Nat.lt_succ_of_lt hlt⟩, ?_, rfl, rfl⟩
    rw [typeExpr, ht]
    dsimp only
    rw [if_pos (startsType_of_spelled hty)]
    exact bind_eq_ok.mpr ⟨_, hr, rfl⟩
  | @procedure t rest ht hnext =>
    refine ⟨t, List.suffix_rfl, .before (.fn .void 0, t.span) rest, ?_, rfl, rfl⟩
    rw [typeExpr, ht]
    dsimp only
    rw [if_neg (Bool.eq_false_iff.mp hnext)]

theorem NoSuffix.punct {p : Punct} (ht : t.lexeme = .punct p)
    (hp : p ≠ .lParen ∧ p ≠ .dot ∧ p ≠ .arrow) : NoSuffix (t :: rest) := by
  have hpeek : peek (t :: rest) = .punct p := Lexeme.kind_eq_punct.mpr ht
  simpa [NoSuffix, hpeek] using hp

/-- A primary and the arguments and members after it. -/
def ChainGives (env : Env) (ts : List Token) (out : Expr) (final : List Token) : Prop :=
  ∃ head mid, Builds env ts (.head head) mid ∧ Builds env mid (.suffixes head out) final

/-- What stands after the operators at the front, and the operators applied to it. -/
def Under (op? : Kind → Option UnaryOp) (inner : List Token → Expr → List Token → Prop)
    (ts : List Token) (out : Expr) (final : List Token) : Prop :=
  ∃ e, inner (operators op? ts).rest e final ∧ applyOperators (operators op? ts).value e = out

section Under

variable {op? : Kind → Option UnaryOp} {inner : List Token → Expr → List Token → Prop}

theorem Under.none (hfirst : op? (peek ts) = .none) (h : inner ts e final) :
    Under op? inner ts e final := by
  obtain ⟨hvalue, hrest⟩ := operators_none ts hfirst
  refine ⟨e, ?_, ?_⟩
  · rwa [hrest]
  · rw [hvalue]
    rfl

theorem Under.cons {op : UnaryOp} (ht : op? t.kind = some op) (h : Under op? inner ts e final) :
    Under op? inner (t :: ts) (.unary op e (t.span.through e.span)) final := by
  obtain ⟨e, he, rfl⟩ := h
  obtain ⟨hvalue, hrest⟩ := operators_some ht ts
  refine ⟨e, ?_, ?_⟩
  · rwa [hrest]
  · rw [hvalue]
    rfl

end Under

/-- A chain under its addresses and dereferences. -/
def AddressGives (env : Env) : List Token → Expr → List Token → Prop :=
  Under addressOp? (ChainGives env)

/-- The same, and the casts after it. -/
def CastGives (env : Env) (ts : List Token) (out : Expr) (final : List Token) : Prop :=
  ∃ e mid, AddressGives env ts e mid ∧ Builds env mid (.casts e out) final

/-- The same under its signs: an operand of binary operators. -/
def OperandGives (env : Env) : List Token → Expr → List Token → Prop :=
  Under signOp? (CastGives env)

theorem OperandGives.builds (h : OperandGives env ts e rest) : Builds env ts (.operand e) rest := by
  obtain ⟨_, ⟨_, _, ⟨_, ⟨_, _, hhead, hsuffixes⟩, rfl⟩, hcasts⟩, rfl⟩ := h
  exact .operand hhead hsuffixes hcasts

/-- What the first token tells of a tree. -/
structure Begins (e : Expr) (ts : List Token) : Prop where
  opens : endsAt (.punct .rParen) ts = false
  noSign : 11 ≤ e.tier → signOp? (peek ts) = none
  noAddress : 13 ≤ e.tier → addressOp? (peek ts) = none

theorem begins {e : Expr} {ts rest : List Token} (hlayered : e.Layered)
    (h : e.Stands .read ts rest) : Begins e ts := by
  cases e with
  | literal v ty s =>
    obtain ⟨t, rfl, hlit, -⟩ := h
    have hmeans : t.lexeme.Means v ty := hlit
    cases ht : t.lexeme <;> rw [ht] at hmeans <;> first | exact hmeans.elim | skip
    all_goals
      constructor <;> intros <;> simp [endsAt, peek, Token.kind, Lexeme.kind, ht,
        signOp?, addressOp?]
  | ident =>
    obtain ⟨t, rfl, ht, -⟩ := h
    constructor <;> intros <;> simp [endsAt, peek, Token.kind, Lexeme.kind, ht, signOp?, addressOp?]
  | paren =>
    obtain ⟨t, r, mid, rfl, ht, -⟩ := h
    constructor <;> intros <;> simp [endsAt, peek, Token.kind, Lexeme.kind, ht, signOp?, addressOp?]
  | unary op =>
    obtain ⟨t, mid, rfl, ht, -⟩ := h
    cases op <;> constructor <;> intros <;>
      simp_all [endsAt, peek, Token.kind, Lexeme.kind, UnaryOp.mark, Expr.tier,
      UnaryOp.isSign, signOp?]
  | binary op =>
    obtain ⟨t, mid, hlhs, -⟩ := h
    have hlevel := op.level_le
    have hbegins := begins hlayered.2.2.1 hlhs
    exact ⟨hbegins.opens, fun h => absurd h (by simp only [Expr.tier]; omega),
      fun h => absurd h (by simp only [Expr.tier]; omega)⟩
  | cast =>
    obtain ⟨t, mid, hoperand, -⟩ := h
    have hbegins := begins hlayered.2 hoperand
    exact ⟨hbegins.opens, fun _ => hbegins.noSign hlayered.1,
      fun h => absurd h (by simp [Expr.tier])⟩
  | call =>
    obtain ⟨l, r, mid, hcallee, -⟩ | ⟨-, -, hadded⟩ := h
    · have hbegins := begins hlayered.2.1 hcallee
      exact ⟨hbegins.opens, fun _ => hbegins.noSign (Nat.le_trans (by decide) hlayered.1),
        fun _ => hbegins.noAddress hlayered.1⟩
    · exact hadded.elim
  | member =>
    obtain ⟨t, i, hobject, -⟩ := h
    have hbegins := begins hlayered.2 hobject
    exact ⟨hbegins.opens, fun _ => hbegins.noSign (Nat.le_trans (by decide) hlayered.1),
      fun _ => hbegins.noAddress hlayered.1⟩

/-- Nothing comes next that could extend an expression. -/
structure Ends (rest : List Token) : Prop where
  noSuffix : NoSuffix rest
  noCast : peek rest ≠ .keyword .as_
  noOperator : binaryOp? (peek rest) = none

theorem Ends.nil : Ends [] := ⟨⟨nofun, nofun, nofun⟩, nofun, rfl⟩

theorem Ends.punct {p : Punct} (hp : p = .rParen ∨ p = .comma) (ht : t.lexeme = .punct p) :
    Ends (t :: rest) := by
  have hpeek : peek (t :: rest) = .punct p := Lexeme.kind_eq_punct.mpr ht
  rcases hp with rfl | rfl <;> constructor <;> simp [NoSuffix, hpeek, binaryOp?]

section Readings

variable (env : Env) (e : Expr) (ts rest : List Token)

/-- Read as the start of a chain that goes on at `rest`. -/
def ReadAsChain : Prop := ∀ ⦃out final⦄,
  Builds env rest (.suffixes (e.withCalls env false) out) final → ChainGives env ts out final

def ReadAsAddress : Prop := NoSuffix rest → AddressGives env ts (e.withCalls env true) rest

/-- Read as what the casts at `rest` are applied to. -/
def ReadAsCast : Prop := NoSuffix rest → ∀ ⦃out final⦄,
  Builds env rest (.casts (e.withCalls env true) out) final → CastGives env ts out final

def ReadAsOperand : Prop := NoSuffix rest → peek rest ≠ .keyword .as_ →
  OperandGives env ts (e.withCalls env true) rest

/-- Read as the left operand of the operators at `rest`, none of which binds tighter. -/
def ReadAsExpr : Prop := NoSuffix rest → peek rest ≠ .keyword .as_ → ∀ level ≤ e.tier,
  (∀ op, binaryOp? (peek rest) = some op → op.level ≤ e.tier) → ∀ ⦃out final⦄,
  Builds env rest (.operators level (e.withCalls env true) out) final →
  Builds env ts (.expr level out) final

/-- The tree is read back, by each reader that its tier allows, from where it stands before
`rest`. -/
structure Reread : Prop where
  chain : 13 ≤ e.tier → ReadAsChain env e ts rest
  address : 12 ≤ e.tier → ReadAsAddress env e ts rest
  cast : 11 ≤ e.tier → ReadAsCast env e ts rest
  operand : 10 ≤ e.tier → ReadAsOperand env e ts rest
  expr : ReadAsExpr env e ts rest

end Readings

theorem ReadAsChain.address (h : ReadAsChain env e ts rest) (hbegins : Begins e ts)
    (htier : 13 ≤ e.tier) : ReadAsAddress env e ts rest := by
  intro hsuffix
  rw [Expr.withCalls_of_chain env htier]
  exact .none (hbegins.noAddress htier) (h (.noSuffix hsuffix))

theorem ReadAsAddress.cast (h : ReadAsAddress env e ts rest) : ReadAsCast env e ts rest :=
  fun hsuffix _ _ hout => ⟨_, _, h hsuffix, hout⟩

theorem ReadAsCast.operand (h : ReadAsCast env e ts rest) (hbegins : Begins e ts)
    (htier : 11 ≤ e.tier) : ReadAsOperand env e ts rest :=
  fun hsuffix hcast => .none (hbegins.noSign htier) (h hsuffix (.noCast hcast))

theorem ReadAsOperand.expr (h : ReadAsOperand env e ts rest) : ReadAsExpr env e ts rest :=
  fun hsuffix hcast _ _ _ _ _ hout => (.expr (h hsuffix hcast).builds hout)

namespace Reread

theorem ofExpr (htier : e.tier < 10) (h : ReadAsExpr env e ts rest) : Reread env e ts rest where
  chain := fun h => absurd h (by omega)
  address := fun h => absurd h (by omega)
  cast := fun h => absurd h (by omega)
  operand := fun h => absurd h (by omega)
  expr := h

theorem ofOperand (htier : e.tier = 10) (h : ReadAsOperand env e ts rest) :
    Reread env e ts rest where
  chain := fun h => absurd h (by omega)
  address := fun h => absurd h (by omega)
  cast := fun h => absurd h (by omega)
  operand := fun _ => h
  expr := h.expr

theorem ofCast (hbegins : Begins e ts) (htier : e.tier = 11) (h : ReadAsCast env e ts rest) :
    Reread env e ts rest :=
  have hoperand := h.operand hbegins (Nat.le_of_eq htier.symm)
  { chain := fun h => absurd h (by omega)
    address := fun h => absurd h (by omega)
    cast := fun _ => h
    operand := fun _ => hoperand
    expr := hoperand.expr }

theorem ofAddress (hbegins : Begins e ts) (htier : e.tier = 12) (h : ReadAsAddress env e ts rest) :
    Reread env e ts rest :=
  have hoperand := h.cast.operand hbegins (by omega)
  { chain := fun h => absurd h (by omega)
    address := fun _ => h
    cast := fun _ => h.cast
    operand := fun _ => hoperand
    expr := hoperand.expr }

theorem ofChain (hbegins : Begins e ts) (htier : e.tier = 13) (h : ReadAsChain env e ts rest) :
    Reread env e ts rest :=
  have haddress := h.address hbegins (Nat.le_of_eq htier.symm)
  have hoperand := haddress.cast.operand hbegins (by omega)
  { chain := fun _ => h
    address := fun _ => haddress
    cast := fun _ => haddress.cast
    operand := fun _ => hoperand
    expr := hoperand.expr }

/-- A whole expression is read where nothing extends it. -/
theorem whole (h : Reread env e ts rest) (hrest : Ends rest) :
    Builds env ts (.expr 0 (e.withCalls env true)) rest := by
  have hnone : ∀ {P : BinaryOp → Prop} op, binaryOp? (peek rest) = some op → P op := by
    intro P op hop
    rw [hrest.noOperator] at hop
    simp at hop
  exact h.expr hrest.noSuffix hrest.noCast 0 (Nat.zero_le _) hnone (.noOperator hnone)

/-- A binary operator is found after its left operand, and its right operand ends before the next
one that binds no tighter. -/
theorem binary {op : BinaryOp} {lhs rhs : Expr} {s : Span} (hlhs : Reread env lhs ts (t :: mid))
    (ht : t.lexeme = .punct op.mark) (hrhs : Reread env rhs mid rest) (hl : op.level ≤ lhs.tier)
    (hr : op.level < rhs.tier) (hs : s = lhs.span.through rhs.span) :
    ReadAsExpr env (.binary op lhs rhs s) ts rest := by
  intro hsuffix hcast level hlevel hnext out final hout
  have hkind : peek (t :: mid) = .punct op.mark := Lexeme.kind_eq_punct.mpr ht
  have hright : Builds env mid (.expr (op.level + 1) (rhs.withCalls env true)) rest :=
    hrhs.expr hsuffix hcast _ hr (fun op' hop' =>
      Nat.le_of_lt (Nat.lt_of_le_of_lt (hnext op' hop') hr))
      (.noOperator fun op' hop' => Nat.lt_succ_of_le (hnext op' hop'))
  refine hlhs.expr (.punct ht (by cases op <;> decide)) (by simp [hkind]) level
    (Nat.le_trans hlevel hl) ?_ (.operator (binaryOp?_eq_some.mpr hkind) hlevel hright ?_)
  · intro op' hop'
    rw [hkind, binaryOp?_eq_some.mpr rfl] at hop'
    obtain rfl := Option.some.inj hop'
    exact hl
  · subst hs
    simpa only [Expr.withCalls, Expr.span_withCalls] using hout

end Reread

mutual

/-- By induction on the tree: what stands to the right of a part is what its reader goes on with. -/
theorem reread (env : Env) {e : Expr} {ts rest : List Token} (hts : InOrder ts)
    (hlayered : e.Layered) (h : e.Stands .read ts rest) : Reread env e ts rest := by
  have hbegins := begins hlayered h
  cases e with
  | literal v ty s =>
    obtain ⟨t, rfl, hlit, hs⟩ := h
    obtain rfl : s = t.span := hs.unique (.token t rest)
    exact .ofChain hbegins rfl fun _ _ hout => ⟨_, _, .literal hlit, hout⟩
  | ident id =>
    obtain ⟨t, rfl, ht, hs⟩ := h
    obtain ⟨name, s⟩ := id
    obtain rfl : s = t.span := hs.unique (.token t rest)
    exact .ofChain hbegins rfl fun _ _ hout => ⟨_, _, .ident ht, hout⟩
  | paren inner s =>
    obtain ⟨l, ⟨_, close⟩, mid, rfl, hl, hinner, rfl, hs⟩ := h
    have hlayered : inner.Layered := hlayered
    have hwhole := (reread env (hts.suffix (List.suffix_cons l mid)) hlayered hinner).whole
      (.punct (.inl rfl) rfl)
    obtain rfl : s = l.span.through close :=
      hs.unique ((Span.Stretches.token l mid).through hts hinner.rest rfl)
    exact .ofChain hbegins rfl fun _ _ hout => ⟨_, _, .paren hl hwhole, hout⟩
  | unary op operand s =>
    obtain ⟨t, mid, rfl, ht, hoperand, hs⟩ := h
    obtain ⟨htier, hlayered⟩ := hlayered
    have hread := reread env (hts.suffix (List.suffix_cons t mid)) hlayered hoperand
    have hkind : t.kind = .punct op.mark := Lexeme.kind_eq_punct.mpr ht
    obtain ⟨last, hlast, hhi⟩ := hoperand.span.last_suffix
    obtain rfl : s = t.span.through (operand.withCalls env true).span := by
      rw [Expr.span_withCalls]
      exact hs.unique ((Span.Stretches.token t mid).through hts hlast hhi)
    cases hsign : op.isSign with
    | true =>
      rw [hsign] at htier
      exact .ofOperand (if_pos hsign) fun hsuffix hcast =>
        .cons (signOp?_eq_some.mpr ⟨hkind, hsign⟩) (hread.operand htier hsuffix hcast)
    | false =>
      rw [hsign] at htier
      exact .ofAddress hbegins (if_neg (Bool.eq_false_iff.mp hsign)) fun hsuffix =>
        .cons (addressOp?_eq_some.mpr ⟨hkind, hsign⟩) (hread.address htier hsuffix)
  | binary op lhs rhs s =>
    obtain ⟨t, mid, hlhs, ht, hrhs, hs⟩ := h
    obtain ⟨hl, hr, hlayered, hlayered'⟩ := hlayered
    have hmid := (hts.suffix hlhs.rest).suffix (List.suffix_cons t mid)
    obtain ⟨last, hlast, hhi⟩ := hrhs.span.last_suffix
    exact .ofExpr (Nat.lt_succ_of_le op.level_le) ((reread env hts hlayered hlhs).binary ht
      (reread env hmid hlayered' hrhs) hl hr
      (hs.unique (hlhs.span.through hts (hlast.trans (List.suffix_cons t mid)) hhi)))
  | cast operand ty s =>
    obtain ⟨t, mid, hoperand, ht, hty, hs⟩ := h
    obtain ⟨htier, hlayered⟩ := hlayered
    obtain ⟨last, hlast, hgives⟩ := typeExpr_gives env.eof hty
    have hread := reread env hts hlayered hoperand
    obtain rfl : s = (operand.withCalls env true).span.through last.span := by
      rw [Expr.span_withCalls]
      exact hs.unique (hoperand.span.through hts (hlast.trans (List.suffix_cons t mid)) rfl)
    have hkind : peek (t :: mid) = .keyword .as_ := Lexeme.kind_eq_keyword.mpr ht
    exact .ofCast hbegins rfl fun _ _ _ hout =>
      hread.cast htier (by simp [NoSuffix, hkind]) (.cast ht hgives hout)
  | call callee args s =>
    obtain ⟨⟨_, open_⟩, ⟨_, close⟩, mid, hcallee, rfl, hargs, rfl, hs⟩ | ⟨-, -, hadded⟩ := h
    · obtain ⟨htier, hlayered, hlayered'⟩ := hlayered
      have hmid := (hts.suffix hcallee.rest).suffix (List.suffix_cons _ mid)
      have hinside := arguments_reread env hmid hlayered' hargs
      obtain rfl : s = (callee.withCalls env false).span.through close := by
        rw [Expr.span_withCalls]
        exact hs.unique (hcallee.span.through hts (hargs.rest.trans (List.suffix_cons _ mid)) rfl)
      exact .ofChain hbegins rfl fun _ _ hout =>
        (reread env hts hlayered hcallee).chain htier (.call hinside hout)
    · exact hadded.elim
  | member object field arrow s =>
    obtain ⟨⟨_, mark⟩, ⟨_, last⟩, hobject, rfl, rfl, hfield, hs⟩ := h
    obtain ⟨htier, hlayered⟩ := hlayered
    obtain rfl : last = field.span := (hfield.unique
      (.token ⟨.identifier field.name, last⟩ rest)).symm
    obtain rfl : s = (object.withCalls env false).span.through field.span := by
      rw [Expr.span_withCalls]
      exact hs.unique (hobject.span.through hts (List.suffix_cons _ _) rfl)
    exact .ofChain hbegins rfl fun _ _ hout =>
      (reread env hts hlayered hobject).chain htier (.member hout)

theorem arguments_reread (env : Env) {es : List Expr} {close : Span} {ts rest : List Token}
    (hts : InOrder ts) (hlayered : Expr.AllLayered es)
    (h : Expr.AllStand .read es ts (⟨.punct .rParen, close⟩ :: rest)) :
    Builds env ts (.arguments (Expr.allWithCalls env es)) (⟨.punct .rParen, close⟩ :: rest) := by
  cases es with
  | nil =>
    obtain rfl : ts = ⟨.punct .rParen, close⟩ :: rest := h
    exact .noArgument rfl
  | cons e es =>
    obtain ⟨hlayered, hlayered'⟩ := hlayered
    obtain ⟨rfl, he⟩ | ⟨⟨_, _⟩, mid, he, rfl, hes⟩ := h
    · exact .lastArgument (begins hlayered he).opens
        ((reread env hts hlayered he).whole (.punct (.inl rfl) rfl)) rfl
    · have hmid := (hts.suffix he.rest).suffix (List.suffix_cons _ mid)
      exact .argument (begins hlayered he).opens
        ((reread env hts hlayered he).whole (.punct (.inr rfl) rfl))
        (arguments_reread env hmid hlayered' hes)

end

end Grammar

end Frontend
