import Frontend.Proofs.Tiling
import Frontend.Proofs.Yields
import Mathlib.Algebra.Group.Nat.Defs

/-!
The grammar of expressions as it is usually written down, and its trees: tokens derive from the
grammar just when a layered tree stands there. Grouping is no matter of the grammar, which only
knows lists of operands and operators, so an operator is grafted onto the tree of what stands to its
left.
-/
namespace Frontend

open Grammar (peek startsType numberLiteral? binaryOp? binaryOp?_eq_some)

/-- The categories of the grammar. A chain is a primary with the argument lists and members after
it. -/
inductive Category where
  | expr | unary | cast | address | chain | primary | arguments | type

/-- The marks of binary operators, from the loosest to the tightest. -/
def Punct.binaries : List Punct :=
  [.pipePipe, .ampAmp, .pipe, .caret, .amp, .eqEq, .bangEq, .less, .lessEq, .greater,
    .greaterEq, .shl, .shr, .plus, .minus, .star, .slash, .percent]

/-- The tokens up to `rest` derive from the category. What the grammar repeats, a list of operands
or of suffixes, is derived from the left. -/
inductive Derives : Category → List Token → List Token → Prop where
  -- expr ::= unary (binop unary)*
  | operand {ts rest} : Derives .unary ts rest → Derives .expr ts rest
  | binary {t p ts mid rest} : Derives .expr ts (t :: mid) → t.lexeme = .punct p →
      p ∈ Punct.binaries → Derives .unary mid rest → Derives .expr ts rest
  -- unary ::= ('!' | '~' | '-') unary | cast
  | sign {t p ts rest} : t.lexeme = .punct p → p ∈ [.bang, .tilde, .minus] →
      Derives .unary ts rest → Derives .unary (t :: ts) rest
  | unsigned {ts rest} : Derives .cast ts rest → Derives .unary ts rest
  -- cast ::= address ('as' type)*
  | uncast {ts rest} : Derives .address ts rest → Derives .cast ts rest
  | cast {t ts mid rest} : Derives .cast ts (t :: mid) → t.lexeme = .keyword .as_ →
      Derives .type mid rest → Derives .cast ts rest
  -- address ::= ('@' | '*') address | chain
  | address {t p ts rest} : t.lexeme = .punct p → p ∈ [.at, .star] →
      Derives .address ts rest → Derives .address (t :: ts) rest
  | plain {ts rest} : Derives .chain ts rest → Derives .address ts rest
  -- chain ::= primary ('(' arguments ')' | ('.' | '->') identifier)*
  | head {ts rest} : Derives .primary ts rest → Derives .chain ts rest
  | call {l r ts mid rest} : Derives .chain ts (l :: mid) → l.lexeme = .punct .lParen →
      Derives .arguments mid (r :: rest) → r.lexeme = .punct .rParen → Derives .chain ts rest
  | member {t i p name ts rest} : Derives .chain ts (t :: i :: rest) → t.lexeme = .punct p →
      p ∈ [.dot, .arrow] → i.lexeme = .identifier name → Derives .chain ts rest
  -- arguments ::= [expr (',' expr)* [',']]
  | noArguments {ts} : Derives .arguments ts ts
  | argument {ts rest} : Derives .expr ts rest → Derives .arguments ts rest
  | moreArguments {c ts mid rest} : Derives .expr ts (c :: mid) → c.lexeme = .punct .comma →
      Derives .arguments mid rest → Derives .arguments ts rest
  -- primary ::= identifier | number | string | 'true' | 'false' | '(' expr ')'
  | name {t name rest} : t.lexeme = .identifier name → Derives .primary (t :: rest) rest
  | number {t text rest} : t.lexeme = .number text →
      ('.' ∉ text.toList → Decimal.naturalOf text.toList < 2 ^ 63) →
      Derives .primary (t :: rest) rest
  | string {t raw rest} : t.lexeme = .string raw → Derives .primary (t :: rest) rest
  | bool {t k rest} : t.lexeme = .keyword k → k ∈ [.true_, .false_] →
      Derives .primary (t :: rest) rest
  | paren {l r ts rest} : l.lexeme = .punct .lParen → Derives .expr ts (r :: rest) →
      r.lexeme = .punct .rParen → Derives .primary (l :: ts) rest
  -- type ::= '*' type | identifier | primitive | 'fn' [type], the last as often as it can be read
  | pointer {t ts rest} : t.lexeme = .punct .star → Derives .type ts rest →
      Derives .type (t :: ts) rest
  | named {t name rest} : t.lexeme = .identifier name → Derives .type (t :: rest) rest
  | prim {t k rest} : t.lexeme = .keyword k →
      k ∈ [.void, .bool, .i8, .i16, .i32, .i64, .f32, .f64, .str, .any] →
      Derives .type (t :: rest) rest
  | fn {t ts rest} : t.lexeme = .keyword .fn → Derives .type ts rest → Derives .type (t :: ts) rest
  | procedure {t rest} : t.lexeme = .keyword .fn → startsType (peek rest) = false →
      Derives .type (t :: rest) rest

/-- As it is read, whatever the spans. -/
def Manner.loose : Manner where
  __ := Manner.read
  span _ _ _ := True
  span_added := nofun

variable {p : Punct} {text : String} {ts rest : List Token}

theorem Punct.mem_binaries : p ∈ binaries ↔ ∃ op : BinaryOp, op.mark = p := by
  constructor
  · intro h
    obtain ⟨op, hop⟩ : ∃ op, binaryOp? (.punct p) = some op := by
      cases p <;> first | exact ⟨_, rfl⟩ | exact absurd h (by decide)
    exact ⟨op, (Kind.punct.inj (binaryOp?_eq_some.mp hop)).symm⟩
  · rintro ⟨op, rfl⟩
    cases op <;> decide

/-- A number with a point can be read if it is spelled as numbers are. -/
theorem readDecimal?_of_spells {cs : List Char} (h : (Lexeme.number text).Spells cs) :
    ∃ d, Decimal.readDecimal? text.toList = some d := by
  obtain ⟨rfl, ⟨c, cs, hcs, hc⟩, hchars, hcount⟩ := h
  have hwhole : (text.toList.takeWhile Char.isDigit).isEmpty = false := by
    rw [hcs, List.takeWhile_cons_of_pos hc]
    rfl
  have hsplit := List.takeWhile_append_dropWhile (p := Char.isDigit) (l := text.toList)
  unfold Decimal.readDecimal?
  dsimp only
  rw [hwhole]
  cases hrest : text.toList.dropWhile Char.isDigit with
  | nil => exact ⟨_, rfl⟩
  | cons d r =>
    rw [hrest] at hsplit
    have hd : d.isDigit = false := by
      have := List.head_dropWhile_not Char.isDigit (l := text.toList) (by simp [hrest])
      simpa [hrest] using this
    have hmem : ∀ x ∈ d :: r, x.isDigit ∨ x = '.' := fun x hx =>
      hchars x (hsplit ▸ List.mem_append_right _ hx)
    obtain rfl : d = '.' := (hmem d List.mem_cons_self).resolve_left (by simp [hd])
    have hnone : '.' ∉ r := by
      intro hr
      have := List.count_pos_iff.mpr hr
      rw [← hsplit, List.count_append, List.count_cons_self] at hcount
      omega
    have hr : r.dropWhile Char.isDigit = [] := List.dropWhile_eq_nil_iff.mpr fun x hx =>
      (hmem x (List.mem_cons_of_mem _ hx)).resolve_right fun he => hnone (he ▸ hx)
    simp [hr, Decimal.readExponent?]

theorem Decimal.le_greatestWord {n : Nat} : (n : Int) ≤ greatestWord ↔ n < 2 ^ 63 := by
  simp only [greatestWord]
  omega

theorem lt_of_numberLiteral? {x : Value × Ty} (h : numberLiteral? text = some x)
    (hpoint : '.' ∉ text.toList) : Decimal.naturalOf text.toList < 2 ^ 63 := by
  simp only [numberLiteral?, List.contains_iff_mem, if_neg hpoint, Decimal.le_greatestWord] at h
  split at h
  · assumption
  · simp at h

theorem exists_numberLiteral? {cs : List Char} (hs : (Lexeme.number text).Spells cs)
    (h : '.' ∉ text.toList → Decimal.naturalOf text.toList < 2 ^ 63) :
    ∃ v ty, numberLiteral? text = some (v, ty) := by
  obtain ⟨d, hd⟩ := readDecimal?_of_spells hs
  by_cases hpoint : '.' ∈ text.toList
  · simp [numberLiteral?, hpoint, hd]
  · simp only [numberLiteral?, List.contains_iff_mem, if_neg hpoint, Decimal.le_greatestWord,
      if_pos (h hpoint)]
    exact ⟨_, _, rfl⟩

namespace Expr

/-- The tree with an operator and its right operand after it, the operator as far down on the right
as it binds. -/
def graft (e : Expr) (op : BinaryOp) (rhs : Expr) : Expr :=
  match e with
  | .binary op' l r s =>
    if op'.level < op.level then .binary op' l (r.graft op rhs) s
    else .binary op (.binary op' l r s) rhs s
  | e => .binary op e rhs e.span

variable {op : BinaryOp} {e rhs : Expr} {t : Token} {ts mid rest : List Token}

theorem Stands.graft (h : e.Stands .loose ts (t :: mid)) (ht : t.lexeme = .punct op.mark)
    (hrhs : rhs.Stands .loose mid rest) : (e.graft op rhs).Stands .loose ts rest := by
  fun_induction Expr.graft e op rhs generalizing ts with
  | case1 op' l r s hlt ih =>
    obtain ⟨t', mid', hl, ht', hr, -⟩ := h
    exact ⟨t', mid', hl, ht', ih hr, trivial⟩
  | case2 => exact ⟨t, mid, h, ht, hrhs, trivial⟩
  | case3 => exact ⟨t, mid, h, ht, hrhs, trivial⟩

theorem le_tier_graft (op : BinaryOp) (e rhs : Expr) {n : Nat} (hn : n ≤ op.level)
    (h : n ≤ e.tier) : n ≤ (e.graft op rhs).tier := by
  fun_induction Expr.graft e op rhs with
  | case1 => exact h
  | case2 | case3 => exact hn

/-- All but binary operators bind tighter than them. -/
theorem ten_le_tier (h : ∀ op l r s, e = .binary op l r s → False) : 10 ≤ e.tier := by
  cases e with
  | binary op l r s => exact (h op l r s rfl).elim
  | unary op =>
    rw [tier]
    split <;> decide
  | cast => exact (by decide : 10 ≤ 11)
  | _ => exact (by decide : 10 ≤ 13)

theorem Layered.graft (h : e.Layered) (hrhs : rhs.Layered) (htier : 10 ≤ rhs.tier) :
    (e.graft op rhs).Layered := by
  have hlevel := op.level_le
  fun_induction Expr.graft e op rhs with
  | case1 op' l r s hlt ih =>
    obtain ⟨hl, hr, hlayered, hlayered'⟩ := h
    exact ⟨hl, le_tier_graft op r rhs hlt hr, hlayered, ih hlayered'⟩
  | case2 op' l r s hle => exact ⟨Nat.le_of_not_lt hle, by omega, h, hrhs⟩
  | case3 e hbinary => exact ⟨Nat.le_trans (by omega) (ten_le_tier hbinary), by omega, h, hrhs⟩

end Expr

/-- A layered tree of at least this tier stands there. -/
def Grows (tier : Nat) (ts rest : List Token) : Prop :=
  ∃ e : Expr, tier ≤ e.tier ∧ e.Layered ∧ e.Stands .loose ts rest

/-- What is written where a category is derived. -/
def Category.Written : Category → List Token → List Token → Prop
  | .expr => Grows 0
  | .unary => Grows 10
  | .cast => Grows 11
  | .address => Grows 12
  | .chain | .primary => Grows 13
  | .arguments => fun ts rest => ∃ es, Expr.AllLayered es ∧ Expr.AllStand .loose es ts rest
  | .type => fun ts rest => ∃ ty, Manner.loose.type ty ts rest

theorem Grows.weaken {m n : Nat} (hmn : m ≤ n) (h : Grows n ts rest) : Grows m ts rest := by
  obtain ⟨e, htier, h⟩ := h
  exact ⟨e, Nat.le_trans hmn htier, h⟩

theorem UnaryOp.exists_sign (h : p ∈ [.bang, .tilde, .minus]) :
    ∃ op : UnaryOp, op.mark = p ∧ op.isSign = true := by
  simp only [List.mem_cons, List.not_mem_nil, or_false] at h
  rcases h with rfl | rfl | rfl
  · exact ⟨.not, rfl, rfl⟩
  · exact ⟨.bitNot, rfl, rfl⟩
  · exact ⟨.neg, rfl, rfl⟩

theorem UnaryOp.exists_address (h : p ∈ [.at, .star]) :
    ∃ op : UnaryOp, op.mark = p ∧ op.isSign = false := by
  simp only [List.mem_cons, List.not_mem_nil, or_false] at h
  rcases h with rfl | rfl
  · exact ⟨.addressOf, rfl, rfl⟩
  · exact ⟨.deref, rfl, rfl⟩

theorem Derives.suffix {c : Category} (h : Derives c ts rest) : rest <:+ ts := by
  induction h with
  | operand _ ih | unsigned _ ih | uncast _ ih | plain _ ih | head _ ih | argument _ ih => exact ih
  | noArguments => exact List.suffix_rfl
  | name | number | string | bool | named | prim | procedure => exact List.suffix_cons _ _
  | sign _ _ _ ih | address _ _ _ ih | pointer _ _ ih | fn _ _ ih =>
    exact ih.trans (List.suffix_cons _ _)
  | binary _ _ _ _ ih ih' | cast _ _ _ ih ih' | moreArguments _ _ _ ih ih' =>
    exact ih'.trans ((List.suffix_cons _ _).trans ih)
  | call _ _ _ _ ih ih' =>
    exact (List.suffix_cons _ _).trans (ih'.trans ((List.suffix_cons _ _).trans ih))
  | member _ _ _ _ ih => exact (List.suffix_cons _ _).trans ((List.suffix_cons _ _).trans ih)
  | paren _ _ _ ih => exact (List.suffix_cons _ _).trans (ih.trans (List.suffix_cons _ _))

/-- One case a production. Only numbers need what is known of their spelling. -/
theorem Derives.written {all : List Token} (hall : ∀ t ∈ all, ∃ cs, t.lexeme.Spells cs)
    {c : Category} (h : Derives c ts rest) (hts : ts <:+ all) : c.Written ts rest := by
  induction h with
  | operand _ ih => exact (ih hts).weaken (Nat.zero_le _)
  | @binary t _ _ mid _ hexpr ht hp _ ih ih' =>
    obtain ⟨op, rfl⟩ := Punct.mem_binaries.mp hp
    obtain ⟨e, -, hlayered, hstands⟩ := ih hts
    obtain ⟨rhs, htier, hlayered', hstands'⟩ :=
      ih' ((List.suffix_cons t mid).trans (hexpr.suffix.trans hts))
    exact ⟨e.graft op rhs, Nat.zero_le _, hlayered.graft hlayered' htier, hstands.graft ht hstands'⟩
  | @sign t _ ts _ ht hp _ ih =>
    obtain ⟨op, rfl, hsign⟩ := UnaryOp.exists_sign hp
    obtain ⟨e, htier, hlayered, hstands⟩ := ih ((List.suffix_cons t ts).trans hts)
    have hten : (if op.isSign then 10 else 12) = 10 := if_pos hsign
    exact ⟨.unary op e t.span, hten.ge, ⟨hten.le.trans htier, hlayered⟩, t, ts, rfl, ht, hstands,
      trivial⟩
  | unsigned _ ih => exact (ih hts).weaken (by decide)
  | uncast _ ih => exact (ih hts).weaken (by decide)
  | @cast t _ mid _ hcast ht _ ih ih' =>
    obtain ⟨e, htier, hlayered, hstands⟩ := ih hts
    obtain ⟨ty, hty⟩ := ih' ((List.suffix_cons t mid).trans (hcast.suffix.trans hts))
    exact ⟨.cast e ty t.span, Nat.le_refl 11, ⟨htier, hlayered⟩, t, mid, hstands, ht, hty, trivial⟩
  | @address t _ ts _ ht hp _ ih =>
    obtain ⟨op, rfl, hsign⟩ := UnaryOp.exists_address hp
    obtain ⟨e, htier, hlayered, hstands⟩ := ih ((List.suffix_cons t ts).trans hts)
    have htwelve : (if op.isSign then 10 else 12) = 12 := if_neg (by simp [hsign])
    exact ⟨.unary op e t.span, htwelve.ge, ⟨htwelve.le.trans htier, hlayered⟩, t, ts, rfl, ht,
      hstands, trivial⟩
  | plain _ ih => exact (ih hts).weaken (by decide)
  | head _ ih => exact ih hts
  | @call l r _ mid rest hchain hl hargs hr ih ih' =>
    obtain ⟨e, htier, hlayered, hstands⟩ := ih hts
    obtain ⟨es, hlayered', hstand⟩ := ih' ((List.suffix_cons l mid).trans (hchain.suffix.trans hts))
    exact ⟨.call e es l.span, Nat.le_refl 13, ⟨htier, hlayered, hlayered'⟩,
      .inl ⟨l, r, mid, hstands, hl, hstand, hr, trivial⟩⟩
  | @member t i p name _ rest hchain ht hp hi ih =>
    obtain ⟨e, htier, hlayered, hstands⟩ := ih hts
    refine ⟨.member e ⟨name, i.span⟩ (p = .arrow) t.span, Nat.le_refl 13, ⟨htier, hlayered⟩, t, i,
      hstands, ?_, hi, trivial, trivial⟩
    simp only [List.mem_cons, List.not_mem_nil, or_false] at hp
    rcases hp with rfl | rfl <;> exact ht
  | noArguments => exact ⟨[], trivial, rfl⟩
  | argument _ ih =>
    obtain ⟨e, -, hlayered, hstands⟩ := ih hts
    exact ⟨[e], ⟨hlayered, trivial⟩, .inl ⟨rfl, hstands⟩⟩
  | @moreArguments c _ mid _ hexpr hc _ ih ih' =>
    obtain ⟨e, -, hlayered, hstands⟩ := ih hts
    obtain ⟨es, hlayered', hstand⟩ := ih' ((List.suffix_cons c mid).trans (hexpr.suffix.trans hts))
    exact ⟨e :: es, ⟨hlayered, hlayered'⟩, .inr ⟨c, mid, hstands, hc, hstand⟩⟩
  | @name t name _ ht =>
    exact ⟨.ident ⟨name, t.span⟩, Nat.le_refl 13, trivial, t, rfl, ht, trivial⟩
  | @number t text _ ht hbound =>
    obtain ⟨cs, hcs⟩ := hall t (hts.subset List.mem_cons_self)
    rw [ht] at hcs
    obtain ⟨v, ty, hlit⟩ := exists_numberLiteral? hcs hbound
    have hmeans : t.lexeme.Means v ty := by rwa [ht]
    exact ⟨.literal v ty t.span, Nat.le_refl 13, trivial, t, rfl, hmeans, trivial⟩
  | @string t raw _ ht =>
    have hmeans : t.lexeme.Means (.str (unescaped raw)) .string := by
      rw [ht]
      exact ⟨rfl, rfl⟩
    exact ⟨.literal _ _ t.span, Nat.le_refl 13, trivial, t, rfl, hmeans, trivial⟩
  | @bool t k _ ht hk =>
    obtain ⟨b, hmeans⟩ : ∃ b, t.lexeme.Means (.bool b) .bool := by
      simp only [List.mem_cons, List.not_mem_nil, or_false] at hk
      rw [ht]
      rcases hk with rfl | rfl
      · exact ⟨true, rfl, rfl⟩
      · exact ⟨false, rfl, rfl⟩
    exact ⟨.literal _ _ t.span, Nat.le_refl 13, trivial, t, rfl, hmeans, trivial⟩
  | @paren l r ts _ hl _ hr ih =>
    obtain ⟨e, -, hlayered, hstands⟩ := ih ((List.suffix_cons l ts).trans hts)
    exact ⟨.paren e l.span, Nat.le_refl 13, hlayered, l, r, ts, rfl, hl, hstands, hr, trivial⟩
  | @pointer t ts _ ht _ ih =>
    obtain ⟨ty, hty⟩ := ih ((List.suffix_cons t ts).trans hts)
    exact ⟨ty.addLevels 1, .star ht hty⟩
  | @named t name _ ht => exact ⟨.inst name 0, .named ht⟩
  | @prim t k _ ht hk =>
    obtain ⟨p, hp⟩ : ∃ p, k.base? = some (.prim p) := by
      cases k <;> first | exact ⟨_, rfl⟩ | exact absurd hk (by decide)
    exact ⟨.prim p 0, .prim ht hp⟩
  | @fn t ts _ ht _ ih =>
    obtain ⟨ty, hty⟩ := ih ((List.suffix_cons t ts).trans hts)
    exact ⟨.fn ty 0, .fn ht hty⟩
  | procedure ht hnext => exact ⟨.fn .void 0, .procedure ht hnext⟩

/-- The category of the trees of a tier. -/
def Category.ofTier (n : Nat) : Category :=
  if n < 10 then .expr else if n < 11 then .unary else if n < 12 then .cast
  else if n < 13 then .address else .chain

namespace Derives

variable {t : Token} {p : Punct} {ts mid rest : List Token}

theorem looser {n : Nat} (h : Derives (.ofTier (n + 1)) ts rest) : Derives (.ofTier n) ts rest := by
  obtain hn | rfl | rfl | rfl | rfl | hn :
    n < 9 ∨ n = 9 ∨ n = 10 ∨ n = 11 ∨ n = 12 ∨ 12 < n := by omega
  · rw [Category.ofTier, if_pos (by omega)] at h ⊢
    exact h
  · exact .operand h
  · exact .unsigned h
  · exact .uncast h
  · exact .plain h
  · simp only [Category.ofTier] at h ⊢
    rwa [if_neg (by omega), if_neg (by omega), if_neg (by omega), if_neg (by omega)] at h ⊢

/-- What derives from a category derives from all looser ones. -/
theorem loosen {m n : Nat} (hmn : m ≤ n) (h : Derives (.ofTier n) ts rest) :
    Derives (.ofTier m) ts rest := by
  induction hmn with
  | refl => exact h
  | step _ ih => exact ih h.looser

/-- Two expressions with an operator between them are one list of operands. -/
theorem join {c : Category} (hlhs : Derives .expr ts (t :: mid)) (ht : t.lexeme = .punct p)
    (hp : p ∈ Punct.binaries) (h : Derives c mid rest) (hc : c = .expr) :
    Derives .expr ts rest := by
  induction h with
  | operand hrhs => exact .binary hlhs ht hp hrhs
  | binary _ ht' hp' hrhs ih => exact .binary (ih hlhs hc) ht' hp' hrhs
  | _ => cases hc

end Derives

theorem Ty.Spelled.derives {raise : Ty → Ty} {ty : Ty} (h : Ty.Spelled raise ty ts rest) :
    Derives .type ts rest := by
  induction h with
  | @prim t k p rest ht hp =>
    refine .prim ht ?_
    cases k <;> simp [Keyword.base?] at hp ⊢
  | named ht => exact .named ht
  | star ht _ ih => exact .pointer ht ih
  | fn ht _ ih => exact .fn ht ih
  | procedure ht hnext => exact .procedure ht hnext

mutual

/-- A layered tree is derived as its tier says. -/
theorem Expr.Stands.derives {e : Expr} {ts rest : List Token} (hlayered : e.Layered)
    (h : e.Stands .loose ts rest) : Derives (.ofTier e.tier) ts rest := by
  cases e with
  | literal v ty s =>
    obtain ⟨t, rfl, hlit, -⟩ := h
    have hmeans : t.lexeme.Means v ty := hlit
    refine .head ?_
    cases ht : t.lexeme with
    | number text =>
      rw [ht] at hmeans
      exact .number ht (lt_of_numberLiteral? hmeans)
    | string raw => exact .string ht
    | keyword k =>
      rw [ht] at hmeans
      refine .bool ht ?_
      cases k <;> first | exact hmeans.elim | decide
    | punct | directive | identifier =>
      rw [ht] at hmeans
      exact hmeans.elim
  | ident =>
    obtain ⟨t, rfl, ht, -⟩ := h
    exact .head (.name ht)
  | paren inner =>
    obtain ⟨l, r, mid, rfl, hl, hinner, hr, -⟩ := h
    have hlayered : inner.Layered := hlayered
    exact .head (.paren hl ((hinner.derives hlayered).loosen (Nat.zero_le _)) hr)
  | unary op operand =>
    obtain ⟨t, mid, rfl, ht, hoperand, -⟩ := h
    obtain ⟨htier, hlayered⟩ := hlayered
    have hinner := (hoperand.derives hlayered).loosen htier
    rw [tier]
    cases op with
    | neg | not | bitNot => exact .sign ht (by decide) hinner
    | addressOf | deref => exact .address ht (by decide) hinner
  | binary op lhs rhs =>
    obtain ⟨t, mid, hlhs, ht, hrhs, -⟩ := h
    obtain ⟨-, -, hlayered, hlayered'⟩ := hlayered
    rw [tier, Category.ofTier, if_pos (Nat.lt_succ_of_le op.level_le)]
    exact ((hlhs.derives hlayered).loosen (Nat.zero_le _)).join ht
      (Punct.mem_binaries.mpr ⟨op, rfl⟩) ((hrhs.derives hlayered').loosen (Nat.zero_le _)) rfl
  | cast operand =>
    obtain ⟨t, mid, hoperand, ht, hty, -⟩ := h
    obtain ⟨htier, hlayered⟩ := hlayered
    exact .cast ((hoperand.derives hlayered).loosen htier) ht (Ty.Spelled.derives hty)
  | call callee args =>
    obtain ⟨l, r, mid, hcallee, hl, hargs, hr, -⟩ | ⟨-, -, hadded⟩ := h
    · obtain ⟨htier, hlayered, hlayered'⟩ := hlayered
      exact .call ((hcallee.derives hlayered).loosen htier) hl (hargs.derives hlayered') hr
    · exact hadded.elim
  | member object field arrow =>
    obtain ⟨t, i, hobject, ht, hi, -⟩ := h
    obtain ⟨htier, hlayered⟩ := hlayered
    exact .member ((hobject.derives hlayered).loosen htier) ht (by cases arrow <;> decide) hi

theorem Expr.AllStand.derives {es : List Expr} {ts rest : List Token}
    (hlayered : Expr.AllLayered es) (h : Expr.AllStand .loose es ts rest) :
    Derives .arguments ts rest := by
  cases es with
  | nil =>
    obtain rfl : ts = rest := h
    exact .noArguments
  | cons e es =>
    obtain ⟨hlayered, hlayered'⟩ := hlayered
    obtain ⟨-, he⟩ | ⟨c, mid, he, hc, hes⟩ := h
    · exact .argument ((he.derives hlayered).loosen (Nat.zero_le _))
    · exact .moreArguments ((he.derives hlayered).loosen (Nat.zero_le _)) hc (hes.derives hlayered')

end

end Frontend
