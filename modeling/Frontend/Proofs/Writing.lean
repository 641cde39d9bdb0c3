import Frontend.Grammar.Expressions
import Frontend.Proofs.Spelling

/-!
Expressions as they are written. A tree stands at the front of a list of tokens, before a rest, if
its yield from left to right is what comes before the rest. A manner says how freely: what a literal
token is taken for, how many levels the stars of a type make, which spans the nodes have, and
whether calls may stand that are not written. A tree is layered if no node has a part that binds
looser than it may. Whatever is read is a layered tree that stands where it was read, with calls
added.
-/
namespace Frontend

open Grammar (peek startsType numberLiteral? isFunction)

/-- How a unary operator is written. -/
def UnaryOp.mark : UnaryOp → Punct
  | .neg => .minus
  | .not => .bang
  | .bitNot => .tilde
  | .addressOf => .at
  | .deref => .star

/-- How a binary operator is written. -/
def BinaryOp.mark : BinaryOp → Punct
  | .add => .plus
  | .sub => .minus
  | .mul => .star
  | .div => .slash
  | .rem => .percent
  | .shl => .shl
  | .shr => .shr
  | .bitAnd => .amp
  | .bitOr => .pipe
  | .bitXor => .caret
  | .eq => .eqEq
  | .ne => .bangEq
  | .lt => .less
  | .le => .lessEq
  | .gt => .greater
  | .ge => .greaterEq
  | .and => .ampAmp
  | .or => .pipePipe

theorem BinaryOp.level_le (op : BinaryOp) : op.level ≤ 9 := by cases op <;> decide

/-- Signs bind looser than casts, the other unary operators tighter. -/
def UnaryOp.isSign : UnaryOp → Bool
  | .neg | .not | .bitNot => true
  | .addressOf | .deref => false

/-- The span runs from the first byte of the first token to the last byte of the last one before
`rest`, and has the position of the first. -/
def Span.Stretches (ts rest : List Token) (s : Span) : Prop :=
  ∃ first last, ts.head? = some first ∧ last :: rest <:+ ts ∧ s.lo = first.span.lo ∧
    s.pos = first.span.pos ∧ s.hi = last.span.hi

/-- What is asked of a tree that is written. -/
structure Manner where
  literal : Lexeme → Value → Ty → Prop
  type : Ty → List Token → List Token → Prop
  span : List Token → List Token → Span → Prop
  /-- Of the spans of a call that is not written and of what it calls. -/
  added : Span → Span → Prop
  type_rest : ∀ {ty ts rest}, type ty ts rest → rest <:+ ts
  span_added : ∀ {s callee ts rest}, added s callee → span ts rest callee → span ts rest s

/-- Among these tokens, whatever the one manner asks the other asks too. A type stands after
`as`. -/
structure Manner.Within (M N : Manner) (all : List Token) : Prop where
  literal : ∀ {l v ty}, M.literal l v ty → N.literal l v ty
  type : ∀ {t ty ts rest}, t :: ts <:+ all → t.lexeme = .keyword .as_ → M.type ty ts rest →
    N.type ty ts rest
  span : ∀ {ts rest s}, M.span ts rest s → N.span ts rest s
  added : ∀ {s callee}, M.added s callee → N.added s callee

mutual

/-- The tree is written at the front of the tokens, before `rest`. -/
def Expr.Stands (M : Manner) : Expr → List Token → List Token → Prop
  | .literal v ty s, ts, rest => ∃ t, ts = t :: rest ∧ M.literal t.lexeme v ty ∧ M.span ts rest s
  | .ident id, ts, rest =>
    ∃ t, ts = t :: rest ∧ t.lexeme = .identifier id.name ∧ M.span ts rest id.span
  | .paren inner s, ts, rest =>
    ∃ l r mid, ts = l :: mid ∧ l.lexeme = .punct .lParen ∧ inner.Stands M mid (r :: rest) ∧
      r.lexeme = .punct .rParen ∧ M.span ts rest s
  | .unary op operand s, ts, rest =>
    ∃ t mid, ts = t :: mid ∧ t.lexeme = .punct op.mark ∧ operand.Stands M mid rest ∧
      M.span ts rest s
  | .binary op lhs rhs s, ts, rest =>
    ∃ t mid, lhs.Stands M ts (t :: mid) ∧ t.lexeme = .punct op.mark ∧ rhs.Stands M mid rest ∧
      M.span ts rest s
  | .cast operand ty s, ts, rest =>
    ∃ t mid, operand.Stands M ts (t :: mid) ∧ t.lexeme = .keyword .as_ ∧ M.type ty mid rest ∧
      M.span ts rest s
  | .call callee args s, ts, rest =>
    (∃ l r mid, callee.Stands M ts (l :: mid) ∧ l.lexeme = .punct .lParen ∧
      Expr.AllStand M args mid (r :: rest) ∧ r.lexeme = .punct .rParen ∧ M.span ts rest s) ∨
      args = [] ∧ callee.Stands M ts rest ∧ M.added s callee.span
  | .member object field arrow s, ts, rest =>
    ∃ t i, object.Stands M ts (t :: i :: rest) ∧
      t.lexeme = .punct (if arrow then .arrow else .dot) ∧ i.lexeme = .identifier field.name ∧
      M.span (i :: rest) rest field.span ∧ M.span ts rest s

/-- The trees are written one after the other, a comma after each but perhaps the last. -/
def Expr.AllStand (M : Manner) : List Expr → List Token → List Token → Prop
  | [], ts, rest => ts = rest
  | e :: es, ts, rest =>
    es = [] ∧ e.Stands M ts rest ∨
      ∃ c mid, e.Stands M ts (c :: mid) ∧ c.lexeme = .punct .comma ∧ Expr.AllStand M es mid rest

end

/-- How tight the top of a tree binds. -/
def Expr.tier : Expr → Nat
  | .binary op _ _ _ => op.level
  | .unary op _ _ => if op.isSign then 10 else 12
  | .cast _ _ _ => 11
  | _ => 13

mutual

/-- No part of the tree binds looser than it may where it stands. -/
def Expr.Layered : Expr → Prop
  | .literal _ _ _ | .ident _ => True
  | .paren inner _ => inner.Layered
  | .unary op operand _ => (if op.isSign then 10 else 12) ≤ operand.tier ∧ operand.Layered
  | .binary op lhs rhs _ =>
    op.level ≤ lhs.tier ∧ op.level < rhs.tier ∧ lhs.Layered ∧ rhs.Layered
  | .cast operand _ _ => 11 ≤ operand.tier ∧ operand.Layered
  | .call callee args _ => 13 ≤ callee.tier ∧ callee.Layered ∧ Expr.AllLayered args
  | .member object _ _ _ => 13 ≤ object.tier ∧ object.Layered

def Expr.AllLayered : List Expr → Prop
  | [] => True
  | e :: es => e.Layered ∧ Expr.AllLayered es

end

mutual

/-- The tree with a call added to each chain of calls and members that stands for a function. A
chain goes on unless it `ends` here. -/
def Expr.withCalls (env : Grammar.Env) (ends : Bool) : Expr → Expr
  | .literal v ty s => close (.literal v ty s)
  | .ident id => close (.ident id)
  | .paren inner s => close (.paren (inner.withCalls env true) s)
  | .unary op operand s => .unary op (operand.withCalls env true) s
  | .binary op lhs rhs s => .binary op (lhs.withCalls env true) (rhs.withCalls env true) s
  | .cast operand ty s => .cast (operand.withCalls env true) ty s
  | .call callee args s => close (.call (callee.withCalls env false) (Expr.allWithCalls env args) s)
  | .member object field arrow s => close (.member (object.withCalls env false) field arrow s)
where
  close (e : Expr) : Expr := if ends && isFunction env e then .call e [] e.span else e

def Expr.allWithCalls (env : Grammar.Env) : List Expr → List Expr
  | [] => []
  | e :: es => e.withCalls env true :: Expr.allWithCalls env es

end

namespace Expr

variable {M N : Manner} {e : Expr} {es : List Expr} {ts rest : List Token}

mutual

theorem Stands.rest {e : Expr} {ts rest : List Token} (h : e.Stands M ts rest) : rest <:+ ts := by
  cases e with
  | literal | ident =>
    obtain ⟨t, rfl, -⟩ := h
    exact List.suffix_cons t rest
  | paren =>
    obtain ⟨l, r, mid, rfl, -, hinner, -⟩ := h
    exact (List.suffix_cons r rest).trans (hinner.rest.trans (List.suffix_cons l mid))
  | unary =>
    obtain ⟨t, mid, rfl, -, hoperand, -⟩ := h
    exact hoperand.rest.trans (List.suffix_cons t mid)
  | binary =>
    obtain ⟨t, mid, hlhs, -, hrhs, -⟩ := h
    exact hrhs.rest.trans ((List.suffix_cons t mid).trans hlhs.rest)
  | cast =>
    obtain ⟨t, mid, hoperand, -, hty, -⟩ := h
    exact (M.type_rest hty).trans ((List.suffix_cons t mid).trans hoperand.rest)
  | call =>
    obtain ⟨l, r, mid, hcallee, -, hargs, -⟩ | ⟨-, hcallee, -⟩ := h
    · exact (List.suffix_cons r rest).trans
        (hargs.rest.trans ((List.suffix_cons l mid).trans hcallee.rest))
    · exact hcallee.rest
  | member =>
    obtain ⟨t, i, hobject, -⟩ := h
    exact (List.suffix_cons i rest).trans ((List.suffix_cons t _).trans hobject.rest)

theorem AllStand.rest {es : List Expr} {ts rest : List Token} (h : AllStand M es ts rest) :
    rest <:+ ts := by
  cases es with
  | nil =>
    obtain rfl : ts = rest := h
    exact List.suffix_rfl
  | cons =>
    obtain ⟨-, he⟩ | ⟨c, mid, he, -, hes⟩ := h
    · exact he.rest
    · exact hes.rest.trans ((List.suffix_cons c mid).trans he.rest)

end

theorem Stands.span {e : Expr} {ts rest : List Token} (h : e.Stands M ts rest) :
    M.span ts rest e.span := by
  cases e with
  | literal | ident =>
    obtain ⟨t, -, -, hs⟩ := h
    exact hs
  | paren =>
    obtain ⟨l, r, mid, -, -, -, -, hs⟩ := h
    exact hs
  | unary | binary | cast =>
    obtain ⟨t, mid, -, -, -, hs⟩ := h
    exact hs
  | call callee =>
    obtain ⟨l, r, mid, -, -, -, -, hs⟩ | ⟨-, hcallee, hs⟩ := h
    · exact hs
    · exact M.span_added hs hcallee.span
  | member =>
    obtain ⟨t, i, -, -, -, -, hs⟩ := h
    exact hs

mutual

/-- What is written in one manner is written in a looser one. -/
theorem Stands.mono {all : List Token} (hMN : M.Within N all) {e : Expr} {ts rest : List Token}
    (hts : ts <:+ all) (h : e.Stands M ts rest) : e.Stands N ts rest := by
  cases e with
  | literal =>
    obtain ⟨t, rfl, hlit, hs⟩ := h
    exact ⟨t, rfl, hMN.literal hlit, hMN.span hs⟩
  | ident =>
    obtain ⟨t, rfl, hname, hs⟩ := h
    exact ⟨t, rfl, hname, hMN.span hs⟩
  | paren =>
    obtain ⟨l, r, mid, rfl, hl, hinner, hr, hs⟩ := h
    exact ⟨l, r, mid, rfl, hl, hinner.mono hMN ((List.suffix_cons l mid).trans hts),
      hr, hMN.span hs⟩
  | unary =>
    obtain ⟨t, mid, rfl, ht, hoperand, hs⟩ := h
    exact ⟨t, mid, rfl, ht, hoperand.mono hMN ((List.suffix_cons t mid).trans hts), hMN.span hs⟩
  | binary =>
    obtain ⟨t, mid, hlhs, ht, hrhs, hs⟩ := h
    have hmid := (List.suffix_cons t mid).trans (hlhs.rest.trans hts)
    exact ⟨t, mid, hlhs.mono hMN hts, ht, hrhs.mono hMN hmid, hMN.span hs⟩
  | cast =>
    obtain ⟨t, mid, hoperand, ht, hty, hs⟩ := h
    exact ⟨t, mid, hoperand.mono hMN hts, ht, hMN.type (hoperand.rest.trans hts) ht hty,
      hMN.span hs⟩
  | call =>
    obtain ⟨l, r, mid, hcallee, hl, hargs, hr, hs⟩ | ⟨hargs, hcallee, hs⟩ := h
    · have hmid := (List.suffix_cons l mid).trans (hcallee.rest.trans hts)
      exact .inl ⟨l, r, mid, hcallee.mono hMN hts, hl, hargs.mono hMN hmid, hr, hMN.span hs⟩
    · exact .inr ⟨hargs, hcallee.mono hMN hts, hMN.added hs⟩
  | member =>
    obtain ⟨t, i, hobject, ht, hi, hfield, hs⟩ := h
    exact ⟨t, i, hobject.mono hMN hts, ht, hi, hMN.span hfield, hMN.span hs⟩

theorem AllStand.mono {all : List Token} (hMN : M.Within N all) {es : List Expr}
    {ts rest : List Token} (hts : ts <:+ all) (h : AllStand M es ts rest) :
    AllStand N es ts rest := by
  cases es with
  | nil => exact h
  | cons =>
    obtain ⟨hes, he⟩ | ⟨c, mid, he, hc, hes⟩ := h
    · exact .inl ⟨hes, he.mono hMN hts⟩
    · have hmid := (List.suffix_cons c mid).trans (he.rest.trans hts)
      exact .inr ⟨c, mid, he.mono hMN hts, hc, hes.mono hMN hmid⟩

end

@[simp] theorem span_close (env : Grammar.Env) (ends : Bool) (e : Expr) :
    (withCalls.close env ends e).span = e.span := by
  unfold withCalls.close
  split <;> rfl

@[simp] theorem span_withCalls (env : Grammar.Env) (ends : Bool) (e : Expr) :
    (e.withCalls env ends).span = e.span := by
  cases e <;> simp only [withCalls, span_close] <;> rfl

theorem tier_close (env : Grammar.Env) (ends : Bool) {e : Expr} (h : e.tier = 13) :
    (withCalls.close env ends e).tier = 13 := by
  unfold withCalls.close
  split
  · rfl
  · exact h

@[simp] theorem tier_withCalls (env : Grammar.Env) (ends : Bool) (e : Expr) :
    (e.withCalls env ends).tier = e.tier := by
  cases e with
  | unary | binary | cast => rfl
  | _ => exact tier_close env ends rfl

/-- Calls are added where a chain of calls and members ends. -/
theorem withCalls_of_chain (env : Grammar.Env) {e : Expr} (h : 13 ≤ e.tier) :
    e.withCalls env true = if isFunction env (e.withCalls env false) then
      .call (e.withCalls env false) [] (e.withCalls env false).span else e.withCalls env false := by
  cases e with
  | unary op => cases op <;> simp [tier, UnaryOp.isSign] at h
  | binary op => exact absurd op.level_le (by simp only [tier] at h; omega)
  | cast => simp [tier] at h
  | _ => simp [withCalls, withCalls.close]

theorem Layered.close (env : Grammar.Env) (ends : Bool) {e : Expr} (htier : e.tier = 13)
    (h : e.Layered) : (withCalls.close env ends e).Layered := by
  unfold withCalls.close
  split
  · exact ⟨Nat.le_of_eq htier.symm, h, trivial⟩
  · exact h

mutual

theorem Layered.withCalls (env : Grammar.Env) (ends : Bool) {e : Expr} (h : e.Layered) :
    (e.withCalls env ends).Layered := by
  cases e with
  | literal | ident => exact Layered.close env ends rfl trivial
  | paren inner =>
    have hinner : inner.Layered := h
    exact Layered.close env ends rfl (hinner.withCalls env true)
  | unary =>
    obtain ⟨htier, hoperand⟩ := h
    exact ⟨by rwa [tier_withCalls], hoperand.withCalls env true⟩
  | binary =>
    obtain ⟨hl, hr, hlhs, hrhs⟩ := h
    exact ⟨by rwa [tier_withCalls], by rwa [tier_withCalls], hlhs.withCalls env true,
      hrhs.withCalls env true⟩
  | cast =>
    obtain ⟨htier, hoperand⟩ := h
    exact ⟨by rwa [tier_withCalls], hoperand.withCalls env true⟩
  | call =>
    obtain ⟨htier, hcallee, hargs⟩ := h
    exact Layered.close env ends rfl
      ⟨by rwa [tier_withCalls], hcallee.withCalls env false, hargs.withCalls env⟩
  | member =>
    obtain ⟨htier, hobject⟩ := h
    exact Layered.close env ends rfl ⟨by rwa [tier_withCalls], hobject.withCalls env false⟩

theorem AllLayered.withCalls (env : Grammar.Env) {es : List Expr} (h : AllLayered es) :
    AllLayered (allWithCalls env es) := by
  cases es with
  | nil => trivial
  | cons => exact ⟨h.1.withCalls env true, h.2.withCalls env⟩

end

theorem Stands.close (hM : ∀ s, M.added s s) (env : Grammar.Env) (ends : Bool)
    (h : e.Stands M ts rest) : (withCalls.close env ends e).Stands M ts rest := by
  unfold withCalls.close
  split
  · exact .inr ⟨rfl, h, hM e.span⟩
  · exact h

mutual

/-- Where calls may be added, they are written nowhere. -/
theorem Stands.withCalls (hM : ∀ s, M.added s s) (env : Grammar.Env) (ends : Bool) {e : Expr}
    {ts rest : List Token} (h : e.Stands M ts rest) : (e.withCalls env ends).Stands M ts rest := by
  cases e with
  | literal | ident => exact Stands.close hM env ends h
  | paren =>
    obtain ⟨l, r, mid, hts, hl, hinner, hr, hs⟩ := h
    exact Stands.close hM env ends ⟨l, r, mid, hts, hl, hinner.withCalls hM env true, hr, hs⟩
  | unary =>
    obtain ⟨t, mid, hts, ht, hoperand, hs⟩ := h
    exact ⟨t, mid, hts, ht, hoperand.withCalls hM env true, hs⟩
  | binary =>
    obtain ⟨t, mid, hlhs, ht, hrhs, hs⟩ := h
    exact ⟨t, mid, hlhs.withCalls hM env true, ht, hrhs.withCalls hM env true, hs⟩
  | cast =>
    obtain ⟨t, mid, hoperand, ht⟩ := h
    exact ⟨t, mid, hoperand.withCalls hM env true, ht⟩
  | call callee =>
    refine Stands.close hM env ends ?_
    obtain ⟨l, r, mid, hcallee, hl, hargs, hr, hs⟩ | ⟨rfl, hcallee, hs⟩ := h
    · exact .inl ⟨l, r, mid, hcallee.withCalls hM env false, hl, hargs.withCalls hM env, hr, hs⟩
    · refine .inr ⟨rfl, hcallee.withCalls hM env false, ?_⟩
      rwa [span_withCalls]
  | member =>
    obtain ⟨t, i, hobject, ht⟩ := h
    exact Stands.close hM env ends ⟨t, i, hobject.withCalls hM env false, ht⟩

theorem AllStand.withCalls (hM : ∀ s, M.added s s) (env : Grammar.Env) {es : List Expr}
    {ts rest : List Token} (h : AllStand M es ts rest) :
    AllStand M (allWithCalls env es) ts rest := by
  cases es with
  | nil => exact h
  | cons =>
    obtain ⟨rfl, he⟩ | ⟨c, mid, he, hc, hes⟩ := h
    · exact .inl ⟨rfl, he.withCalls hM env true⟩
    · exact .inr ⟨c, mid, he.withCalls hM env true, hc, hes.withCalls hM env⟩

end

end Expr

/-- The tokens follow each other in the text. -/
def InOrder (ts : List Token) : Prop := ts.Pairwise fun s t => s.span.hi ≤ t.span.lo

theorem InOrder.suffix {ts rest : List Token} (h : InOrder ts) (hrest : rest <:+ ts) :
    InOrder rest := List.Pairwise.sublist hrest.sublist h

namespace Span.Stretches

variable {s s' : Span} {t last : Token} {ts mid rest : List Token}

theorem token (t : Token) (rest : List Token) : t.span.Stretches (t :: rest) rest :=
  ⟨t, t, rfl, List.suffix_rfl, rfl, rfl, rfl⟩

theorem last_suffix (h : s.Stretches ts rest) :
    ∃ last, last :: rest <:+ ts ∧ s.hi = last.span.hi := by
  obtain ⟨_, last, _, hlast, _, _, hhi⟩ := h
  exact ⟨last, hlast, hhi⟩

/-- A stretch goes on up to any later token. -/
theorem through (hts : InOrder ts) (h : s.Stretches ts mid) (hlast : last :: rest <:+ mid)
    (hs : s'.hi = last.span.hi) : (s.through s').Stretches ts rest := by
  obtain ⟨first, before, hfirst, hbefore, hlo, hpos, hhi⟩ := h
  refine ⟨first, last, hfirst, hlast.trans ((List.suffix_cons before mid).trans hbefore),
    hlo, hpos, ?_⟩
  have hmem : last ∈ mid := hlast.subset List.mem_cons_self
  have hapart : before.span.hi ≤ last.span.lo := List.rel_of_pairwise_cons (hts.suffix hbefore) hmem
  have hle : last.span.lo ≤ last.span.hi := Nat.le_add_right _ _
  rw [Span.through_hi]
  omega

/-- A span is told by its first and last token. -/
theorem unique (h : s.Stretches ts rest) (h' : s'.Stretches ts rest) : s = s' := by
  obtain ⟨first, last, hfirst, hlast, hlo, hpos, hhi⟩ := h
  obtain ⟨first', last', hfirst', hlast', hlo', hpos', hhi'⟩ := h'
  obtain rfl : first = first' := Option.some.inj (hfirst.symm.trans hfirst')
  obtain ⟨rfl, -⟩ : last = last' ∧ rest = rest := by
    have := (List.suffix_of_suffix_length_le hlast hlast' (Nat.le_refl _)).eq_of_length rfl
    simpa using this
  obtain ⟨lo, len, pos⟩ := s
  obtain ⟨lo', len', pos'⟩ := s'
  simp only [Span.hi] at *
  subst hlo hlo' hpos hpos'
  congr 1
  omega

end Span.Stretches

end Frontend
