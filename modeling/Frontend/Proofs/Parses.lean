import Frontend.Grammar.Expressions
import Frontend.Proofs.Steps

/-!
What readers of expressions do when they succeed, as derivations: which tokens stand where, and what
is made of what is read between them. What holds of everything that is read is then shown by
induction on the derivation, without the readers themselves.
-/
namespace Frontend

open Grammar (peek startsType numberLiteral?)

@[simp] theorem Lexeme.kind_eq_punct {l : Lexeme} {p : Punct} :
    l.kind = .punct p ↔ l = .punct p := by
  cases l <;> simp [Lexeme.kind]

@[simp] theorem Lexeme.kind_eq_keyword {l : Lexeme} {k : Keyword} :
    l.kind = .keyword k ↔ l = .keyword k := by
  cases l <;> simp [Lexeme.kind]

/-- How tightly an operator binds: the higher, the tighter. -/
def BinaryOp.level : BinaryOp → Nat
  | .or => 1
  | .and => 2
  | .bitOr | .bitXor => 3
  | .bitAnd => 4
  | .eq | .ne => 5
  | .lt | .le | .gt | .ge => 6
  | .shl | .shr => 7
  | .add | .sub => 8
  | .mul | .div | .rem => 9

/-- The type is written at the front of the tokens, before `rest`. `raise` is what a star does to a
type. Without a return type `fn` returns nothing, and then no type may follow. -/
inductive Ty.Spelled (raise : Ty → Ty) : Ty → List Token → List Token → Prop where
  | prim {t : Token} {k : Keyword} {p : Prim} {rest : List Token} :
      t.lexeme = .keyword k → k.base? = some (.prim p) → Spelled raise (.prim p 0) (t :: rest) rest
  | named {t : Token} {name : String} {rest : List Token} :
      t.lexeme = .identifier name → Spelled raise (.inst name 0) (t :: rest) rest
  | star {t : Token} {ty : Ty} {ts rest : List Token} :
      t.lexeme = .punct .star → Spelled raise ty ts rest → Spelled raise (raise ty) (t :: ts) rest
  | fn {t : Token} {ret : Ty} {ts rest : List Token} :
      t.lexeme = .keyword .fn → Spelled raise ret ts rest → Spelled raise (.fn ret 0) (t :: ts) rest
  | procedure {t : Token} {rest : List Token} : t.lexeme = .keyword .fn →
      startsType (peek rest) = false → Spelled raise (.fn .void 0) (t :: rest) rest

theorem Ty.Spelled.rest {raise : Ty → Ty} {ty : Ty} {ts rest : List Token}
    (h : Ty.Spelled raise ty ts rest) : rest <:+ ts := by
  induction h with
  | prim | named | procedure => exact List.suffix_cons _ _
  | star _ _ ih | fn _ _ ih => exact ih.trans (List.suffix_cons _ _)

/-- What a literal token is read as. -/
def Lexeme.Means : Lexeme → Value → Ty → Prop
  | .number text, v, ty => numberLiteral? text = some (v, ty)
  | .string raw, v, ty => v = .str (unescaped raw) ∧ ty = .string
  | .keyword .true_, v, ty => v = .bool true ∧ ty = .bool
  | .keyword .false_, v, ty => v = .bool false ∧ ty = .bool
  | _, _, _ => False

namespace Grammar

section Readers

variable {env : Env} {n m : Nat} {ts rest : List Token} {k : Kind} {t : Token}
  {r : Step ts.length Token} {eof s : Span} {ty : Ty}

/-- The reader gives this, and leaves that. -/
def Gives {α : Type} (x : Parse (Step n α)) (a : α) (rest : List Token) : Prop :=
  ∃ r, x = .ok r ∧ r.value = a ∧ r.rest = rest

theorem gives_of_eq_ok {α : Type} {x : Parse (Step n α)} {r : Step n α} (h : x = .ok r) :
    Gives x r.value r.rest :=
  ⟨r, h, rfl, rfl⟩

theorem gives_ok {α : Type} {r : Step n α} {a : α} :
    Gives (.ok r) a rest ↔ r.value = a ∧ r.rest = rest := by
  constructor
  · rintro ⟨_, ⟨⟩, h⟩
    exact h
  · intro h
    exact ⟨r, rfl, h⟩

theorem Gives.done {α : Type} {r : Step n α} : Gives (.ok r) r.value r.rest := gives_of_eq_ok rfl

theorem not_gives_error {α : Type} {e : Located ParseError} {a : α} :
    ¬ Gives (.error e : Parse (Step n α)) a rest := by
  rintro ⟨_, ⟨⟩, -⟩

theorem gives_bind {α β : Type} {x : Parse α} {f : α → Parse (Step n β)} {b : β} :
    Gives (x >>= f) b rest ↔ ∃ a, x = .ok a ∧ Gives (f a) b rest := by
  cases x <;> simp [Gives, bind, Except.bind]

/-- One reader after the other. -/
theorem gives_step {α β : Type} {x : Parse (Step n α)} {f : Step n α → Parse (Step m β)} {b : β}
    (h : Gives (x >>= f) b rest) : ∃ a mid lt, Gives x a mid ∧ Gives (f ⟨a, mid, lt⟩) b rest := by
  obtain ⟨⟨a, mid, lt⟩, hx, hf⟩ := gives_bind.mp h
  exact ⟨a, mid, lt, gives_of_eq_ok hx, hf⟩

/-- The other way round. -/
theorem Gives.bind {α β : Type} {x : Parse (Step n α)} {f : Step n α → Parse (Step m β)} {a : α}
    {b : β} {mid : List Token} (hx : Gives x a mid) (hf : ∀ lt, Gives (f ⟨a, mid, lt⟩) b rest) :
    Gives (x >>= f) b rest := by
  obtain ⟨⟨a, mid, lt⟩, hx, rfl, rfl⟩ := hx
  exact gives_bind.mpr ⟨_, hx, hf lt⟩

theorem Gives.unique {α : Type} {x : Parse (Step n α)} {a a' : α} {rest' : List Token}
    (h : Gives x a rest) (h' : Gives x a' rest') : a = a' ∧ rest = rest' := by
  obtain ⟨r, rfl, rfl, rfl⟩ := h
  exact gives_ok.mp h'

theorem accept?_cons (h : t.lexeme.kind = k) (ts : List Token) :
    accept? k (t :: ts) = some (.before t ts) := if_pos h

theorem accept?_ne (h : peek ts ≠ k) : accept? k ts = none := by
  cases ts with
  | nil => rfl
  | cons t ts => exact if_neg h

theorem accept?_mark (p : Punct) (s : Span) (ts : List Token) :
    accept? (.punct p) (⟨.punct p, s⟩ :: ts) = some (.before ⟨.punct p, s⟩ ts) :=
      accept?_cons rfl ts

theorem expect_mark (p : Punct) (s : Span) (ts : List Token) :
    Gives (expect env (.punct p) (⟨.punct p, s⟩ :: ts)) ⟨.punct p, s⟩ ts := by
  rw [expect, accept?_mark]
  exact .done

theorem accept?_eq_some (h : accept? k ts = some r) :
    ts = r.value :: r.rest ∧ r.value.lexeme.kind = k := by
  cases ts with
  | nil => simp [accept?] at h
  | cons t ts =>
    simp only [accept?] at h
    split at h
    · rename_i hk
      obtain rfl := Option.some.inj h
      exact ⟨rfl, hk⟩
    · simp at h

theorem expect_eq_ok (h : expect env k ts = .ok r) :
    ts = r.value :: r.rest ∧ r.value.lexeme.kind = k := by
  unfold expect at h
  split at h
  · rename_i hr
    obtain rfl := Except.ok.inj h
    exact accept?_eq_some hr
  · simp at h

theorem accept?_rest (h : accept? k ts = some r) : r.rest <:+ ts :=
  ⟨[r.value], (accept?_eq_some h).1.symm⟩

theorem expect_rest (h : expect env k ts = .ok r) : r.rest <:+ ts :=
  ⟨[r.value], (expect_eq_ok h).1.symm⟩

theorem accept?_eq_none (hk : k ≠ .eof) : accept? k ts = none ↔ peek ts ≠ k := by
  cases ts with
  | nil => simpa [accept?, peek] using hk.symm
  | cons t ts => simp [accept?, peek]

theorem accept?_inv (h : accept? k ts = some r) :
    ∃ t rest lt, ts = t :: rest ∧ r = ⟨t, rest, lt⟩ ∧ t.lexeme.kind = k := by
  obtain ⟨t, rest, lt⟩ := r
  obtain ⟨hts, hk⟩ := accept?_eq_some h
  exact ⟨t, rest, lt, hts, rfl, hk⟩

theorem accept?_punct {p : Punct} (h : accept? (.punct p) ts = some r) :
    ∃ s rest lt, ts = ⟨.punct p, s⟩ :: rest ∧ r = ⟨⟨.punct p, s⟩, rest, lt⟩ := by
  obtain ⟨⟨lexeme, s⟩, rest, lt, hts, hr, hk⟩ := accept?_inv h
  obtain rfl : lexeme = .punct p := Lexeme.kind_eq_punct.mp hk
  exact ⟨s, rest, lt, hts, hr⟩

/-- A dot or an arrow, as before a member. -/
theorem accept?_member (h : (accept? (.punct .dot) ts).or (accept? (.punct .arrow) ts) = some r) :
    ∃ (arrow : Bool) (s : Span) (rest : List Token) (lt : rest.length < ts.length),
      ts = ⟨.punct (if arrow then .arrow else .dot), s⟩ :: rest ∧
      r = ⟨⟨.punct (if arrow then .arrow else .dot), s⟩, rest, lt⟩ := by
  rcases Option.or_eq_some_iff.mp h with hdot | ⟨-, harrow⟩
  · exact ⟨false, accept?_punct hdot⟩
  · exact ⟨true, accept?_punct harrow⟩

theorem expect_punct {p : Punct} (h : Gives (expect env (.punct p) ts) t rest) :
    ∃ s, t = ⟨.punct p, s⟩ ∧ ts = ⟨.punct p, s⟩ :: rest := by
  obtain ⟨⟨⟨lexeme, s⟩, rest, lt⟩, hr, rfl, rfl⟩ := h
  obtain ⟨hts, hk⟩ := expect_eq_ok hr
  obtain rfl : lexeme = .punct p := Lexeme.kind_eq_punct.mp hk
  exact ⟨s, rfl, hts⟩

theorem identifier_eq_ok {r : Step ts.length Ident} (h : identifier env ts = .ok r) :
    ∃ t, ts = t :: r.rest ∧ t.lexeme = .identifier r.value.name ∧ r.value.span = t.span := by
  cases ts with
  | nil => simp [identifier] at h
  | cons t ts =>
    simp only [identifier] at h
    split at h
    · rename_i hname
      obtain rfl := Except.ok.inj h
      exact ⟨t, rfl, hname, rfl⟩
    · simp at h

theorem identifier_inv {id : Ident} (h : Gives (identifier env ts) id rest) :
    ts = ⟨.identifier id.name, id.span⟩ :: rest := by
  obtain ⟨r, hr, rfl, rfl⟩ := h
  obtain ⟨⟨_, _⟩, hts, rfl, rfl⟩ := identifier_eq_ok hr
  exact hts

/-- A type is read as it is spelled, with the span of its last token. -/
theorem typeExpr_spelled {ts rest : List Token} (h : Gives (typeExpr eof ts) (ty, s) rest) :
    Ty.Spelled (fun ty => ty.addLevels 1) ty ts rest ∧ ∃ last,
      last :: rest <:+ ts ∧ s = last.span := by
  induction ts generalizing ty with
  | nil => exact absurd h not_gives_error
  | cons t ts ih =>
    have htail := List.suffix_cons t ts
    unfold typeExpr at h
    dsimp only at h
    split at h
    · rename_i ht
      obtain ⟨⟨ty', s'⟩, _, _, hty, h⟩ := gives_step h
      obtain ⟨⟨⟩, rfl⟩ := gives_ok.mp h
      obtain ⟨hty, last, hlast, hs⟩ := ih hty
      exact ⟨.star ht hty, last, hlast.trans htail, hs⟩
    · rename_i ht
      obtain ⟨⟨⟩, rfl⟩ := gives_ok.mp h
      exact ⟨.named ht, t, List.suffix_rfl, rfl⟩
    · rename_i ht
      split at h
      · obtain ⟨⟨ty', s'⟩, _, _, hty, h⟩ := gives_step h
        obtain ⟨⟨⟩, rfl⟩ := gives_ok.mp h
        obtain ⟨hty, last, hlast, hs⟩ := ih hty
        exact ⟨.fn ht hty, last, hlast.trans htail, hs⟩
      · rename_i hnext
        obtain ⟨⟨⟩, rfl⟩ := gives_ok.mp h
        exact ⟨.procedure ht (Bool.eq_false_iff.mpr hnext), t, List.suffix_rfl, rfl⟩
    · rename_i k _ ht
      split at h
      · rename_i hp
        obtain ⟨p, rfl⟩ := Keyword.base?_eq_prim hp
        obtain ⟨⟨⟩, rfl⟩ := gives_ok.mp h
        exact ⟨.prim ht hp, t, List.suffix_rfl, rfl⟩
      · exact absurd h not_gives_error
    · exact absurd h not_gives_error

theorem startsType_of_spelled {raise : Ty → Ty} (h : Ty.Spelled raise ty ts rest) :
    startsType (peek ts) = true := by
  cases h with
  | @prim t k p _ ht hp =>
    rw [show peek (t :: rest) = .keyword k from congrArg Lexeme.kind ht]
    cases k <;> simp [Keyword.base?] at hp <;> rfl
  | named ht | star ht _ | fn ht _ | procedure ht _ =>
    rw [peek, Token.kind, ht]
    rfl

theorem typeExpr_rest {r : Step ts.length (Ty × Span)} (h : typeExpr eof ts = .ok r) :
    r.rest <:+ ts := (typeExpr_spelled (gives_of_eq_ok h)).1.rest

theorem operators_some {op? : Kind → Option UnaryOp} {op : UnaryOp} (h : op? t.kind = some op)
    (ts : List Token) :
    (operators op? (t :: ts)).value = (op, t.span) :: (operators op? ts).value ∧
      (operators op? (t :: ts)).rest = (operators op? ts).rest := by
  simp [operators, h]

theorem operators_none {op? : Kind → Option UnaryOp} (ts : List Token) (h : op? (peek ts) = none) :
    (operators op? ts).value = [] ∧ (operators op? ts).rest = ts := by
  cases ts with
  | nil => exact ⟨rfl, rfl⟩
  | cons t ts => simp [operators, show op? t.kind = none from h, Step.before]

/-- `P` relates the tokens to what is left of them, and does so whatever is left, as long as its
first token is of the same kind. -/
def Local (P : List Token → List Token → Prop) (ts rest : List Token) : Prop :=
  ∃ front, ts = front ++ rest ∧ ∀ rest', peek rest' = peek rest → P (front ++ rest') rest'

section Local

variable {P Q R : List Token → List Token → Prop} {mid : List Token} {t : Token}

theorem peek_append (front : List Token) (h : peek ts = peek rest) :
    peek (front ++ ts) = peek (front ++ rest) := by
  cases front with
  | nil => exact h
  | cons => rfl

theorem endsAt_congr {k : Kind} (h : peek ts = peek rest) : endsAt k ts = endsAt k rest := by
  rw [endsAt, endsAt, h]

theorem Local.suffix (h : Local P ts rest) : rest <:+ ts := by
  obtain ⟨front, rfl, -⟩ := h
  exact List.suffix_append front rest

theorem Local.nil (h : ∀ rest', peek rest' = peek rest → P rest' rest') : Local P rest rest :=
  ⟨[], rfl, h⟩

theorem Local.imp (h : Local P ts rest) (hR : ∀ {ts rest}, P ts rest → R ts rest) :
    Local R ts rest := by
  obtain ⟨front, hts, hP⟩ := h
  exact ⟨front, hts, fun rest' hpeek => hR (hP rest' hpeek)⟩

theorem Local.push (front : List Token) (h : Local P ts rest)
    (hR : ∀ {ts rest}, P ts rest → R (front ++ ts) rest) : Local R (front ++ ts) rest := by
  obtain ⟨front', rfl, hP⟩ := h
  refine ⟨front ++ front', by simp, fun rest' hpeek => ?_⟩
  rw [List.append_assoc]
  exact hR (hP rest' hpeek)

theorem Local.cons (h : Local P ts rest) (hR : ∀ {ts rest}, P ts rest → R (t :: ts) rest) :
    Local R (t :: ts) rest := h.push [t] hR

theorem Local.drop (h : Local P ts (t :: rest)) :
    Local (fun ts rest => P ts (t :: rest)) ts rest := by
  obtain ⟨front, rfl, hP⟩ := h
  refine ⟨front ++ [t], by simp, fun rest' _ => ?_⟩
  rw [List.append_assoc]
  exact hP (t :: rest') rfl

theorem Local.trans (h : Local P ts mid) (h' : Local Q mid rest) :
    Local (fun ts rest => ∃ mid, P ts mid ∧ Q mid rest) ts rest := by
  obtain ⟨front, rfl, hP⟩ := h
  obtain ⟨front', rfl, hQ⟩ := h'
  refine ⟨front ++ front', by simp, fun rest' hpeek => ?_⟩
  rw [List.append_assoc]
  exact ⟨_, hP _ (peek_append front' hpeek), hQ rest' hpeek⟩

/-- What comes next is of the same kind, before and after. -/
theorem Local.ahead (h : Local P ts rest) :
    Local (fun ts' rest' => peek ts' = peek ts ∧ peek rest' = peek rest ∧ P ts' rest') ts rest := by
  obtain ⟨front, rfl, hP⟩ := h
  exact ⟨front, rfl, fun rest' hpeek => ⟨peek_append front hpeek, hpeek, hP rest' hpeek⟩⟩

end Local

theorem typeExpr_local {ts rest : List Token} (h : Gives (typeExpr eof ts) (ty, s) rest) :
    Local (fun ts rest => Gives (typeExpr eof ts) (ty, s) rest) ts rest := by
  induction ts generalizing ty with
  | nil => exact absurd h not_gives_error
  | cons t ts ih =>
    unfold typeExpr at h
    dsimp only at h
    split at h
    · rename_i ht
      obtain ⟨⟨ty', s'⟩, _, _, hty, h⟩ := gives_step h
      obtain ⟨⟨⟩, rfl⟩ := gives_ok.mp h
      refine (ih hty).cons fun hty => ?_
      rw [typeExpr, ht]
      exact hty.bind fun _ => .done
    · rename_i ht
      obtain ⟨⟨⟩, rfl⟩ := gives_ok.mp h
      refine ⟨[t], rfl, fun rest' _ => ?_⟩
      show Gives (typeExpr eof (t :: rest')) _ _
      rw [typeExpr, ht]
      exact .done
    · rename_i ht
      split at h
      · rename_i hnext
        obtain ⟨⟨ty', s'⟩, _, _, hty, h⟩ := gives_step h
        obtain ⟨⟨⟩, rfl⟩ := gives_ok.mp h
        refine (ih hty).ahead.cons fun ⟨hpeek, _, hty⟩ => ?_
        rw [typeExpr, ht]
        dsimp only
        rw [if_pos (by rwa [hpeek])]
        exact hty.bind fun _ => .done
      · rename_i hnext
        obtain ⟨⟨⟩, rfl⟩ := gives_ok.mp h
        refine ⟨[t], rfl, fun rest' hpeek => ?_⟩
        show Gives (typeExpr eof (t :: rest')) _ _
        rw [typeExpr, ht]
        dsimp only
        rw [if_neg (by rwa [hpeek])]
        exact .done
    · rename_i k _ ht
      split at h
      · rename_i hp
        obtain ⟨p, rfl⟩ := Keyword.base?_eq_prim hp
        obtain ⟨⟨⟩, rfl⟩ := gives_ok.mp h
        refine ⟨[t], rfl, fun rest' _ => ?_⟩
        show Gives (typeExpr eof (t :: rest')) _ _
        rw [typeExpr, ht]
        cases k <;> simp [Keyword.base?] at hp <;> subst hp <;> exact .done
      · exact absurd h not_gives_error
    · exact absurd h not_gives_error

theorem operators_local (op? : Kind → Option UnaryOp) (hend : op? .eof = none) (ts : List Token) :
    Local (fun ts' rest => (operators op? ts').value = (operators op? ts).value ∧
      (operators op? ts').rest = rest) ts (operators op? ts).rest := by
  have hstop {us : List Token} (h : op? (peek us) = none) : Local (fun ts' rest =>
      (operators op? ts').value = (operators op? us).value ∧ (operators op? ts').rest = rest) us
      (operators op? us).rest := by
    obtain ⟨hvalue, hrest⟩ := operators_none us h
    rw [hrest, hvalue]
    exact .nil fun rest' hpeek => operators_none rest' (by rwa [hpeek])
  induction ts with
  | nil => exact hstop hend
  | cons t ts ih =>
    cases h : op? t.kind with
    | none => exact hstop h
    | some op =>
      obtain ⟨hvalue, hrest⟩ := operators_some h ts
      rw [hrest, hvalue]
      refine ih.cons fun {ts' rest'} ⟨hvalue', hrest'⟩ => ?_
      rw [(operators_some h ts').1, (operators_some h ts').2, hvalue', hrest']
      exact ⟨rfl, rfl⟩

theorem operators_rest (op? : Kind → Option UnaryOp) (hend : op? .eof = none) (ts : List Token) :
    (operators op? ts).rest <:+ ts := (operators_local op? hend ts).suffix

/-- Infix operators are the binary ones. -/
theorem infixLevel?_eq (k : Kind) : infixLevel? k = (binaryOp? k).map BinaryOp.level := by
  cases k with
  | punct p => cases p <;> rfl
  | _ => rfl

theorem binaryTail_cons (level : Nat) (lhs : Expr) (t : Token) (ts : List Token) :
    binaryTail env level lhs (t :: ts) = match binaryOp? t.kind with
      | none => .ok (.before lhs (t :: ts))
      | some op =>
        if level ≤ op.level then do
          let rhs ← exprAt env (op.level + 1) ts
          let e := .binary op lhs rhs.value (lhs.span.through rhs.value.span)
          let r ← binaryTail env level e rhs.rest
          return ⟨r.value, r.rest, r.lt_of_le (Nat.lt_succ_of_lt rhs.lt_succ)⟩
        else .ok (.before lhs (t :: ts)) := by
  rw [binaryTail, infixLevel?_eq]
  cases binaryOp? t.kind <;> rfl

/-- No binary operator of this level or a tighter one comes next. -/
def NoTighter (level : Nat) (rest : List Token) : Prop :=
  ∀ op, binaryOp? (peek rest) = some op → op.level < level

/-- No argument list and no member comes next. -/
def NoSuffix (rest : List Token) : Prop :=
  peek rest ≠ .punct .lParen ∧ peek rest ≠ .punct .dot ∧ peek rest ≠ .punct .arrow

end Readers

/-- What is read where expressions stand: an expression of operators of at least this level, what
becomes of one with the operators after it, an operand of such operators, the head of a chain, what
becomes of it with its suffixes, what becomes of an expression with the casts after it, or
arguments. -/
inductive Form where
  | expr (level : Nat) (e : Expr)
  | operators (level : Nat) (lhs e : Expr)
  | operand (e : Expr)
  | head (e : Expr)
  | suffixes (head e : Expr)
  | casts (operand e : Expr)
  | arguments (es : List Expr)

/-- What is read is as `P` says of expressions and `Q` of arguments, if what it is made of is. -/
def Form.Each (P : Expr → Prop) (Q : List Expr → Prop) : Form → Prop
  | .expr _ e | .operand e | .head e => P e
  | .operators _ e e' | .suffixes e e' | .casts e e' => P e → P e'
  | .arguments es => Q es

/-- The tokens up to `rest` are read as the form. -/
inductive Builds (env : Env) : List Token → Form → List Token → Prop where
  | expr {level lhs e ts mid rest} : Builds env ts (.operand lhs) mid →
      Builds env mid (.operators level lhs e) rest → Builds env ts (.expr level e) rest
  | noOperator {level e ts} : NoTighter level ts → Builds env ts (.operators level e e) ts
  | operator {level t op lhs rhs e ts mid rest} : binaryOp? t.kind = some op → level ≤ op.level →
      Builds env ts (.expr (op.level + 1) rhs) mid →
      Builds env mid (.operators level (.binary op lhs rhs (lhs.span.through rhs.span)) e) rest →
      Builds env (t :: ts) (.operators level lhs e) rest
  | operand {head e e' ts mid mid' rest} :
      Builds env (operators addressOp? (operators signOp? ts).rest).rest (.head head) mid →
      Builds env mid (.suffixes head e) mid' →
      Builds env mid'
        (.casts (applyOperators (operators addressOp? (operators signOp? ts).rest).value e)
          e') rest →
      Builds env ts (.operand (applyOperators (operators signOp? ts).value e')) rest
  | ident {t name rest} : t.lexeme = .identifier name →
      Builds env (t :: rest) (.head (.ident ⟨name, t.span⟩)) rest
  | literal {t v ty rest} : t.lexeme.Means v ty →
      Builds env (t :: rest) (.head (.literal v ty t.span)) rest
  | paren {l close e ts rest} : l.lexeme = .punct .lParen →
      Builds env ts (.expr 0 e) (⟨.punct .rParen, close⟩ :: rest) →
      Builds env (l :: ts) (.head (.paren e (l.span.through close))) rest
  | noSuffix {e ts} : NoSuffix ts →
      Builds env ts (.suffixes e (if isFunction env e then .call e [] e.span else e)) ts
  | call {s close head args e ts mid rest} :
      Builds env ts (.arguments args) (⟨.punct .rParen, close⟩ :: mid) →
      Builds env mid (.suffixes (.call head args (head.span.through close)) e) rest →
      Builds env (⟨.punct .lParen, s⟩ :: ts) (.suffixes head e) rest
  | member {s head field arrow e ts rest} :
      Builds env ts (.suffixes (.member head field arrow (head.span.through field.span)) e) rest →
      Builds env (⟨.punct (if arrow then .arrow else .dot), s⟩ ::
        ⟨.identifier field.name, field.span⟩ :: ts) (.suffixes head e) rest
  | noCast {e ts} : peek ts ≠ .keyword .as_ → Builds env ts (.casts e e) ts
  | cast {t last ty e e' ts mid rest} : t.lexeme = .keyword .as_ →
      Gives (typeExpr env.eof ts) (ty, last) mid →
      Builds env mid (.casts (.cast e ty (e.span.through last)) e') rest →
      Builds env (t :: ts) (.casts e e') rest
  | noArgument {ts} : endsAt (.punct .rParen) ts → Builds env ts (.arguments []) ts
  | lastArgument {e ts rest} : endsAt (.punct .rParen) ts = false → Builds env ts (.expr 0 e) rest →
      peek rest = .punct .rParen → Builds env ts (.arguments [e]) rest
  | argument {s e es ts mid rest} : endsAt (.punct .rParen) ts = false →
      Builds env ts (.expr 0 e) (⟨.punct .comma, s⟩ :: mid) →
      Builds env mid (.arguments es) rest → Builds env ts (.arguments (e :: es)) rest

theorem castTail_builds (env : Env) (e : Expr) (ts : List Token) {e' : Expr} {rest : List Token}
    (h : Gives (castTail env.eof e ts) e' rest) : Builds env ts (.casts e e') rest := by
  unfold castTail at h
  split at h
  · rename_i hnone
    obtain ⟨rfl, rfl⟩ := gives_ok.mp h
    exact .noCast ((accept?_eq_none (by decide)).mp hnone)
  · rename_i hmark
    obtain ⟨t, mid, hlt, rfl, rfl, ht⟩ := accept?_inv hmark
    obtain ⟨⟨ty, last⟩, afterType, hlt', hty, h⟩ := gives_step h
    obtain ⟨_, _, _, he, h⟩ := gives_step h
    obtain ⟨rfl, rfl⟩ := gives_ok.mp h
    have hdec := Nat.lt_trans hlt' hlt
    exact .cast (Lexeme.kind_eq_keyword.mp ht) hty (castTail_builds env _ afterType he)
termination_by ts.length

mutual

theorem exprAt_builds (env : Env) (level : Nat) (ts : List Token) {e : Expr} {rest : List Token}
    (h : Gives (exprAt env level ts) e rest) : Builds env ts (.expr level e) rest := by
  unfold exprAt at h
  obtain ⟨lhs, mid, hlt, hlhs, h⟩ := gives_step h
  obtain ⟨_, _, _, he, h⟩ := gives_step h
  obtain ⟨rfl, rfl⟩ := gives_ok.mp h
  exact .expr (operand_builds env ts hlhs) (binaryTail_builds env level lhs mid he)
termination_by 4 * ts.length + 2

theorem binaryTail_builds (env : Env) (level : Nat) (lhs : Expr) (ts : List Token) {e : Expr}
    {rest : List Token} (h : Gives (binaryTail env level lhs ts) e rest) :
    Builds env ts (.operators level lhs e) rest := by
  match ts with
  | [] =>
    rw [binaryTail] at h
    obtain ⟨rfl, rfl⟩ := gives_ok.mp h
    exact .noOperator nofun
  | t :: ts =>
    rw [binaryTail_cons] at h
    split at h
    · rename_i hnone
      obtain ⟨rfl, rfl⟩ := gives_ok.mp h
      exact .noOperator fun op hop => nomatch hnone.symm.trans hop
    · rename_i op hop
      split at h
      · rename_i hle
        obtain ⟨rhs, mid, hlt, hrhs, h⟩ := gives_step h
        obtain ⟨_, _, _, he, h⟩ := gives_step h
        obtain ⟨rfl, rfl⟩ := gives_ok.mp h
        exact .operator hop hle (exprAt_builds env _ ts hrhs) (binaryTail_builds env level _ mid he)
      · rename_i hlt
        obtain ⟨rfl, rfl⟩ := gives_ok.mp h
        refine .noOperator fun op' hop' => ?_
        obtain rfl : op = op' := Option.some.inj (hop.symm.trans hop')
        exact Nat.lt_of_not_le hlt
termination_by 4 * ts.length
decreasing_by
  all_goals subst_vars
  all_goals simp only [List.length_cons]
  all_goals omega

theorem operand_builds (env : Env) (ts : List Token) {e : Expr} {rest : List Token}
    (h : Gives (operand env ts) e rest) : Builds env ts (.operand e) rest := by
  unfold operand at h
  have hsigns := (operators signOp? ts).le
  have hmarks := (operators addressOp? (operators signOp? ts).rest).le
  obtain ⟨head, mid, hlt, hhead, h⟩ := gives_step h
  obtain ⟨chain, mid', _, hchain, h⟩ := gives_step h
  obtain ⟨_, _, _, hcast, h⟩ := gives_step h
  obtain ⟨rfl, rfl⟩ := gives_ok.mp h
  exact .operand (primary_builds env _ hhead) (postfixTail_builds env head mid hchain)
    (castTail_builds env _ mid' hcast)
termination_by 4 * ts.length + 1

theorem primary_builds (env : Env) (ts : List Token) {e : Expr} {rest : List Token}
    (h : Gives (primary env ts) e rest) : Builds env ts (.head e) rest := by
  unfold primary at h
  split at h
  · exact absurd h not_gives_error
  · rename_i t ts
    have hliteral {v ty} (hmeans : t.lexeme.Means v ty) :
        Builds env (t :: ts) (.head (.literal v ty t.span)) ts := .literal hmeans
    split at h
    · rename_i hname
      obtain ⟨rfl, rfl⟩ := gives_ok.mp h
      exact .ident hname
    · rename_i text htext
      split at h
      · rename_i hlit
        obtain ⟨rfl, rfl⟩ := gives_ok.mp h
        exact hliteral (by rwa [htext])
      · exact absurd h not_gives_error
    · rename_i hraw
      obtain ⟨rfl, rfl⟩ := gives_ok.mp h
      exact hliteral (by rw [hraw]; exact ⟨rfl, rfl⟩)
    · rename_i htrue
      obtain ⟨rfl, rfl⟩ := gives_ok.mp h
      exact hliteral (by rw [htrue]; exact ⟨rfl, rfl⟩)
    · rename_i hfalse
      obtain ⟨rfl, rfl⟩ := gives_ok.mp h
      exact hliteral (by rw [hfalse]; exact ⟨rfl, rfl⟩)
    · rename_i hl
      obtain ⟨_, _, _, he, h⟩ := gives_step h
      obtain ⟨_, _, _, hclose, h⟩ := gives_step h
      obtain ⟨rfl, rfl⟩ := gives_ok.mp h
      obtain ⟨_, rfl, rfl⟩ := expect_punct hclose
      exact .paren hl (exprAt_builds env 0 ts he)
    · exact absurd h not_gives_error
termination_by 4 * ts.length
decreasing_by
  all_goals subst_vars
  all_goals simp only [List.length_cons]
  all_goals omega

theorem postfixTail_builds (env : Env) (head : Expr) (ts : List Token) {e : Expr}
    {rest : List Token}
    (h : Gives (postfixTail env head ts) e rest) : Builds env ts (.suffixes head e) rest := by
  unfold postfixTail at h
  split at h
  · rename_i hmark
    obtain ⟨s, mid, hlt, rfl, rfl⟩ := accept?_punct hmark
    obtain ⟨args, afterArgs, hlt', hargs, h⟩ := gives_step h
    obtain ⟨_, afterClose, hlt'', hclose, h⟩ := gives_step h
    obtain ⟨_, _, _, he, h⟩ := gives_step h
    obtain ⟨rfl, rfl⟩ := gives_ok.mp h
    have hdec := Nat.lt_trans (Nat.lt_of_lt_of_le hlt'' (Nat.le_of_lt_succ hlt')) hlt
    obtain ⟨_, rfl, rfl⟩ := expect_punct hclose
    exact .call (arguments_builds env mid hargs) (postfixTail_builds env _ afterClose he)
  · rename_i hparen
    split at h
    · rename_i mark hmark
      obtain ⟨arrow, s, mid, hlt, rfl, rfl⟩ := accept?_member hmark
      obtain ⟨field, afterField, hlt', hfield, h⟩ := gives_step h
      obtain ⟨_, _, _, he, h⟩ := gives_step h
      obtain ⟨rfl, rfl⟩ := gives_ok.mp h
      have hdec := Nat.lt_trans hlt' hlt
      obtain rfl := identifier_inv hfield
      have harrow : decide ((⟨.punct (if arrow then .arrow else .dot), s⟩ : Token).kind =
          .punct .arrow) = arrow := by cases arrow <;> rfl
      rw [harrow] at he
      exact .member (postfixTail_builds env _ afterField he)
    · rename_i hnone
      obtain ⟨hdot, harrow⟩ := Option.or_eq_none_iff.mp hnone
      obtain ⟨rfl, rfl⟩ := gives_ok.mp h
      exact .noSuffix ⟨(accept?_eq_none (by decide)).mp hparen,
        (accept?_eq_none (by decide)).mp hdot, (accept?_eq_none (by decide)).mp harrow⟩
termination_by 4 * ts.length

theorem arguments_builds (env : Env) (ts : List Token) {es : List Expr} {rest : List Token}
    (h : Gives (arguments env ts) es rest) : Builds env ts (.arguments es) rest := by
  unfold arguments at h
  split at h
  · rename_i hends
    obtain ⟨rfl, rfl⟩ := gives_ok.mp h
    exact .noArgument hends
  · rename_i hends
    rw [Bool.not_eq_true] at hends
    obtain ⟨e, afterExpr, hlt, he, h⟩ := gives_step h
    dsimp only at h
    split at h
    · rename_i hcomma
      obtain ⟨s, mid, hlt', rfl, rfl⟩ := accept?_punct hcomma
      obtain ⟨_, _, _, hes, h⟩ := gives_step h
      obtain ⟨rfl, rfl⟩ := gives_ok.mp h
      have hdec := Nat.lt_trans hlt' hlt
      exact .argument hends (exprAt_builds env 0 ts he) (arguments_builds env mid hes)
    · split at h
      · rename_i hclose
        obtain ⟨rfl, rfl⟩ := gives_ok.mp h
        exact .lastArgument hends (exprAt_builds env 0 ts he) hclose
      · exact absurd h not_gives_error
termination_by 4 * ts.length + 3

end

variable {env : Env} {ts : List Token}

/-- A form is read without regard to what comes after the token after it. -/
theorem Builds.local {rest : List Token} {x : Form} (h : Builds env ts x rest) :
    Local (fun ts rest => Builds env ts x rest) ts rest := by
  induction h with
  | expr _ _ ih ih' => exact (ih.trans ih').imp fun ⟨_, h, h'⟩ => .expr h h'
  | noOperator hnext => exact .nil fun rest' hpeek => .noOperator (by rwa [NoTighter, hpeek])
  | operator hop hlevel _ _ ih ih' =>
    exact (ih.trans ih').cons fun ⟨_, h, h'⟩ => .operator hop hlevel h h'
  | @operand _ _ _ ts _ _ _ _ _ _ ih ih' ih'' =>
    refine ((operators_local signOp? rfl ts).trans
      ((operators_local addressOp? rfl _).trans (ih.trans (ih'.trans ih'')))).imp ?_
    rintro ts' rest' ⟨_, ⟨hsigns, rfl⟩, _, ⟨hmarks, rfl⟩, _, hhead, _, hsuffixes, hcasts⟩
    rw [← hmarks] at hcasts
    rw [← hsigns]
    exact .operand hhead hsuffixes hcasts
  | ident ht => exact ⟨[_], rfl, fun _ _ => .ident ht⟩
  | literal h => exact ⟨[_], rfl, fun _ _ => .literal h⟩
  | paren hl _ ih => exact ih.drop.cons (.paren hl)
  | noSuffix hnext => exact .nil fun rest' hpeek => .noSuffix (by rwa [NoSuffix, hpeek])
  | call _ _ ih ih' => exact (ih.drop.trans ih').cons fun ⟨_, h, h'⟩ => .call h h'
  | member _ ih => exact ih.push [_, _] .member
  | noCast hnext => exact .nil fun rest' hpeek => .noCast (by rwa [hpeek])
  | cast ht hty _ ih => exact ((typeExpr_local hty).trans ih).cons fun ⟨_, h, h'⟩ => .cast ht h h'
  | noArgument hends => exact .nil fun rest' hpeek => .noArgument ((endsAt_congr hpeek).trans hends)
  | lastArgument hends _ hclose ih =>
    exact ih.ahead.imp fun ⟨hpeek, hpeek', h⟩ =>
      .lastArgument ((endsAt_congr hpeek).trans hends) h (hpeek'.trans hclose)
  | argument hends _ _ ih ih' =>
    exact (ih.ahead.drop.trans ih').imp fun ⟨_, ⟨hpeek, _, h⟩, h'⟩ =>
      .argument ((endsAt_congr hpeek).trans hends) h h'

theorem Builds.rest {env : Env} {ts rest : List Token} {x : Form} (h : Builds env ts x rest) :
    rest <:+ ts := h.local.suffix

/-- What the readers do when they read the form. -/
def Form.Given (env : Env) (ts rest : List Token) : Form → Prop
  | .expr level e => Gives (exprAt env level ts) e rest
  | .operators level lhs e => Gives (binaryTail env level lhs ts) e rest
  | .operand e => Gives (Grammar.operand env ts) e rest
  | .head e => Gives (primary env ts) e rest
  | .suffixes first e => Gives (postfixTail env first ts) e rest
  | .casts inner e => Gives (castTail env.eof inner ts) e rest
  | .arguments es => Gives (Grammar.arguments env ts) es rest

theorem primary_literal {t : Token} {v : Value} {ty : Ty} (h : t.lexeme.Means v ty)
    (ts : List Token) : Gives (primary env (t :: ts)) (.literal v ty t.span) ts := by
  rw [primary]
  cases ht : t.lexeme with
  | number text =>
    rw [ht] at h
    dsimp only
    rw [show numberLiteral? text = some (v, ty) from h]
    exact .done
  | string raw =>
    rw [ht] at h
    obtain ⟨rfl, rfl⟩ := h
    exact .done
  | keyword k =>
    rw [ht] at h
    cases k <;> first | exact h.elim | (obtain ⟨rfl, rfl⟩ := h; exact .done)
  | punct | directive | identifier =>
    rw [ht] at h
    exact h.elim

/-- What is derived is read. -/
theorem Builds.given {rest : List Token} {x : Form} (h : Builds env ts x rest) :
    x.Given env ts rest := by
  induction h with
  | expr _ _ ih ih' =>
    rw [Form.Given, exprAt]
    exact ih.bind fun _ => ih'.bind fun _ => .done
  | @noOperator level e ts hnext =>
    cases ts with
    | nil =>
      rw [Form.Given, binaryTail]
      exact .done
    | cons t ts =>
      rw [Form.Given, binaryTail_cons]
      cases hop : binaryOp? t.kind with
      | none => exact .done
      | some op =>
        dsimp only
        rw [if_neg (Nat.not_le_of_lt (hnext op hop))]
        exact .done
  | operator hop hlevel _ _ ih ih' =>
    rw [Form.Given, binaryTail_cons, hop]
    dsimp only
    rw [if_pos hlevel]
    exact ih.bind fun _ => ih'.bind fun _ => .done
  | operand _ _ _ ih ih' ih'' =>
    rw [Form.Given, Grammar.operand]
    exact ih.bind fun _ => ih'.bind fun _ => ih''.bind fun _ => .done
  | ident ht =>
    rw [Form.Given, primary, ht]
    exact .done
  | literal h => exact primary_literal h _
  | paren hl _ ih =>
    rw [Form.Given, primary, hl]
    exact ih.bind fun _ => (expect_mark _ _ _).bind fun _ => .done
  | noSuffix hnext =>
    obtain ⟨hparen, hdot, harrow⟩ := hnext
    rw [Form.Given, postfixTail, accept?_ne hparen, accept?_ne hdot, accept?_ne harrow]
    exact .done
  | call _ _ ih ih' =>
    rw [Form.Given, postfixTail, accept?_mark]
    exact ih.bind fun _ => (expect_mark _ _ _).bind fun _ => ih'.bind fun _ => .done
  | @member s _ field arrow _ ts _ _ ih =>
    have hfield : Gives (identifier env (⟨.identifier field.name, field.span⟩ :: ts)) field ts :=
      .done
    cases arrow <;> rw [Form.Given, postfixTail] <;>
      exact hfield.bind fun _ => ih.bind fun _ => .done
  | noCast hnext =>
    rw [Form.Given, castTail, accept?_ne hnext]
    exact .done
  | cast ht hty _ ih =>
    rw [Form.Given, castTail, accept?_cons (Lexeme.kind_eq_keyword.mpr ht)]
    exact hty.bind fun _ => ih.bind fun _ => .done
  | noArgument hends =>
    rw [Form.Given, Grammar.arguments, if_pos hends]
    exact .done
  | lastArgument hends _ hclose ih =>
    rw [Form.Given, Grammar.arguments, if_neg (Bool.eq_false_iff.mp hends)]
    refine ih.bind fun _ => ?_
    rw [accept?_ne (by rw [hclose]; decide)]
    dsimp only
    rw [if_pos hclose]
    exact .done
  | argument hends _ _ ih ih' =>
    rw [Form.Given, Grammar.arguments, if_neg (Bool.eq_false_iff.mp hends)]
    refine ih.bind fun _ => ?_
    rw [accept?_mark]
    exact ih'.bind fun _ => .done

theorem expr_local {rest : List Token} {e : Expr} (h : Gives (expr env ts) e rest) :
    Local (fun ts rest => Gives (expr env ts) e rest) ts rest :=
  (exprAt_builds env 0 ts h).local.imp Builds.given

theorem expr_rest {rest : List Token} {e : Expr} (h : Gives (expr env ts) e rest) : rest <:+ ts :=
  (exprAt_builds env 0 ts h).rest

end Grammar

end Frontend
