import Frontend.Proofs.Agreement
import Frontend.Proofs.Checking
import Frontend.Proofs.Plain
import Frontend.Proofs.Reading

/-!
What lowering asks of an expression, and that checking has seen to it. Lowering looks names up,
infers types and finds layouts in a table of its own; what can go wrong there is all that can stop
it, but for what it cannot do at all. Where that table agrees with the checker's, names and types
are found again. Whatever comes of it, lowering an expression leaves the table as it is.
-/
namespace Frontend

/-- Whether an error is about names and types of expressions, which the checker is there to find. -/
def LowerError.isNaming : LowerError → Bool
  | .unresolved _ | .unsupported .illTyped => true
  | .breach (.incompatibleJoin _ _) | .breach .negativeLevels => true
  | _ => false

/-- Whether an error says that something cannot be lowered at all, whatever it is made of. -/
def LowerError.isLimit : LowerError → Bool
  | .unsupported what => what ≠ .illTyped
  | _ => false

theorem LowerError.isNaming_of_isLimit {e : LowerError} (h : e.isLimit) : e.isNaming = false := by
  cases e with
  | unsupported what => cases what <;> first | rfl | simp [isLimit] at h
  | unresolved name => simp [isLimit] at h
  | breach b => simp [isLimit] at h

namespace Check

variable {t : ScopeTable Unit}

@[simp] theorem typeIn_eq_ok {e : Expr} {ty : Ty} : typeIn t e = .ok ty ↔ e.infer t = .ok ty := by
  rw [typeIn]
  cases e.infer t <;> simp [Except.mapError]

theorem discard_eq_ok {x : Except ε α} : (discard x : Except ε Unit) = .ok () ↔ ∃ a, x = .ok a := by
  cases x <;> simp [discard, Functor.mapConst, Except.map]

theorem exprs_inv {es : List Expr} (h : exprs t es = .ok ()) : ∀ e ∈ es, expr t e = .ok () := by
  induction es with
  | nil => simp
  | cons e es ih =>
    obtain ⟨_, he, hes⟩ := bind_eq_ok.mp h
    intro a ha
    rcases List.mem_cons.mp ha with rfl | ha
    · exact he
    · exact ih hes a ha

theorem binary_inv {op : BinaryOp} {lhs rhs : Expr} {s : Span}
    (h : expr t (.binary op lhs rhs s) = .ok ()) :
    expr t lhs = .ok () ∧ expr t rhs = .ok () ∧
      (∃ ty, typeIn t (.binary op lhs rhs s) = .ok ty) ∧ (op.isLogical = false →
        ∃ l r ty, lhs.infer t = .ok l ∧ rhs.infer t = .ok r ∧ l.join r = .ok ty) := by
  simp only [expr] at h
  obtain ⟨_, hl, h₁⟩ := bind_eq_ok.mp h
  obtain ⟨_, hr, h₂⟩ := bind_eq_ok.mp h₁
  refine ⟨hl, hr, ?_⟩
  cases hop : op.isLogical with
  | true =>
    rw [hop] at h₂
    exact ⟨discard_eq_ok.mp h₂, nofun⟩
  | false =>
    rw [hop] at h₂
    obtain ⟨l, hlty, h₃⟩ := bind_eq_ok.mp h₂
    obtain ⟨r, hrty, h₄⟩ := bind_eq_ok.mp h₃
    cases hjoin : l.join r with
    | error b =>
      simp only [hjoin] at h₄
      obtain ⟨_, hthrow, -⟩ := bind_eq_ok.mp h₄
      cases hthrow
    | ok ty =>
      rw [hjoin] at h₄
      exact ⟨discard_eq_ok.mp h₄, fun _ => ⟨l, r, ty, typeIn_eq_ok.mp hlty,
        typeIn_eq_ok.mp hrty, hjoin⟩⟩

theorem ident_checked {id : Ident} {b : Binding Unit} (h : t.find? id.name = some b) :
    expr t (.ident id) = .ok () := by
  have hty : (Expr.ident id).infer t = .ok b.ty := by simp [Expr.infer, h]
  exact discard_eq_ok.mpr ⟨b.ty, typeIn_eq_ok.mpr hty⟩

/-- A retyped literal is checked and has the type that it was given. -/
theorem coerce?_checked {ty : Ty} (e e' : Expr) (h : e.coerce? ty = some e') :
    expr t e' = .ok () ∧ e'.infer t = .ok ty := by
  match e with
  | .literal v ty' s =>
    rw [Expr.coerce?] at h
    split at h
    · rename_i hty
      obtain rfl := Option.some.inj h
      exact ⟨rfl, congrArg Except.ok hty⟩
    · split at h
      · obtain rfl := Option.some.inj h
        exact ⟨rfl, rfl⟩
      · simp at h
  | .paren inner s =>
    obtain ⟨inner', hinner, rfl⟩ := Option.map_eq_some_iff.mp h
    obtain ⟨hc, hty⟩ := coerce?_checked inner inner' hinner
    refine ⟨?_, hty⟩
    exact bind_eq_ok.mpr ⟨(), hc, discard_eq_ok.mpr ⟨ty, typeIn_eq_ok.mpr hty⟩⟩
  | .unary .neg inner s =>
    obtain ⟨inner', hinner, rfl⟩ := Option.map_eq_some_iff.mp h
    obtain ⟨hc, hty⟩ := coerce?_checked inner inner' hinner
    have hneg : (Expr.unary .neg inner' s).infer t = .ok ty := bind_eq_ok.mpr ⟨ty, hty, rfl⟩
    refine ⟨?_, hneg⟩
    exact bind_eq_ok.mpr ⟨(), hc, discard_eq_ok.mpr ⟨ty, typeIn_eq_ok.mpr hneg⟩⟩

theorem expr_coerced {ty : Ty} {e e' : Expr} (hc : Coerced ty e e') (h : expr t e = .ok ()) :
    expr t e' = .ok () := by
  rcases hc with rfl | hc
  · exact h
  · exact (coerce?_checked e e' hc).1

/-- What is taken has the type that was asked for. -/
theorem Takes.infer {ty : Ty} {e e' : Expr} {ws : List (Located Warning)} (h : Takes t ty e e' ws) :
    e'.infer t = .ok ty := by
  cases h with
  | same hty => exact hty
  | retyped _ _ _ hc => exact (coerce?_checked e e' hc).2

end Check

/-- Every part of the expression has a type: a check against a table that agrees with this one has
passed. -/
def Expr.TypedIn (t : ScopeTable V) (e : Expr) : Prop :=
  ∃ u : ScopeTable Unit, u.Agrees t ∧ Check.expr u e = .ok ()

namespace Expr.TypedIn

variable {t : ScopeTable V} {e : Expr} {s : Span}

theorem ident {id : Ident} (h : (Expr.ident id).TypedIn t) : ∃ b, t.find? id.name = some b := by
  obtain ⟨u, ha, h⟩ := h
  obtain ⟨ty, hty⟩ := Check.discard_eq_ok.mp h
  rw [Check.typeIn_eq_ok, ha.infer, Expr.infer] at hty
  cases hb : t.find? id.name with
  | none => simp [hb] at hty
  | some b => exact ⟨b, rfl⟩

theorem paren (h : (Expr.paren e s).TypedIn t) : e.TypedIn t := by
  obtain ⟨u, ha, h⟩ := h
  obtain ⟨_, he, -⟩ := bind_eq_ok.mp h
  exact ⟨u, ha, he⟩

theorem unary {op : UnaryOp} (h : (Expr.unary op e s).TypedIn t) : e.TypedIn t := by
  obtain ⟨u, ha, h⟩ := h
  obtain ⟨_, he, -⟩ := bind_eq_ok.mp h
  exact ⟨u, ha, he⟩

theorem cast {ty : Ty} (h : (Expr.cast e ty s).TypedIn t) : e.TypedIn t := by
  obtain ⟨u, ha, h⟩ := h
  obtain ⟨_, he, -⟩ := bind_eq_ok.mp h
  exact ⟨u, ha, he⟩

/-- A cast keeps the type, or it turns one number type into another. -/
theorem castType {ty : Ty} (h : (Expr.cast e ty s).TypedIn t) :
    ∃ actual, e.infer t = .ok actual ∧ (actual = ty ∨ ty.compatible actual) := by
  obtain ⟨u, ha, h⟩ := h
  obtain ⟨_, -, h₁⟩ := bind_eq_ok.mp h
  obtain ⟨actual, hactual, h₂⟩ := bind_eq_ok.mp h₁
  rw [Check.typeIn_eq_ok, ha.infer] at hactual
  refine ⟨actual, hactual, ?_⟩
  split at h₂
  · rename_i hfits
    simpa using hfits
  · cases h₂

theorem binary {op : BinaryOp} {lhs rhs : Expr} (h : (Expr.binary op lhs rhs s).TypedIn t) :
    lhs.TypedIn t ∧ rhs.TypedIn t ∧ (op.isLogical = false →
      ∃ l r ty, lhs.infer t = .ok l ∧ rhs.infer t = .ok r ∧ l.join r = .ok ty) := by
  obtain ⟨u, ha, h⟩ := h
  obtain ⟨hl, hr, -, hop⟩ := Check.binary_inv h
  rw [ha.infer, ha.infer] at hop
  exact ⟨⟨u, ha, hl⟩, ⟨u, ha, hr⟩, hop⟩

theorem call {args : List Expr} (h : (Expr.call e args s).TypedIn t) :
    e.TypedIn t ∧ ∀ a ∈ args, a.TypedIn t := by
  obtain ⟨u, ha, h⟩ := h
  obtain ⟨_, he, h₁⟩ := bind_eq_ok.mp h
  obtain ⟨_, hargs, -⟩ := bind_eq_ok.mp h₁
  exact ⟨⟨u, ha, he⟩, fun a hmem => ⟨u, ha, Check.exprs_inv hargs a hmem⟩⟩

theorem member {field : Ident} {arrow : Bool} (h : (Expr.member e field arrow s).TypedIn t) :
    e.TypedIn t ∧ ∃ ty, (Expr.member e field arrow s).infer t = .ok ty := by
  obtain ⟨u, ha, h⟩ := h
  obtain ⟨_, he, h₁⟩ := bind_eq_ok.mp h
  obtain ⟨ty, hty⟩ := Check.discard_eq_ok.mp h₁
  rw [Check.typeIn_eq_ok, ha.infer] at hty
  exact ⟨⟨u, ha, he⟩, ty, hty⟩

/-- What was checked has a type. -/
theorem infers (h : e.TypedIn t) : ∃ ty, e.infer t = .ok ty := by
  obtain ⟨u, ha, h⟩ := h
  suffices hty : ∃ ty, Check.typeIn u e = .ok ty by
    obtain ⟨ty, hty⟩ := hty
    exact ⟨ty, ha.infer e ▸ Check.typeIn_eq_ok.mp hty⟩
  cases e with
  | literal v ty s | cast e ty s => exact ⟨ty, rfl⟩
  | ident id => exact Check.discard_eq_ok.mp h
  | paren e s | unary op e s | member e field arrow s =>
    obtain ⟨_, -, h₁⟩ := bind_eq_ok.mp h
    exact Check.discard_eq_ok.mp h₁
  | binary op lhs rhs s => exact (Check.binary_inv h).2.2.1
  | call callee args s =>
    obtain ⟨_, -, h₁⟩ := bind_eq_ok.mp h
    obtain ⟨_, -, h₂⟩ := bind_eq_ok.mp h₁
    exact Check.discard_eq_ok.mp h₂

end Expr.TypedIn

/-- The expression was read and checked: its parts have types, and its literals values of theirs. -/
structure Expr.Checked (t : ScopeTable V) (e : Expr) : Prop where
  typed : e.TypedIn t
  fitted : e.Fitted

namespace Expr.Checked

variable {t : ScopeTable V} {e : Expr} {s : Span}

theorem intro {t : ScopeTable Unit} (hc : Check.expr t e = .ok ()) (hf : e.Fitted) : e.Checked t :=
  ⟨⟨t, .refl t, hc⟩, hf⟩

theorem paren (h : (Expr.paren e s).Checked t) : e.Checked t := ⟨h.typed.paren, h.fitted⟩

theorem unary {op : UnaryOp} (h : (Expr.unary op e s).Checked t) : e.Checked t :=
  ⟨h.typed.unary, h.fitted⟩

theorem cast {ty : Ty} (h : (Expr.cast e ty s).Checked t) : e.Checked t := ⟨h.typed.cast, h.fitted⟩

theorem member {field : Ident} {arrow : Bool} (h : (Expr.member e field arrow s).Checked t) :
    e.Checked t :=
  ⟨h.typed.member.1, h.fitted⟩

theorem lhs {op : BinaryOp} {rhs : Expr} (h : (Expr.binary op e rhs s).Checked t) : e.Checked t :=
  ⟨h.typed.binary.1, h.fitted.1⟩

theorem rhs {op : BinaryOp} {lhs : Expr} (h : (Expr.binary op lhs e s).Checked t) : e.Checked t :=
  ⟨h.typed.binary.2.1, h.fitted.2⟩

theorem callee {args : List Expr} (h : (Expr.call e args s).Checked t) : e.Checked t :=
  ⟨h.typed.call.1, h.fitted.1⟩

theorem argument {args : List Expr} (h : (Expr.call e args s).Checked t) {a : Expr}
    (ha : a ∈ args) : a.Checked t :=
  ⟨h.typed.call.2 a ha, fits args h.fitted.2 ha⟩
where
  fits {lit : Value → Ty → Prop} : ∀ args : List Expr, Expr.AllObey lit args →
    a ∈ args → a.Obeys lit
    | _ :: args, h, ha => by
      rcases List.mem_cons.mp ha with rfl | ha
      · exact h.1
      · exact fits args h.2 ha

end Expr.Checked

/-- What can go wrong with the layout of a type. Values of type `any` are not supported. -/
def Ty.Trouble (t : ScopeTable Handle) (ty : Ty) (err : LowerError) : Prop :=
  ∃ b, ty.lower t = .error b ∧ b ≠ .missingLayout (.prim .any) ∧ err = .breach b

variable {t : ScopeTable Handle}

/-- A type has no layout for want of the layout of a base. -/
theorem Ty.lower_error (ty : Ty) {b : Breach} (h : ty.lower t = .error b) :
    ∃ base, b = .missingLayout base := by
  match ty with
  | .prim p n | .struct name n | .inst name n =>
    simp only [Ty.lower] at h
    split at h
    · simp at h
    · exact ⟨_, (Except.error.inj h).symm⟩
  | .fn ret n =>
    simp only [Ty.lower] at h
    cases hret : ret.lower t with
    | error b' =>
      rw [hret] at h
      obtain rfl := Except.error.inj h
      exact Ty.lower_error ret hret
    | ok r => simp [hret, Bind.bind, Except.bind, Pure.pure, Except.pure] at h

theorem Ty.Trouble.not_naming {ty : Ty} {err : LowerError} (h : ty.Trouble t err) :
    err.isNaming = false := by
  obtain ⟨b, hlower, -, rfl⟩ := h
  obtain ⟨base, rfl⟩ := Ty.lower_error ty hlower
  rfl

/-- What can go wrong with the names and types in an expression, and with the layouts of the types,
when it is lowered. -/
inductive Expr.Trouble (t : ScopeTable Handle) : Expr → LowerError → Prop where
  | literal {v ty s err} : ty.Trouble t err → Trouble t (.literal v ty s) err
  | ident {id} : t.find? id.name = none → Trouble t (.ident id) (.unresolved id.name)
  | paren {e s err} : Trouble t e err → Trouble t (.paren e s) err
  | unary {op e s err} : Trouble t e err → Trouble t (.unary op e s) err
  | lhs {op l r s err} : Trouble t l err → Trouble t (.binary op l r s) err
  | rhs {op l r s err} : Trouble t r err → Trouble t (.binary op l r s) err
  | lhsType {op l r s ie} : op.isLogical = false → l.infer t = .error ie →
      Trouble t (.binary op l r s) (LowerError.ofInfer l.span ie).value
  | rhsType {op l r s ie} : op.isLogical = false → r.infer t = .error ie →
      Trouble t (.binary op l r s) (LowerError.ofInfer r.span ie).value
  | apart {op l r s lty rty b} : op.isLogical = false → l.infer t = .ok lty → r.infer t = .ok rty →
      lty.join rty = .error b → Trouble t (.binary op l r s) (.breach b)
  | joined {op l r s lty rty ty err} : op.isLogical = false → l.infer t = .ok lty →
      r.infer t = .ok rty → lty.join rty = .ok ty → ty.Trouble t err →
      Trouble t (.binary op l r s) err
  | cast {e ty s err} : ty.Trouble t err → Trouble t (.cast e ty s) err
  | operand {e ty s err} : Trouble t e err → Trouble t (.cast e ty s) err
  | callee {f args s err} : Trouble t f err → Trouble t (.call f args s) err
  | argument {f args s a err} : a ∈ args → Trouble t a err → Trouble t (.call f args s) err
  | object {o field arrow s err} : Trouble t o err → Trouble t (.member o field arrow s) err
  | member {o field arrow s ie} : (Expr.member o field arrow s).infer t = .error ie →
      Trouble t (.member o field arrow s) (LowerError.ofInfer s ie).value
  | memberType {o field arrow s ty err} : (Expr.member o field arrow s).infer t = .ok ty →
      ty.Trouble t err → Trouble t (.member o field arrow s) err

/-- Of an expression that was checked, all that can go wrong is a layout. -/
theorem Expr.TypedIn.not_naming {e : Expr} (he : e.TypedIn t) :
    ∀ err, e.Trouble t err → err.isNaming = false := by
  intro err h
  induction h with
  | literal hty | cast hty => exact hty.not_naming
  | joined _ _ _ _ hty => exact hty.not_naming
  | memberType _ hty => exact hty.not_naming
  | ident hnone =>
    obtain ⟨b, hb⟩ := he.ident
    simp [hnone] at hb
  | paren _ ih => exact ih he.paren
  | unary _ ih => exact ih he.unary
  | lhs _ ih => exact ih he.binary.1
  | rhs _ ih => exact ih he.binary.2.1
  | lhsType hop hinfer =>
    obtain ⟨l, r, ty, hl, -⟩ := he.binary.2.2 hop
    simp [hl] at hinfer
  | rhsType hop hinfer =>
    obtain ⟨l, r, ty, -, hr, -⟩ := he.binary.2.2 hop
    simp [hr] at hinfer
  | apart hop hl hr hjoin =>
    obtain ⟨l, r, ty, hl', hr', hty⟩ := he.binary.2.2 hop
    obtain rfl := Except.ok.inj (hl'.symm.trans hl)
    obtain rfl := Except.ok.inj (hr'.symm.trans hr)
    simp [hjoin] at hty
  | operand _ ih => exact ih he.cast
  | callee _ ih => exact ih he.call.1
  | argument ha _ ih => exact ih (he.call.2 _ ha)
  | object _ ih => exact ih he.member.1
  | member hinfer =>
    obtain ⟨ty, hty⟩ := he.member.2
    simp [hinfer] at hty

namespace Lowering

/-- From any state with the table `t`, `act` leaves `t`, whatever comes of it; what it gives
satisfies `Q`, and it fails only with an error that satisfies `E` or for what cannot be lowered at
all. -/
def Consults (E : LowerError → Prop) (t : ScopeTable Handle) (act : LowerM α) (Q : α → Prop) :
    Prop :=
  ∀ st, st.names = t → (outcome act st).2.names = t ∧
    match (outcome act st).1 with
    | .ok a => Q a
    | .error e => e.value.isLimit ∨ E e.value

variable {f : α → LowerM β}

section Consults

variable {E : LowerError → Prop} {t : ScopeTable Handle} {Q : α → Prop} {e : Expr}

namespace Consults

theorem pure {a : α} (h : Q a) : Consults E t (pure a) Q := fun _ ht => ⟨ht, h⟩

theorem bind {x : LowerM α} {R : β → Prop} (hx : Consults E t x Q)
    (hf : ∀ a, Q a → Consults E t (f a) R) : Consults E t (x >>= f) R := by
  intro st ht
  obtain ⟨ht₁, h₁⟩ := hx st ht
  rw [outcome_bind]
  generalize outcome x st = r at ht₁ h₁
  obtain ⟨r, st₁⟩ := r
  cases r with
  | error e => exact ⟨ht₁, h₁⟩
  | ok a => exact hf a h₁ st₁ ht₁

theorem mapM {as : List α} (hf : ∀ a ∈ as, Consults E t (f a) fun _ => True) :
    Consults E t (as.mapM f) fun _ => True := by
  induction as with
  | nil =>
    rw [List.mapM_nil]
    exact .pure trivial
  | cons a as ih =>
    rw [List.mapM_cons]
    refine (hf a List.mem_cons_self).bind fun _ _ => ?_
    exact (ih fun b hb => hf b (List.mem_cons_of_mem _ hb)).bind fun _ _ => .pure trivial

theorem unsupported {s : Span} {what : Unsupported} (h : what ≠ .illTyped) :
    Consults E t (unsupported s what : LowerM α) Q :=
  fun _ ht => ⟨ht, .inl (decide_eq_true h)⟩

theorem emitReg {op : Ir.Op} : Consults E t (emitReg op) fun _ => True :=
  fun _ ht => ⟨ht, trivial⟩

theorem emit {op : Ir.Op} {ty : Ir.Ty} : Consults E t (emit op ty) fun _ => True :=
  emitReg.bind fun _ _ => .pure trivial

theorem emitVoid {op : Ir.Op} : Consults E t (emitVoid op) fun _ => True :=
  fun _ ht => ⟨ht, trivial⟩

theorem freshBlock : Consults E t freshBlock fun _ => True := fun _ ht => ⟨ht, trivial⟩

theorem startBlock {id : Ir.BlockId} {label : String} :
    Consults E t (startBlock id label) fun _ => True :=
  fun _ ht => ⟨ht, trivial⟩

theorem terminate {term : Ir.Terminator} : Consults E t (terminate term) fun _ => True :=
  fun _ ht => ⟨ht, trivial⟩

theorem freshId : Consults E t freshId fun _ => True := fun _ ht => ⟨ht, trivial⟩

theorem get : Consults E t (get : LowerM State) fun _ => True := fun _ ht => ⟨ht, trivial⟩

theorem lookup {id : Ident} (h : ∀ err, (Expr.ident id).Trouble t err → E err) :
    Consults E t (lookup id) fun _ => True := by
  rintro st rfl
  rw [outcome_lookup]
  cases hb : st.names.find? id.name with
  | some b => exact ⟨rfl, trivial⟩
  | none => exact ⟨rfl, .inr (h _ (.ident hb))⟩

theorem lowerType {ty : Ty} {s : Span} (h : ∀ err, ty.Trouble t err → E err) :
    Consults E t (lowerType ty s) fun _ => True := by
  rintro st rfl
  rw [outcome_lowerType]
  split
  · exact ⟨rfl, trivial⟩
  · exact ⟨rfl, .inl rfl⟩
  · rename_i b hany hlower
    refine ⟨rfl, .inr (h _ ⟨b, hlower, ?_, rfl⟩)⟩
    rintro rfl
    exact hany rfl

theorem infer {e : Expr}
    (h : ∀ ie, e.infer t = .error ie → E (LowerError.ofInfer e.span ie).value) :
    Consults E t (infer e) fun ty => e.infer t = .ok ty := by
  rintro st rfl
  rw [outcome_infer]
  cases hty : e.infer st.names with
  | ok ty => exact ⟨rfl, rfl⟩
  | error ie => exact ⟨rfl, .inr (h ie hty)⟩

end Consults

theorem Plain.consults {act : LowerM α} (h : Plain act) : Consults E t act fun _ => True := by
  rintro st rfl
  cases hout : outcome act st with
  | mk r st' =>
    cases r with
    | ok a =>
      obtain ⟨code, rfl, -⟩ := h.runs hout
      exact ⟨rfl, trivial⟩
    | error e =>
      obtain ⟨hnames, what, hwhat, he⟩ := h.error hout
      refine ⟨hnames, .inl ?_⟩
      rw [he]
      exact decide_eq_true hwhat

theorem ident_consults {id : Ident} (h : ∀ err, (Expr.ident id).Trouble t err → E err) :
    Consults E t (ident id) fun _ => True := by
  refine (Consults.lookup h).bind fun handle _ => ?_
  cases handle with
  | slot ptr ty owner =>
    exact (computing_plain.ownedHere _ _).consults.bind fun _ _ =>
      (computing_plain.read _ _).consults
  | param reg ty owner =>
    exact (computing_plain.ownedHere _ _).consults.bind fun _ _ => .pure trivial
  | func name params ret variadic => exact .emit
  | struct ty => exact .unsupported (by decide)
  | member => exact .unsupported (by decide)
  | marker => exact .unsupported (by decide)

theorem identAddress_consults {id : Ident} (h : ∀ err, (Expr.ident id).Trouble t err → E err) :
    Consults E t (identAddress id) fun _ => True := by
  refine (Consults.lookup h).bind fun handle _ => ?_
  cases handle with
  | slot ptr ty owner | param reg ty owner =>
    dsimp only
    split
    · exact (computing_plain.ownedHere _ _).consults.bind fun _ _ => .pure trivial
    · exact .unsupported (by decide)
  | _ => exact .unsupported (by decide)

theorem joined_consults {l r : Ty} {s : Span} (h : ∀ b, l.join r = .error b → E (.breach b)) :
    Consults E t (joined l r s) fun ty => l.join r = .ok ty := by
  unfold joined
  split
  · rename_i hjoin
    exact .pure hjoin
  · rename_i b hjoin
    exact fun _ ht => ⟨ht, .inr (h b hjoin)⟩

theorem named?_consults {callee : Expr} (h : ∀ err, callee.Trouble t err → E err) :
    Consults E t (named? callee) fun _ => True := by
  cases callee with
  | ident id =>
    refine (Consults.lookup h).bind fun handle _ => ?_
    cases handle <;> exact .pure trivial
  | _ => exact .pure trivial

theorem callTarget_consults {callee : Expr} {value : LowerM Operand}
    (h : ∀ err, callee.Trouble t err → E err) (hv : Consults E t value fun _ => True) :
    Consults E t (callTarget callee value) fun _ => True := by
  refine (named?_consults h).bind fun target _ => ?_
  cases target with
  | some target => exact .pure trivial
  | none => exact hv.bind fun f _ => computing_plain.pointedTo.consults

theorem call_consults {callee : Expr} {value : LowerM Operand}
    {args : List Ir.Ty → Bool → LowerM (List Ir.Reg)} (h : ∀ err, callee.Trouble t err → E err)
    (hv : Consults E t value fun _ => True)
    (hargs : ∀ params variadic, Consults E t (args params variadic) fun _ => True) :
    Consults E t (call callee value args) fun _ => True := by
  refine (callTarget_consults h hv).bind fun target _ => ?_
  refine (hargs _ _).bind fun regs _ => ?_
  dsimp only
  split
  · exact Consults.emitVoid.bind fun _ _ => .pure trivial
  · exact Consults.emit.bind fun _ _ => .pure trivial

theorem memberAddress_consults {object : Expr} {field : Ident} {arrow : Bool} {s : Span}
    {value : LowerM Operand} {address : LowerM Ir.Reg}
    (h : ∀ err, (Expr.member object field arrow s).Trouble t err → E err)
    (hv : Consults E t value fun _ => True) (ha : Consults E t address fun _ => True) :
    Consults E t (memberAddress (.member object field arrow s) arrow value address)
      fun _ => True := by
  have hptr : Consults E t (bif arrow then value >>= (structPointer · s) else address)
      fun _ => True := by
    cases arrow with
    | true => exact hv.bind fun v _ => computing_plain.structPointer.consults
    | false => exact ha
  refine hptr.bind fun _ _ => (Consults.infer fun ie hie => h _ (.member hie)).bind fun ty hty => ?_
  refine (Consults.lowerType fun err herr => h err (.memberType hty herr)).bind fun _ _ => ?_
  exact Consults.emitReg.bind fun _ _ => .pure trivial

mutual

/-- Lowering an expression leaves the table, and only what it is made of and what cannot be lowered
at all can stop it. -/
theorem value_consults (e : Expr) (h : ∀ err, e.Trouble t err → E err) :
    Consults E t (value e) fun _ => True := by
  cases e with
  | literal v ty s =>
    unfold value
    exact (Consults.lowerType fun err he => h err (.literal he)).bind fun _ _ => .emit
  | ident id =>
    unfold value
    exact ident_consults h
  | paren inner s =>
    unfold value
    exact value_consults inner fun err he => h err (.paren he)
  | unary op operand s =>
    unfold value
    exact (value_consults operand fun err he => h err (.unary he)).bind
      fun _ _ => (computing_plain.unary _).consults
  | binary op lhs rhs s =>
    have hl := value_consults lhs fun err he => h err (.lhs he)
    have hr := value_consults rhs fun err he => h err (.rhs he)
    unfold value
    cases hop : op.isLogical with
    | true =>
      refine hl.bind fun _ _ => computing_plain.truthy.consults.bind fun _ _ => ?_
      exact hr.bind fun _ _ => computing_plain.truthy.consults.bind fun _ _ => .emit
    | false =>
      refine (Consults.infer fun ie hie => h _ (.lhsType hop hie)).bind fun l hlty => ?_
      refine (Consults.infer fun ie hie => h _ (.rhsType hop hie)).bind fun r hrty => ?_
      refine (joined_consults fun b hb => h _ (.apart hop hlty hrty hb)).bind fun ty hty => ?_
      refine (Consults.lowerType fun err he => h err (.joined hop hlty hrty hty he)).bind
        fun _ _ => hl.bind fun _ _ => (computing_plain.convert _).consults.bind fun _ _ => ?_
      exact hr.bind fun _ _ => (computing_plain.convert _).consults.bind fun _ _ =>
        (computing_plain.apply _ _ _ _).consults
  | cast operand ty s =>
    unfold value
    refine (Consults.lowerType fun err he => h err (.cast he)).bind fun _ _ => ?_
    exact (value_consults operand fun err he => h err (.operand he)).bind
      fun _ _ => (computing_plain.convert _).consults
  | call callee args s =>
    unfold value
    refine (call_consults (fun err he => h err (.callee he))
      (value_consults callee fun err he => h err (.callee he))
      fun params variadic => arguments_consults args params variadic
        fun a ha err he => h err (.argument ha he)).bind fun v _ => ?_
    cases v with
    | some v => exact .pure trivial
    | none => exact .unsupported (by decide)
  | member object field arrow s =>
    unfold value
    exact (memberAddress_consults h (value_consults object fun err he => h err (.object he))
      (address_consults object fun err he => h err (.object he))).bind
        fun _ _ => (computing_plain.read _ _).consults

theorem arguments_consults (es : List Expr) (params : List Ir.Ty) (variadic : Bool)
    (h : ∀ e ∈ es, ∀ err, e.Trouble t err → E err) :
    Consults E t (arguments params variadic es) fun _ => True := by
  cases es with
  | nil =>
    unfold arguments
    exact .pure trivial
  | cons e es =>
    unfold arguments
    refine (value_consults e (h e List.mem_cons_self)).bind fun _ _ => ?_
    refine (computing_plain.argument _ _).consults.bind fun _ _ => ?_
    refine (arguments_consults es params.tail variadic
      fun a ha => h a (List.mem_cons_of_mem _ ha)).bind fun _ _ => .pure trivial

theorem address_consults (e : Expr) (h : ∀ err, e.Trouble t err → E err) :
    Consults E t (address e) fun _ => True := by
  cases e with
  | paren inner s =>
    unfold address
    exact address_consults inner fun err he => h err (.paren he)
  | member object field arrow s =>
    unfold address
    exact (memberAddress_consults h (value_consults object fun err he => h err (.object he))
      (address_consults object fun err he => h err (.object he))).bind fun _ _ => .pure trivial
  | ident id =>
    unfold address
    exact identAddress_consults h
  | _ =>
    unfold address
    exact .unsupported (by decide)

end

theorem storeAs_consults {ptr : Ir.Reg} {ty : Ir.Ty} (h : ∀ err, e.Trouble t err → E err) :
    Consults E t (storeAs ptr ty e) fun _ => True := by
  refine Consults.bind (Q := fun _ => True) ?_ fun _ _ => .emitVoid
  exact (value_consults e h).bind fun _ _ => (computing_plain.convert _).consults

theorem assign_consults {target : Ident} (h : ∀ err, e.Trouble t err → E err)
    (ht : ∀ err, (Expr.ident target).Trouble t err → E err) :
    Consults E t (assign target e) fun _ => True := by
  refine (Consults.lookup ht).bind fun handle _ => ?_
  cases handle with
  | slot ptr ty owner =>
    exact (computing_plain.ownedHere _ _).consults.bind fun _ _ => storeAs_consults h
  | _ => exact .unsupported (by decide)

theorem assignMember_consults {target : Expr} (ht : ∀ err, target.Trouble t err → E err)
    (h : ∀ err, e.Trouble t err → E err) : Consults E t (assignMember target e) fun _ => True := by
  cases target with
  | member object field arrow s =>
    exact (memberAddress_consults ht (value_consults object fun err he => ht err (.object he))
      (address_consults object fun err he => ht err (.object he))).bind fun _ _ =>
      storeAs_consults h
  | _ => exact .unsupported (by decide)

theorem effect_consults (h : ∀ err, e.Trouble t err → E err) :
    Consults E t (effect e) fun _ => True := by
  unfold effect
  split
  · exact (call_consults (fun err he => h err (.callee he))
      (value_consults _ fun err he => h err (.callee he))
      fun params variadic => arguments_consults _ params variadic
        fun a ha err he => h err (.argument ha he)).bind fun _ _ => .pure trivial
  · exact (value_consults _ h).bind fun _ _ => .pure trivial

theorem return_consults {e : Option Expr} (h : ∀ a ∈ e, ∀ err, a.Trouble t err → E err) :
    Consults E t (return_ e) fun _ => True := by
  refine Consults.bind (Q := fun _ => True) ?_ fun _ _ => .terminate
  cases e with
  | none => exact .pure trivial
  | some e =>
    refine Consults.get.bind fun _ _ => Consults.bind (Q := fun _ => True) ?_ fun _ _ =>
      .pure trivial
    exact (value_consults e (h e rfl)).bind fun _ _ => (computing_plain.convert _).consults

theorem openIf_consults : Consults E t openIf fun _ => True := by
  refine Consults.freshBlock.bind fun _ _ => Consults.freshBlock.bind fun _ _ => ?_
  exact Consults.terminate.bind fun _ _ => Consults.startBlock.bind fun _ _ => .pure trivial

theorem openArm_consults {join : Ir.BlockId} {label : String} {cond : Expr} {more : Bool}
    (h : ∀ err, cond.Trouble t err → E err) :
    Consults E t (openArm join label cond more) fun _ => True := by
  refine (value_consults cond h).bind fun _ _ => computing_plain.truthy.consults.bind fun _ _ => ?_
  refine Consults.freshBlock.bind fun _ _ => Consults.bind (Q := fun _ => True) ?_ fun _ _ => ?_
  · cases more with
    | true => exact .freshBlock
    | false => exact .pure trivial
  · exact Consults.terminate.bind fun _ _ => Consults.startBlock.bind fun _ _ => .pure trivial

theorem reopen_consults : Consults E t reopen fun _ => True := by
  refine Consults.get.bind fun st _ => ?_
  split
  · exact Consults.freshBlock.bind fun _ _ => .startBlock
  · exact .pure trivial

theorem lowerParam_consults {p : Param} (h : ∀ err, p.ty.Trouble t err → E err) :
    Consults E t (lowerParam p) fun _ => True :=
  (Consults.lowerType h).bind fun _ _ => .pure trivial

end Consults

/-- From `st`, `act` gives what satisfies `Q`, or fails with an error that satisfies `E`. -/
def Safe (E : LowerError → Prop) (act : LowerM α) (st : State) (Q : α → State → Prop) : Prop :=
  match outcome act st with
  | (.ok a, st') => Q a st'
  | (.error e, _) => E e.value

namespace Safe

variable {E : LowerError → Prop} {st : State} {act : LowerM α} {Q : α → State → Prop}

section

variable (h : Safe E act st Q)

include h

theorem error {e : Located LowerError} {st' : State} (he : outcome act st = (.error e, st')) :
    E e.value := by
  rw [Safe, he] at h
  exact h

theorem runs {a : α} {st' : State} (hrun : Runs act st a st') : Q a st' := by
  rw [Safe, hrun] at h
  exact h

theorem mono {R : α → State → Prop} (hQ : ∀ a st', Q a st' → R a st') : Safe E act st R := by
  rw [Safe] at h ⊢
  split at h
  · exact hQ _ _ h
  · exact h

/-- What a successful run leads to may be said apart. -/
theorem of_runs {R : α → State → Prop} (hR : ∀ a st', Runs act st a st' → R a st') :
    Safe E act st R := by
  rw [Safe] at h ⊢
  split at h
  · rename_i a st' hrun
    exact hR a st' hrun
  · exact h

theorem bind {R : β → State → Prop} (hf : ∀ a st', Q a st' → Safe E (f a) st' R) :
    Safe E (act >>= f) st R := by
  rw [Safe, outcome_bind]
  rw [Safe] at h
  generalize outcome act st = r at h
  obtain ⟨r, st₁⟩ := r
  cases r with
  | error e => exact h
  | ok a => exact hf a st₁ h

end

theorem ofConsults (hE : ∀ err, err.isLimit → E err) {P : α → Prop}
    (h : Consults E st.names act P) : Safe E act st fun a st' => P a ∧ st'.names = st.names := by
  obtain ⟨hnames, hres⟩ := h st rfl
  rw [Safe]
  generalize outcome act st = r at hnames hres
  obtain ⟨r, st₁⟩ := r
  cases r with
  | error e => exact hres.elim (hE _) id
  | ok a => exact ⟨hres, hnames⟩

/-- Where a scope cannot be closed, that is the error. -/
theorem within {s : Span} {enter : ScopeTable Handle → ScopeTable Handle}
    {R : α → State → Prop} (h : Safe E act { st with names := enter st.names } Q)
    (hclosed : (outcome act { st with names := enter st.names }).2.names.leave? = none →
      E (.breach .rootScopeClosed))
    (hQ : ∀ a st₁ outer, Q a st₁ → st₁.names.leave? = some outer →
      R a { st₁ with names := outer }) : Safe E (within s enter act) st R := by
  rw [Safe, outcome_within]
  rw [Safe] at h
  generalize outcome act { st with names := enter st.names } = r at h hclosed
  obtain ⟨r, st₁⟩ := r
  cases hl : st₁.names.leave? with
  | none =>
    simp only [hl]
    exact hclosed hl
  | some outer =>
    simp only [hl]
    cases r with
    | error e => exact h
    | ok a => exact hQ a st₁ outer h hl

end Safe

end Lowering

end Frontend
