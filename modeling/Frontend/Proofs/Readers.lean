import Frontend.Proofs.Numbering
import Frontend.Proofs.Positions

/-!
Readers and the scopes that they open. Every reader leaves the end of its tokens and closes the
scopes that it opens, of which there are no more than tokens taken; so there is always a scope to
return to. Whatever else a reader takes for granted holds as well: it fails only with what is
reported.
-/
namespace Frontend

/-- Where `x` fails, the error is as `P` says. -/
def FailsWith (P : ε → Prop) (x : Except ε α) : Prop := ∀ e, x = .error e → P e

namespace FailsWith

variable {P : ε → Prop} {x : Except ε α}

theorem ok {a : α} : FailsWith P (.ok a) := nofun

theorem error {e : ε} (h : P e) : FailsWith P (.error e : Except ε α) := by
  rintro _ ⟨⟩
  exact h

theorem bind {f : α → Except ε β} (hx : FailsWith P x) (hf : ∀ a, FailsWith P (f a)) :
    FailsWith P (x >>= f) := by
  cases x with
  | ok a => exact hf a
  | error e => exact .error (hx e rfl)

theorem mapError {ε' : Type} {Q : ε' → Prop} {f : ε → ε'} (hx : FailsWith P x)
    (hf : ∀ e, P e → Q (f e)) : FailsWith Q (x.mapError f) := by
  cases x with
  | ok a => exact .ok
  | error e => exact .error (hf e (hx e rfl))

end FailsWith

/-- The promises that a pass takes for granted. Of one that is broken no error is made. -/
def Breach.isPanic : Breach → Bool
  | .incompatibleJoin _ _ | .negativeLevels | .missingLayout _ => false
  | .rootScopeClosed | .noFunction | .notPrimitive _ | .noOperand | .notInfix | .tooWide => true

def InferError.isPanic : InferError → Bool
  | .breach b => b.isPanic
  | _ => false

def ParseError.isPanic : ParseError → Bool
  | .breach b => b.isPanic
  | _ => false

/-- Types that do not go together are reported. -/
theorem Ty.join_fails (l r : Ty) : FailsWith (·.isPanic = false) (l.join r) := by
  simp only [Ty.join]
  repeat' split
  all_goals first | exact .ok | exact .error rfl

theorem UnaryOp.infer_fails (op : UnaryOp) (ty : Ty) :
    FailsWith (·.isPanic = false) (op.infer ty) := by
  cases op <;> simp only [UnaryOp.infer] <;> try split
  all_goals first | exact .ok | exact .error rfl

theorem BinaryOp.infer_fails (op : BinaryOp) (l r : Ty) :
    FailsWith (·.isPanic = false) (op.infer l r) := by
  rw [BinaryOp.infer]
  split
  · exact .ok
  · exact (l.join_fails r).mapError fun _ h => h

/-- What keeps an expression from having a type is reported. -/
theorem Expr.infer_fails {V : Type} (t : ScopeTable V) (e : Expr) :
    FailsWith (·.isPanic = false) (e.infer t) := by
  match e with
  | .literal _ ty _ | .cast _ ty _ =>
    rw [Expr.infer]
    exact .ok
  | .ident id =>
    rw [Expr.infer]
    split
    · exact .ok
    · exact .error rfl
  | .paren inner _ =>
    rw [Expr.infer]
    exact infer_fails t inner
  | .unary op operand _ =>
    rw [Expr.infer]
    exact (infer_fails t operand).bind fun ty => op.infer_fails ty
  | .binary op lhs rhs _ =>
    rw [Expr.infer]
    exact (infer_fails t lhs).bind fun l => (infer_fails t rhs).bind fun r => op.infer_fails l r
  | .call callee _ _ =>
    rw [Expr.infer]
    refine (infer_fails t callee).bind fun ty => ?_
    split
    · exact .ok
    · exact .error rfl
  | .member object field arrow _ =>
    rw [Expr.infer]
    refine (infer_fails t object).bind fun ty => ?_
    split
    · exact .error rfl
    · split
      · exact .ok
      · exact .error rfl

namespace Grammar

/-- What is read is as `P` says. Reading may fail, but only with what is reported. -/
def Meets (P : α → Prop) : Parse α → Prop
  | .ok a => P a
  | .error e => e.value.isPanic = false

abbrev Sane (x : Parse α) : Prop := Meets (fun _ => True) x

theorem Meets.of_eq_ok {P : α → Prop} {x : Parse α} {a : α} (h : Meets P x) (hx : x = .ok a) :
    P a := by
  subst hx
  exact h

theorem Meets.bind {P : α → Prop} {Q : β → Prop} {x : Parse α} {f : α → Parse β} (hx : Meets P x)
    (hf : ∀ a, P a → Meets Q (f a)) : Meets Q (x >>= f) := by
  cases x with
  | ok a => exact hf a hx
  | error e => exact hx

section Expressions

theorem expect_meets (env : Env) (k : Kind) (ts : List Token) :
    Meets (fun r => r.rest <:+ ts) (expect env k ts) := by
  rw [expect]
  cases h : accept? k ts with
  | some s => exact accept?_rest h
  | none => rfl

theorem identifier_meets (env : Env) (ts : List Token) :
    Meets (fun r => r.rest <:+ ts) (identifier env ts) := by
  cases ts with
  | nil => rfl
  | cons t ts =>
    obtain ⟨lexeme, s⟩ := t
    cases lexeme with
    | identifier name => exact List.suffix_cons _ ts
    | _ => rfl

theorem typeExpr_meets (eof : Span) (ts : List Token) :
    Meets (fun r => r.rest <:+ ts) (typeExpr eof ts) := by
  induction ts with
  | nil => rfl
  | cons t ts ih =>
    rw [typeExpr]
    split
    · exact ih.bind fun r hr => hr.trans (List.suffix_cons t ts)
    · exact List.suffix_cons t ts
    · split
      · exact ih.bind fun r hr => hr.trans (List.suffix_cons t ts)
      · exact List.suffix_cons t ts
    · split
      · rename_i base hbase
        obtain ⟨p, rfl⟩ := Keyword.base?_eq_prim hbase
        exact List.suffix_cons t ts
      · rfl
    · rfl

theorem returnType_meets (eof : Span) (ts : List Token) :
    Meets (fun r => r.rest <:+ ts) (returnType eof ts) := by
  rw [returnType]
  split
  · exact (typeExpr_meets eof ts).bind fun r hr => hr
  · exact List.suffix_rfl

theorem infer_meets (env : Env) (e : Expr) : Sane (infer env e) := by
  rw [infer]
  cases h : e.infer env.scopes with
  | ok ty => trivial
  | error err =>
    have hpanic := e.infer_fails env.scopes err h
    cases err <;> exact hpanic

theorem castTail_sane (eof : Span) (e : Expr) (ts : List Token) : Sane (castTail eof e ts) := by
  rw [castTail]
  split
  · trivial
  · rename_i mark _
    refine (typeExpr_meets eof mark.rest).bind fun ty _ => ?_
    have hlt := ty.lt_trans mark.lt
    exact (castTail_sane eof _ ty.rest).bind fun _ _ => trivial
termination_by ts.length

mutual

theorem exprAt_sane (env : Env) (level : Nat) (ts : List Token) : Sane (exprAt env level ts) := by
  rw [exprAt]
  refine (operand_sane env ts).bind fun lhs _ => ?_
  have hlt := lhs.lt
  exact (binaryTail_sane env level lhs.value lhs.rest).bind fun _ _ => trivial
termination_by 4 * ts.length + 2

theorem binaryTail_sane (env : Env) (level : Nat) (lhs : Expr) (ts : List Token) :
    Sane (binaryTail env level lhs ts) := by
  match ts with
  | [] =>
    rw [binaryTail]
    trivial
  | t :: ts =>
    rw [binaryTail_cons]
    split
    · trivial
    · rename_i op _
      split
      · refine (exprAt_sane env (op.level + 1) ts).bind fun rhs _ => ?_
        have hlt := rhs.lt
        exact (binaryTail_sane env level _ rhs.rest).bind fun _ _ => trivial
      · trivial
termination_by 4 * ts.length
decreasing_by
  all_goals simp only [List.length_cons]
  all_goals omega

theorem operand_sane (env : Env) (ts : List Token) : Sane (operand env ts) := by
  rw [operand]
  obtain ⟨signs, ts₁, h₁⟩ := operators signOp? ts
  dsimp only
  obtain ⟨marks, ts₂, h₂⟩ := operators addressOp? ts₁
  refine (primary_sane env ts₂).bind fun head _ => ?_
  have hlt := head.lt
  refine (postfixTail_sane env head.value head.rest).bind fun e _ => ?_
  exact (castTail_sane env.eof _ e.rest).bind fun _ _ => trivial
termination_by 4 * ts.length + 1

theorem primary_sane (env : Env) (ts : List Token) : Sane (primary env ts) := by
  match ts with
  | [] =>
    rw [primary]
    rfl
  | t :: ts =>
    rw [primary]
    split
    case h_2 => split <;> trivial
    case h_6 =>
      refine (exprAt_sane env 0 ts).bind fun e _ => ?_
      exact (expect_meets env _ e.rest).bind fun _ _ => trivial
    all_goals trivial
termination_by 4 * ts.length
decreasing_by
  all_goals simp only [List.length_cons]
  all_goals omega

theorem postfixTail_sane (env : Env) (e : Expr) (ts : List Token) :
    Sane (postfixTail env e ts) := by
  rw [postfixTail]
  split
  · rename_i mark _
    have hlt := mark.lt
    refine (arguments_sane env mark.rest).bind fun args _ => ?_
    refine (expect_meets env _ args.rest).bind fun close _ => ?_
    have hlt' := args.lt
    have hlt'' := close.lt
    exact (postfixTail_sane env _ close.rest).bind fun _ _ => trivial
  · split
    · rename_i mark _
      refine (identifier_meets env mark.rest).bind fun field _ => ?_
      have hlt := field.lt_trans mark.lt
      exact (postfixTail_sane env _ field.rest).bind fun _ _ => trivial
    · trivial
termination_by 4 * ts.length

theorem arguments_sane (env : Env) (ts : List Token) : Sane (arguments env ts) := by
  rw [arguments]
  split
  · trivial
  · refine (exprAt_sane env 0 ts).bind fun e _ => ?_
    have hlt := e.lt
    split
    · rename_i comma _
      have hlt' := comma.lt
      exact (arguments_sane env comma.rest).bind fun _ _ => trivial
    · split
      · trivial
      · rfl
termination_by 4 * ts.length + 3

end

theorem expr_meets (env : Env) (ts : List Token) :
    Meets (fun r => r.rest <:+ ts) (expr env ts) := by
  have h := exprAt_sane env 0 ts
  cases hr : expr env ts with
  | ok r => exact expr_rest ⟨r, hr, rfl, rfl⟩
  | error e =>
    rw [expr] at hr
    rwa [hr] at h

end Expressions

/-- What is left of the tokens is their end. The scopes that were opened are closed again, and they
are no more than the tokens that were taken. -/
structure Balanced (t : Names) (ts : List Token) (t' : Names) (rest : List Token) : Prop where
  suffix : rest <:+ ts
  grows : t.Grows (ts.length - rest.length) t'

namespace Balanced

variable {t t' t₁ opened : Names} {ts mid rest : List Token}

theorem skip (t : Names) (h : rest <:+ ts) : Balanced t ts t rest :=
  ⟨h, (ScopeTable.Grows.refl t).mono (Nat.zero_le _)⟩

theorem trans (h : Balanced t ts t' mid) (h' : Balanced t' mid t₁ rest) :
    Balanced t ts t₁ rest := by
  refine ⟨h'.suffix.trans h.suffix, (h.grows.trans h'.grows).mono ?_⟩
  have := h.suffix.length_le
  have := h'.suffix.length_le
  omega

theorem add (t : Names) (name : String) (ty : Ty) (h : rest <:+ ts) :
    Balanced t ts (t.add (.plain name ty ())) rest :=
  ⟨h, (ScopeTable.Grows.add t (by simp)).mono (Nat.zero_le _)⟩

/-- The token that closes a scope pays for it. -/
theorem leave (h : Balanced opened ts t₁ mid) (ho : t.Opens opened) (hrest : rest <:+ mid)
    (hlt : rest.length < mid.length) : Balanced t ts { t₁ with current := t.current } rest := by
  refine ⟨hrest.trans h.suffix, (h.grows.leave ho).mono ?_⟩
  have := h.suffix.length_le
  omega

theorem struct {b : Binding Unit} (h : Balanced opened ts t₁ mid) (ho : t.Opens opened)
    (hb : b.scope = some t.size) (hrest : rest <:+ mid) (hlt : rest.length < mid.length) :
    Balanced t ts (({ t₁ with current := t.current } : Names).add b) rest := by
  refine ⟨hrest.trans h.suffix, (h.grows.struct ho hb).mono ?_⟩
  have := h.suffix.length_le
  omega

/-- There is a scope to return to. -/
theorem leave_eq (h : Balanced opened ts t₁ mid) (ho : t.Opens opened) (s : Span) :
    Grammar.leave s t₁ = .ok { t₁ with current := t.current } := by
  rw [Grammar.leave, h.grows.leave?_eq ho]

end Balanced

section Statements

theorem param_meets (env : Env) (ts : List Token) :
    Meets (fun r => r.rest <:+ ts) (param env ts) := by
  refine (identifier_meets env ts).bind fun name hname => ?_
  refine (expect_meets env _ name.rest).bind fun colon hcolon => ?_
  refine (typeExpr_meets env.eof colon.rest).bind fun ty hty => ?_
  exact hty.trans (hcolon.trans hname)

theorem members_meets (env : Env) (ts : List Token) :
    Meets (fun r => Balanced env.scopes ts r.value.2 r.rest) (members env ts) := by
  rw [members]
  split
  · exact .skip _ List.suffix_rfl
  · refine (param_meets env ts).bind fun p hp => ?_
    refine (expect_meets env _ p.rest).bind fun semi hsemi => ?_
    have hlt := semi.lt_trans p.lt
    refine (members_meets _ semi.rest).bind fun r hr => ?_
    exact (Balanced.add env.scopes p.value.name.name p.value.ty (hsemi.trans hp)).trans hr
termination_by ts.length

theorem params_meets (env : Env) (ts : List Token) :
    Meets (fun r => Balanced env.scopes ts r.value.2.2 r.rest) (params env ts) := by
  rw [params]
  split
  · exact .skip _ List.suffix_rfl
  · split
    · rename_i dots hdots
      exact .skip _ (accept?_rest hdots)
    · refine (param_meets env ts).bind fun p hp => ?_
      have hadd : ∀ {rest}, rest <:+ p.rest →
          Balanced env.scopes ts (env.add p.value.name.name p.value.ty).scopes rest :=
        fun h => .add env.scopes p.value.name.name p.value.ty (h.trans hp)
      dsimp only
      split
      · exact hadd List.suffix_rfl
      · rename_i comma hcomma
        have hlt := comma.lt_trans p.lt
        exact (params_meets _ comma.rest).bind fun r hr => (hadd (accept?_rest hcomma)).trans hr
termination_by ts.length

theorem paramList_meets (env : Env) (ts : List Token) :
    Meets (fun r => Balanced env.scopes ts r.value.2.2 r.rest) (paramList env ts) := by
  rw [paramList]
  split
  · exact .skip _ List.suffix_rfl
  · rename_i mark hmark
    refine (params_meets env mark.rest).bind fun r hr => ?_
    refine (expect_meets env _ r.rest).bind fun close hclose => ?_
    exact (Balanced.skip _ (accept?_rest hmark)).trans (hr.trans (.skip _ hclose))

theorem structDef_meets (env : Env) (name : Ident) (ts : List Token) :
    Meets (fun r => Balanced env.scopes ts r.value.2 r.rest) (structDef env name ts) := by
  refine (expect_meets env _ ts).bind fun mark hmark => ?_
  refine (members_meets _ mark.rest).bind fun ms hms => ?_
  refine (expect_meets env _ ms.rest).bind fun close hclose => ?_
  have hopens := ScopeTable.Opens.enterMarked env.scopes (membersMarker name.name) ()
  rw [hms.leave_eq hopens]
  exact (Balanced.skip _ hmark).trans (hms.struct hopens rfl hclose close.lt)

theorem initializer_meets (env : Env) (ts : List Token) :
    Meets (fun r => r.rest <:+ ts) (varDef.initializer env ts) := by
  rw [varDef.initializer]
  split
  · exact List.suffix_rfl
  · rename_i mark hmark
    exact (expr_meets env mark.rest).bind fun e he => he.trans (accept?_rest hmark)

theorem varDef_meets (env : Env) (name : Ident) (ts : List Token) :
    Meets (fun r => Balanced env.scopes ts r.value.2 r.rest) (varDef env name ts) := by
  refine (typeExpr_meets env.eof ts).bind fun ty hty => ?_
  refine (initializer_meets env ty.rest).bind fun init hinit => ?_
  refine (expect_meets env _ init.rest).bind fun semi hsemi => ?_
  exact .add env.scopes name.name ty.value.1 (hsemi.trans (hinit.trans hty))

theorem quickDef_meets (env : Env) (name : Ident) (ts : List Token) :
    Meets (fun r => Balanced env.scopes ts r.value.2 r.rest) (quickDef env name ts) := by
  refine (expr_meets env ts).bind fun e he => ?_
  refine (infer_meets env e.value).bind fun ty _ => ?_
  refine (expect_meets env _ e.rest).bind fun semi hsemi => ?_
  exact .add env.scopes name.name ty (hsemi.trans he)

theorem assigned_meets (env : Env) (target : Ident) (value : Expr) :
    Meets (fun _ => True) (assigned env target value) := by
  rw [assigned]
  split
  · rfl
  · refine (infer_meets env value).bind fun actual _ => ?_
    dsimp only
    split
    · trivial
    · split
      · trivial
      · rfl

theorem assignment_meets (env : Env) (target value : Expr) :
    Meets (fun _ => True) (assignment env target value) := by
  cases target with
  | ident id => exact (assigned_meets env id value).bind fun _ _ => trivial
  | member object field arrow s => trivial
  | _ => rfl

theorem exprStmt_meets (env : Env) (ts : List Token) :
    Meets (fun r => r.rest <:+ ts) (exprStmt env ts) := by
  refine (expr_meets env ts).bind fun target htarget => ?_
  dsimp only
  split
  · exact (expect_meets env _ target.rest).bind fun semi hsemi => hsemi.trans htarget
  · rename_i mark hmark
    refine (expr_meets env mark.rest).bind fun value hvalue => ?_
    refine (assignment_meets env target.value value.value).bind fun make _ => ?_
    refine (expect_meets env _ value.rest).bind fun semi hsemi => ?_
    exact hsemi.trans (hvalue.trans ((accept?_rest hmark).trans htarget))

theorem returnStmt_meets (env : Env) (start : Span) (ts : List Token) :
    Meets (fun r => r.rest <:+ ts) (returnStmt env start ts) := by
  rw [returnStmt]
  split
  · rename_i semi hsemi
    exact accept?_rest hsemi
  · refine (expr_meets env ts).bind fun e he => ?_
    exact (expect_meets env _ e.rest).bind fun semi hsemi => hsemi.trans he

mutual

theorem stmt_meets (env : Env) (ts : List Token) :
    Meets (fun r => Balanced env.scopes ts r.value.2 r.rest) (stmt env ts) := by
  unfold stmt
  split
  · exact (structDef_meets env _ _).bind fun r hr => (Balanced.skip _ ⟨[_, _, _], rfl⟩).trans hr
  · exact (fnDef_meets env _ _).bind fun r hr => (Balanced.skip _ ⟨[_, _, _], rfl⟩).trans hr
  · exact (varDef_meets env _ _).bind fun r hr => (Balanced.skip _ ⟨[_, _], rfl⟩).trans hr
  · exact (quickDef_meets env _ _).bind fun r hr => (Balanced.skip _ ⟨[_, _], rfl⟩).trans hr
  · exact (returnStmt_meets env _ _).bind fun r hr => .skip _ (hr.trans (List.suffix_cons _ _))
  · exact (expect_meets env _ _).bind fun semi hsemi => .skip _ (hsemi.trans (List.suffix_cons _ _))
  · refine (expr_meets env _).bind fun cond hcond => ?_
    have hlt := cond.lt
    refine (block_meets env cond.rest).bind fun body hbody => ?_
    exact (Balanced.skip _ (hcond.trans (List.suffix_cons _ _))).trans hbody
  · refine (expr_meets env _).bind fun cond hcond => ?_
    have hlt := cond.lt
    refine (block_meets env cond.rest).bind fun body hbody => ?_
    have hlt' := body.lt
    refine (alternative_meets _ _ body.rest).bind fun alt halt => ?_
    exact (Balanced.skip _ (hcond.trans (List.suffix_cons _ _))).trans (hbody.trans halt)
  · exact (blockTail_meets env _).bind fun body hbody =>
      (Balanced.skip _ (List.suffix_cons _ _)).trans hbody
  · exact (exprStmt_meets env _).bind fun r hr => .skip _ hr
termination_by 3 * ts.length
decreasing_by
  all_goals subst_vars
  all_goals simp only [List.length_cons]
  all_goals omega

theorem fnDef_meets (env : Env) (name : Ident) (ts : List Token) :
    Meets (fun r => Balanced env.scopes ts r.value.2 r.rest) (fnDef env name ts) := by
  unfold fnDef
  refine (returnType_meets env.eof ts).bind fun ret hret => ?_
  have hself := Balanced.add env.scopes name.name (.fn ret.value 0) hret
  refine (paramList_meets _ ret.rest).bind fun ps hps => ?_
  dsimp only
  split
  · rename_i semi hsemi
    rw [hps.leave_eq (.enter _)]
    exact hself.trans (hps.leave (.enter _) (accept?_rest hsemi) semi.lt)
  · refine (expect_meets _ _ ps.rest).bind fun mark hmark => ?_
    have hlt := ret.lt
    have hlt' := ps.lt
    have hlt'' := mark.lt
    refine (stmts_meets _ mark.rest).bind fun body hbody => ?_
    refine (expect_meets _ _ body.rest).bind fun close hclose => ?_
    have hinside := hps.trans ((Balanced.skip _ hmark).trans hbody)
    rw [hinside.leave_eq (.enter _)]
    exact hself.trans (hinside.leave (.enter _) hclose close.lt)
termination_by 3 * ts.length

theorem alternative_meets (env : Env) (last : Span) (ts : List Token) :
    Meets (fun r => Balanced env.scopes ts r.value.2.2 r.rest) (alternative env last ts) := by
  unfold alternative
  split
  · refine (expr_meets env _).bind fun cond hcond => ?_
    have hlt := cond.lt
    refine (block_meets env cond.rest).bind fun body hbody => ?_
    have hlt' := body.lt
    refine (alternative_meets _ _ body.rest).bind fun alt halt => ?_
    exact (Balanced.skip _ (hcond.trans (List.suffix_cons _ _))).trans (hbody.trans halt)
  · exact (block_meets env _).bind fun body hbody =>
      (Balanced.skip _ (List.suffix_cons _ _)).trans hbody
  · exact .skip _ List.suffix_rfl
termination_by 3 * ts.length
decreasing_by
  all_goals subst_vars
  all_goals simp only [List.length_cons]
  all_goals omega

theorem block_meets (env : Env) (ts : List Token) :
    Meets (fun r => Balanced env.scopes ts r.value.2.2 r.rest) (block env ts) := by
  unfold block
  refine (expect_meets env _ ts).bind fun mark hmark => ?_
  have hlt := mark.lt
  exact (blockTail_meets env mark.rest).bind fun r hr => (Balanced.skip _ hmark).trans hr
termination_by 3 * ts.length

theorem blockTail_meets (env : Env) (ts : List Token) :
    Meets (fun r => Balanced env.scopes ts r.value.2.2 r.rest) (blockTail env ts) := by
  unfold blockTail
  refine (stmts_meets _ ts).bind fun body hbody => ?_
  refine (expect_meets env _ body.rest).bind fun close hclose => ?_
  rw [hbody.leave_eq (.enter _)]
  exact hbody.leave (.enter _) hclose close.lt
termination_by 3 * ts.length + 2

theorem stmts_meets (env : Env) (ts : List Token) :
    Meets (fun r => Balanced env.scopes ts r.value.2 r.rest) (stmts env ts) := by
  unfold stmts
  split
  · exact .skip _ List.suffix_rfl
  · refine (stmt_meets env ts).bind fun s hs => ?_
    have hlt := s.lt
    exact (stmts_meets _ s.rest).bind fun r hr => hs.trans hr
termination_by 3 * ts.length + 1

end

theorem program_meets (env : Env) (ts : List Token) : Meets (fun _ => True) (program env ts) := by
  match ts with
  | [] =>
    unfold program
    trivial
  | t :: ts =>
    unfold program
    split
    · refine (stmt_meets env (t :: ts)).bind fun s _ => ?_
      have hlt := s.lt
      exact (program_meets _ s.rest).bind fun _ _ => trivial
    · rfl
termination_by ts.length
decreasing_by exact hlt

end Statements

end Grammar

end Frontend
