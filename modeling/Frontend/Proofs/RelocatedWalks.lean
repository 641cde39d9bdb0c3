import Frontend.Proofs.Checking
import Frontend.Proofs.Relocation
import Frontend.Proofs.Runs

/-!
The walks over a tree look at no span, they only pass spans on, so they commute with every function
that moves spans. In particular what they report stands at a span of the tree.
-/
namespace Frontend

namespace Check

variable {f : Span → Span}

theorem typeIn_relocate (t : ScopeTable Unit) (e : Expr) :
    typeIn t (e.relocate f) = relocated f id (typeIn t e) := by
  rw [typeIn, typeIn, Expr.infer_relocate, Expr.span_relocate]
  cases e.infer t with
  | ok ty => rfl
  | error err => exact congrArg Except.error (CheckError.ofInfer_relocate f e.span err)

theorem discard_typeIn_relocate (t : ScopeTable Unit) (e : Expr) :
    (discard (typeIn t (e.relocate f)) : Except (Located CheckError) Unit) =
      relocated f id (discard (typeIn t e)) := by
  rw [typeIn_relocate]
  cases typeIn t e <;> rfl

mutual

theorem expr_relocate (t : ScopeTable Unit) (e : Expr) :
    expr t (e.relocate f) = relocated f id (expr t e) := by
  match e with
  | .literal v ty s => rfl
  | .ident id => exact discard_typeIn_relocate t (.ident id)
  | .paren inner s =>
    simp only [Expr.relocate, expr, expr_relocate t inner]
    exact relocated_bind fun _ => discard_typeIn_relocate t (.paren inner s)
  | .unary op operand s =>
    simp only [Expr.relocate, expr, expr_relocate t operand]
    exact relocated_bind fun _ => discard_typeIn_relocate t (.unary op operand s)
  | .binary op lhs rhs s =>
    simp only [Expr.relocate, expr, expr_relocate t lhs, expr_relocate t rhs]
    refine relocated_bind fun _ => relocated_bind fun _ => ?_
    cases op.isLogical with
    | true => exact discard_typeIn_relocate t (.binary op lhs rhs s)
    | false =>
      simp only [typeIn_relocate, Expr.span_relocate]
      refine relocated_bind fun l => relocated_bind fun r => ?_
      cases hjoin : l.join r with
      | error b =>
        simp only [id_eq, hjoin]
        rfl
      | ok ty =>
        simp only [id_eq, hjoin]
        exact discard_typeIn_relocate t (.binary op lhs rhs s)
  | .cast operand ty s =>
    simp only [Expr.relocate, expr, expr_relocate t operand, typeIn_relocate]
    refine relocated_bind fun _ => relocated_bind fun actual => ?_
    simp only [id_eq]
    split <;> rfl
  | .call callee args s =>
    simp only [Expr.relocate, expr, expr_relocate t callee, exprs_relocate t args]
    exact relocated_bind fun _ => relocated_bind fun _ =>
      discard_typeIn_relocate t (.call callee args s)
  | .member object field arrow s =>
    simp only [Expr.relocate, expr, expr_relocate t object]
    exact relocated_bind fun _ => discard_typeIn_relocate t (.member object field arrow s)

theorem exprs_relocate (t : ScopeTable Unit) (es : List Expr) :
    exprs t (Expr.relocateAll f es) = relocated f id (exprs t es) := by
  match es with
  | [] => rfl
  | e :: es =>
    simp only [Expr.relocateAll, exprs, expr_relocate t e]
    exact relocated_bind fun _ => exprs_relocate t es

end

def State.relocate (f : Span → Span) (st : State) : State :=
  { st with warnings := st.warnings.map (·.relocate f) }

/-- From a state with its spans moved, `act'` does what `act` does, with the spans moved. -/
def Mirrors (f : Span → Span) (g : α → β) (act : CheckM α) (act' : CheckM β) : Prop :=
  ∀ st, outcome act' (st.relocate f) =
    (relocated f g (outcome act st).1, (outcome act st).2.relocate f)

namespace Mirrors

theorem pure {g : α → β} (a : α) : Mirrors f g (pure a) (pure (g a)) := fun _ => rfl

theorem fail {g : α → β} (s : Span) (e : CheckError) : Mirrors f g (fail s e) (fail (f s) e) :=
  fun _ => rfl

variable {g : α → β}

theorem bind {g' : γ → δ} {x : CheckM α} {x' : CheckM β} {k : α → CheckM γ} {k' : β → CheckM δ}
    (hx : Mirrors f g x x') (hk : ∀ a, Mirrors f g' (k a) (k' (g a))) :
    Mirrors f g' (x >>= k) (x' >>= k') := by
  intro st
  rw [outcome_bind, outcome_bind, hx st]
  cases hout : outcome x st with
  | mk r st₁ =>
    cases r with
    | error e => rfl
    | ok a => exact hk a st₁

/-- Names and return types, all that is asked of the state, stay. -/
theorem get_bind {k : State → CheckM α} {k' : State → CheckM β}
    (h : ∀ st, Mirrors f g (k st) (k' (st.relocate f))) : Mirrors f g (get >>= k) (get >>= k') :=
  fun st => h st st

theorem ofExcept {r : Except (Located CheckError) α} {r' : Except (Located CheckError) β}
    (h : r' = relocated f g r) :
    Mirrors f g (MonadExcept.ofExcept r) (MonadExcept.ofExcept r') := by
  intro st
  rw [outcome_ofExcept, outcome_ofExcept, h]

theorem ite {c : Prop} [Decidable c] {x y : CheckM α} {x' y' : CheckM β} (hx : c → Mirrors f g x x')
    (hy : ¬ c → Mirrors f g y y') : Mirrors f g (if c then x else y) (if c then x' else y') := by
  by_cases h : c
  · rw [if_pos h, if_pos h]
    exact hx h
  · rw [if_neg h, if_neg h]
    exact hy h

theorem declare (b : Binding Unit) : Mirrors f id (declare b) (declare b) := fun _ => rfl

theorem within {g : α → β} {x : CheckM α} {x' : CheckM β} (h : Mirrors f g x x') (s : Span)
    (enter : ScopeTable Unit → ScopeTable Unit) :
    Mirrors f g (within s enter x) (within (f s) enter x') := by
  intro st
  have hx := h { st with names := enter st.names }
  rw [outcome_within, outcome_within]
  generalize outcome x { st with names := enter st.names } = r at hx ⊢
  obtain ⟨r, st₁⟩ := r
  rw [show { st.relocate f with names := enter (st.relocate f).names } =
    State.relocate f { st with names := enter st.names } from rfl, hx]
  simp only [State.relocate]
  cases st₁.names.leave? <;> rfl

theorem returning {g : α → β} {x : CheckM α} {x' : CheckM β} (h : Mirrors f g x x') (ty : Ty) :
    Mirrors f g (returning ty x) (returning ty x') := by
  intro st
  have hx := h { st with returns := some ty }
  rw [outcome_returning, outcome_returning]
  generalize outcome x { st with returns := some ty } = r at hx ⊢
  obtain ⟨r, st₁⟩ := r
  rw [show { st.relocate f with returns := some ty } =
    State.relocate f { st with returns := some ty } from rfl, hx]
  rfl

end Mirrors

theorem checkExpr_mirrors (e : Expr) : Mirrors f id (checkExpr e) (checkExpr (e.relocate f)) :=
  .get_bind fun st => .ofExcept (expr_relocate st.names e)

theorem typeOf_mirrors (e : Expr) : Mirrors f id (typeOf e) (typeOf (e.relocate f)) :=
  .get_bind fun st => .ofExcept (typeIn_relocate st.names e)

theorem undeclared_mirrors (name : Ident) :
    Mirrors f id (undeclared name) (undeclared (name.relocate f)) :=
  .get_bind fun _ => .ite (fun _ => .fail name.span _) fun _ => .pure ()

theorem knownType_mirrors (ty : Ty) (s : Span) :
    Mirrors f id (knownType ty s) (knownType ty (f s)) := by
  unfold knownType
  cases ty.name? with
  | none => exact .pure ()
  | some name => exact .get_bind fun _ => .ite (fun _ => .pure ()) fun _ => .fail s _

theorem coerce_mirrors (expected : Ty) (e : Expr) (mismatch : Ty → Ty → CheckError) :
    Mirrors f (·.relocate f) (coerce expected e mismatch)
      (coerce expected (e.relocate f) mismatch) := by
  refine (typeOf_mirrors e).bind fun actual => ?_
  dsimp only [id]
  refine .ite (fun _ => .pure e) fun _ => ?_
  rw [Expr.coerce?_relocate_if]
  cases (if expected.compatible actual then e.coerce? expected else none) with
  | none =>
    dsimp only [Option.map_none]
    rw [Expr.span_relocate]
    exact .fail _ _
  | some e' =>
    dsimp only [Option.map_some]
    refine .ite (fun _ => ?_) fun _ => .pure e'
    have hwarn : Mirrors f id
        (modify fun st => { st with warnings := st.warnings ++
        [⟨e.span, .truncatedFloat expected⟩] })
        (modify fun st => { st with
          warnings := st.warnings ++ [⟨(e.relocate f).span, .truncatedFloat expected⟩] }) := by
      intro st
      have hmod : ∀ (g : State → State) st, outcome (modify g : CheckM Unit) st = (.ok (), g st) :=
        fun _ _ => rfl
      rw [hmod, hmod, Expr.span_relocate]
      simp [State.relocate, Located.relocate]
    exact hwarn.bind fun _ => .pure e'

theorem declareParam_mirrors (p : Param) :
    Mirrors f id (declareParam p) (declareParam (p.relocate f)) :=
  (undeclared_mirrors p.name).bind fun _ =>
    (knownType_mirrors p.ty p.name.span).bind fun _ => .declare _

theorem declareParams_mirrors (ps : List Param) :
    Mirrors f id (ps.forM declareParam) ((ps.map (·.relocate f)).forM declareParam) := by
  induction ps with
  | nil => exact .pure ()
  | cons p ps ih =>
    simp only [List.map_cons, List.forM_eq_forM, List.forM_cons]
    exact (declareParam_mirrors p).bind fun _ => ih

theorem signature_mirrors (sig : Signature) (isExternal : Bool) :
    Mirrors f id (signature sig isExternal) (signature (sig.relocate f) isExternal) :=
  (undeclared_mirrors sig.name).bind fun _ =>
    (knownType_mirrors sig.ret sig.name.span).bind fun _ => .declare _

theorem initializer_mirrors (name : Ident) (ty : Ty) (init : Option Expr) :
    Mirrors f (·.map (·.relocate f)) (initializer name ty init)
      (initializer (name.relocate f) ty (init.map (·.relocate f))) := by
  cases init with
  | none => exact .pure none
  | some e =>
    refine (checkExpr_mirrors e).bind fun _ => (typeOf_mirrors e).bind fun actual => ?_
    dsimp only [id]
    rw [Expr.span_relocate]
    refine .ite (fun _ => (Mirrors.fail (g := id) _ _).bind ?_) fun _ => ?_
    · exact fun _ => (coerce_mirrors ty e _).bind fun e' => .pure (some e')
    · exact (coerce_mirrors ty e _).bind fun e' => .pure (some e')

theorem returned_mirrors (s : Span) (e : Option Expr) :
    Mirrors f (·.map (·.relocate f)) (returned s e) (returned (f s) (e.map (·.relocate f))) := by
  refine .get_bind fun st => ?_
  dsimp only [State.relocate]
  cases st.returns with
  | none => exact .fail s _
  | some expected =>
    cases e with
    | none => exact .ite (fun _ => .pure none) fun _ => .fail s _
    | some e =>
      have hcoerce : Mirrors f (·.map (·.relocate f))
          (coerce expected e .invalidReturn >>= fun e' => pure (some e'))
          (coerce expected (e.relocate f) .invalidReturn >>= fun e' => pure (some e')) :=
        (coerce_mirrors expected e _).bind fun e' => .pure (some e')
      refine (checkExpr_mirrors e).bind fun _ => .ite (fun _ => ?_) fun _ => hcoerce
      refine (typeOf_mirrors e).bind fun actual => ?_
      rw [Expr.span_relocate]
      exact (Mirrors.fail (g := id) _ _).bind fun _ => hcoerce

mutual

theorem stmt_mirrors (s : Stmt) : Mirrors f (·.relocate f) (stmt s) (stmt (s.relocate f)) := by
  match s with
  | .varDef name ty init s =>
    simp only [Stmt.relocate, stmt]
    exact (undeclared_mirrors name).bind fun _ => (knownType_mirrors ty name.span).bind fun _ =>
      (initializer_mirrors name ty init).bind fun init' => (Mirrors.declare _).bind fun _ =>
        .pure (Stmt.varDef name ty init' s)
  | .structDef name members s =>
    simp only [Stmt.relocate, stmt]
    exact (undeclared_mirrors name).bind fun _ => .get_bind fun st =>
      ((declareParams_mirrors members).within s _).bind fun _ => (Mirrors.declare _).bind fun _ =>
        .pure (Stmt.structDef name members s)
  | .fnDef sig body s =>
    simp only [Stmt.relocate, stmt]
    exact (signature_mirrors sig false).bind fun _ =>
      ((((declareParams_mirrors sig.params).bind fun _ => stmts_mirrors body).within s _).returning
        sig.ret).bind fun body' => .pure (Stmt.fnDef sig body' s)
  | .fnDecl sig s =>
    simp only [Stmt.relocate, stmt]
    exact (signature_mirrors sig true).bind fun _ =>
      ((declareParams_mirrors sig.params).within s _).bind fun _ => .pure (Stmt.fnDecl sig s)
  | .varSet target value s =>
    simp only [Stmt.relocate, stmt]
    refine .get_bind fun st => ?_
    dsimp only [State.relocate, Ident.relocate]
    cases st.names.find? target.name with
    | none => exact .fail target.span _
    | some b =>
      exact (checkExpr_mirrors value).bind fun _ => (coerce_mirrors b.ty value _).bind fun value' =>
        .pure (Stmt.varSet target value' s)
  | .memberSet target value s =>
    simp only [Stmt.relocate, stmt]
    exact (checkExpr_mirrors target).bind fun _ => (typeOf_mirrors target).bind fun expected =>
      (checkExpr_mirrors value).bind fun _ => (coerce_mirrors expected value _).bind fun value' =>
        .pure (Stmt.memberSet target value' s)
  | .expr e s =>
    simp only [Stmt.relocate, stmt]
    exact (checkExpr_mirrors e).bind fun _ => .pure (Stmt.expr e s)
  | .return_ value s =>
    simp only [Stmt.relocate, stmt]
    exact (returned_mirrors s value).bind fun value' => .pure (Stmt.return_ value' s)
  | .break_ s =>
    simp only [Stmt.relocate, stmt]
    exact .pure (Stmt.break_ s)
  | .for_ cond body s =>
    simp only [Stmt.relocate, stmt]
    exact (checkExpr_mirrors cond).bind fun _ => ((stmts_mirrors body).within s _).bind fun body' =>
      .pure (Stmt.for_ cond body' s)
  | .if_ cond body otherwise s =>
    simp only [Stmt.relocate, stmt]
    exact (checkExpr_mirrors cond).bind fun _ => ((stmts_mirrors body).within s _).bind fun body' =>
      (alternative_mirrors s otherwise).bind fun otherwise' =>
        .pure (Stmt.if_ cond body' otherwise' s)
  | .block body s =>
    simp only [Stmt.relocate, stmt]
    exact ((stmts_mirrors body).within s _).bind fun body' => .pure (Stmt.block body' s)

theorem alternative_mirrors (s : Span) (a : Alternative) :
    Mirrors f (·.relocate f) (alternative s a) (alternative (f s) (a.relocate f)) := by
  match a with
  | .none =>
    simp only [Alternative.relocate, alternative]
    exact .pure Alternative.none
  | .else_ body =>
    simp only [Alternative.relocate, alternative]
    exact ((stmts_mirrors body).within s _).bind fun body' => .pure (Alternative.else_ body')
  | .elif cond body otherwise =>
    simp only [Alternative.relocate, alternative]
    exact (checkExpr_mirrors cond).bind fun _ => ((stmts_mirrors body).within s _).bind fun body' =>
      (alternative_mirrors s otherwise).bind fun otherwise' =>
        .pure (Alternative.elif cond body' otherwise')

theorem stmts_mirrors (ss : List Stmt) :
    Mirrors f (Stmt.relocateAll f) (stmts ss) (stmts (Stmt.relocateAll f ss)) := by
  match ss with
  | [] =>
    simp only [Stmt.relocateAll, stmts]
    exact .pure []
  | s :: ss =>
    simp only [Stmt.relocateAll, stmts]
    exact (stmt_mirrors s).bind fun s' => (stmts_mirrors ss).bind fun ss' => .pure (s' :: ss')

end

end Check

/-- Checking commutes with moving spans. -/
theorem Program.check_relocate (f : Span → Span) (p : Program) :
    Program.check (Stmt.relocateAll f p) =
      relocated f (fun (q, ws) => (Stmt.relocateAll f q, ws.map (·.relocate f))) p.check := by
  have hrun : (Check.stmts (Stmt.relocateAll f p)).run Check.State.start =
      (relocated f (Stmt.relocateAll f) ((Check.stmts p).run Check.State.start).1,
        ((Check.stmts p).run Check.State.start).2.relocate f) :=
    Check.stmts_mirrors p .start
  rw [Program.check, hrun, Program.check]
  generalize (Check.stmts p).run Check.State.start = out
  obtain ⟨r, st⟩ := out
  cases r <;> rfl

/-- What the check refuses stands at a span of the program. -/
theorem Program.span_mem_of_check_eq_error {p : Program} {e : Located CheckError}
    (h : p.check = .error e) : e.span ∈ Stmt.allSpans p := by
  refine Span.mem_of_fixed fun f hf => ?_
  have hmoved := p.check_relocate f
  rw [(Stmt.relocateAll_eq_self p).mpr hf, h] at hmoved
  exact (congrArg Located.span (Except.error.inj hmoved)).symm

/-- The checked program has no span that the program has not, nor have the warnings. -/
theorem Program.spans_of_check_eq_ok {p q : Program} {ws : List (Located Warning)}
    (h : p.check = .ok (q, ws)) :
    (∀ s ∈ Stmt.allSpans q, s ∈ Stmt.allSpans p) ∧ ∀ w ∈ ws, w.span ∈ Stmt.allSpans p := by
  have hkept : ∀ f : Span → Span, (∀ s ∈ Stmt.allSpans p, f s = s) →
      Stmt.relocateAll f q = q ∧ ws.map (·.relocate f) = ws := by
    intro f hf
    have hmoved := p.check_relocate f
    rw [(Stmt.relocateAll_eq_self p).mpr hf, h] at hmoved
    obtain ⟨hq, hws⟩ := Prod.mk.inj (Except.ok.inj hmoved)
    exact ⟨hq.symm, hws.symm⟩
  refine ⟨fun s hs => Span.mem_of_fixed fun f hf => ?_,
    fun w hw => Span.mem_of_fixed fun f hf => ?_⟩
  · exact (Stmt.relocateAll_eq_self q).mp (hkept f hf).1 s hs
  · have hkept' := (hkept f hf).2.trans (List.map_id ws).symm
    exact congrArg Located.span (List.map_inj_left.mp hkept' w hw)

namespace Lowering

variable {f : Span → Span}

/-- The step with the spans of its errors moved. -/
def moving (f : Span → Span) (act : LowerM α) : LowerM α :=
  ExceptT.mk fun st => (relocated f id (outcome act st).1, (outcome act st).2)

theorem outcome_moving (act : LowerM α) (st : State) : outcome (moving f act) st =
    (relocated f id (outcome act st).1, (outcome act st).2) := rfl

theorem moving_congr {x y : LowerM α}
    (h : ∀ st, outcome y st = (relocated f id (outcome x st).1, (outcome x st).2)) :
    moving f x = y :=
  funext fun st => (h st).symm

@[simp] theorem moving_pure (a : α) : moving f (pure a) = pure a := rfl

@[simp] theorem moving_bind (x : LowerM α) (k : α → LowerM β) :
    moving f (x >>= k) = moving f x >>= fun a => moving f (k a) := by
  refine moving_congr fun st => ?_
  rw [outcome_bind, outcome_bind, outcome_moving]
  cases outcome x st with
  | mk r st₁ => cases r <;> rfl

@[simp] theorem moving_map (g : α → β) (x : LowerM α) :
    moving f (g <$> x) = g <$> moving f x := by
  simp only [map_eq_pure_bind, moving_bind, moving_pure]

@[simp] theorem moving_get : moving f (get : LowerM State) = get := rfl

@[simp] theorem moving_modify (g : State → State) : moving f (modify g) = modify g := rfl

variable (s : Span) (op : Ir.Op) (ty : Ir.Ty) (label : String) (e : Expr) (v : Operand)

@[simp] theorem moving_unsupported (what : Unsupported) :
    (moving f (unsupported s what) : LowerM α) = unsupported (f s) what := rfl

@[simp] theorem moving_ite (c : Prop) [Decidable c] (x y : LowerM α) :
    moving f (if c then x else y) = if c then moving f x else moving f y := by
  split <;> rfl

@[simp] theorem moving_cond (c : Bool) (x y : LowerM α) :
    moving f (bif c then x else y) = bif c then moving f x else moving f y := by
  cases c <;> rfl

@[simp] theorem moving_emitReg : moving f (emitReg op) = emitReg op := rfl

@[simp] theorem moving_emit : moving f (emit op ty) = emit op ty := rfl

@[simp] theorem moving_emitVoid : moving f (emitVoid op) = emitVoid op := rfl

@[simp] theorem moving_freshBlock : moving f freshBlock = freshBlock := rfl

@[simp] theorem moving_startBlock (id : Ir.BlockId) :
    moving f (startBlock id label) = startBlock id label := rfl

@[simp] theorem moving_terminate (t : Ir.Terminator) : moving f (terminate t) = terminate t := rfl

@[simp] theorem moving_bindName (b : Binding Handle) : moving f (bind b) = bind b := rfl

@[simp] theorem moving_addFunc (fn : Ir.Func) : moving f (addFunc fn) = addFunc fn := rfl

@[simp] theorem moving_freshId : moving f freshId = freshId := rfl

@[simp] theorem moving_functionName (base : String) :
    moving f (functionName base) = functionName base := rfl

@[simp] theorem moving_within (s : Span) (enter : ScopeTable Handle → ScopeTable Handle)
    (act : LowerM α) : moving f (within s enter act) = within (f s) enter (moving f act) := by
  refine moving_congr fun st => ?_
  rw [outcome_within, outcome_within, outcome_moving]
  generalize outcome act { st with names := enter st.names } = out
  obtain ⟨r, st₁⟩ := out
  dsimp only
  cases st₁.names.leave? <;> rfl

@[simp] theorem moving_inScope (act : LowerM α) :
    moving f (inScope s act) = inScope (f s) (moving f act) :=
  moving_within s _ act

@[simp] theorem moving_inFunction (b : Ir.Builder) (act : LowerM α) :
    moving f (inFunction s b act) = inFunction (f s) b (moving f act) := by
  refine moving_congr fun st => ?_
  rw [outcome_inFunction, outcome_inFunction, outcome_moving]
  generalize outcome act _ = out
  obtain ⟨r, st₁⟩ := out
  dsimp only
  cases st₁.enclosing <;> rfl

@[simp] theorem moving_lookup (id : Ident) : moving f (lookup id) = lookup (id.relocate f) := by
  refine moving_congr fun st => ?_
  rw [outcome_lookup, outcome_lookup, Ident.relocate]
  cases st.names.find? id.name <;> rfl

@[simp] theorem moving_ownedHere (owner : Nat) :
    moving f (ownedHere owner s) = ownedHere owner (f s) := by
  simp [ownedHere]

@[simp] theorem moving_lowerType (ty : Ty) : moving f (lowerType ty s) = lowerType ty (f s) := by
  refine moving_congr fun st => ?_
  rw [outcome_lowerType, outcome_lowerType]
  split <;> rfl

@[simp] theorem moving_lowerParam (p : Param) :
    moving f (lowerParam p) = lowerParam (p.relocate f) := by
  simp [lowerParam, Param.relocate, Ident.relocate]

@[simp] theorem moving_infer : moving f (infer e) = infer (e.relocate f) := by
  refine moving_congr fun st => ?_
  rw [outcome_infer, outcome_infer, Expr.infer_relocate, Expr.span_relocate]
  cases e.infer st.names with
  | ok ty => rfl
  | error err => simp [Except.mapError, LowerError.ofInfer_relocate]

@[simp] theorem moving_read (ptr : Ir.Reg) : moving f (read ptr ty) = read ptr ty := by
  simp [read]

@[simp] theorem moving_truthy : moving f (truthy v s) = truthy v (f s) := by
  simp [truthy]

@[simp] theorem moving_convert (target : Ir.Ty) :
    moving f (convert v target s) = convert v target (f s) := by
  simp only [convert, moving_ite, moving_pure, moving_truthy]
  cases conversion? v target <;> simp

@[simp] theorem moving_ident (id : Ident) : moving f (ident id) = ident (id.relocate f) := by
  simp only [ident, moving_bind, moving_lookup]
  congr 1
  funext h
  cases h <;> simp [Ident.relocate]

@[simp] theorem moving_identAddress (id : Ident) :
    moving f (identAddress id) = identAddress (id.relocate f) := by
  simp only [identAddress, moving_bind, moving_lookup]
  congr 1
  funext h
  cases h <;> simp [Ident.relocate]

@[simp] theorem moving_unary (op : UnaryOp) : moving f (unary op v s) = unary op v (f s) := by
  cases op with
  | deref =>
    simp only [unary]
    cases v.ty.pointee? <;> simp
  | _ => simp [unary]

@[simp] theorem moving_apply (op : BinaryOp) (l r : Ir.Reg) :
    moving f (apply op ty l r s) = apply op ty l r (f s) := by
  simp only [apply]
  cases binaryOp op ty l r <;> rfl

@[simp] theorem moving_joined (l r : Ty) : moving f (joined l r s) = joined l r (f s) := by
  simp only [joined]
  cases l.join r <;> rfl

@[simp] theorem moving_named? : moving f (named? e) = named? (e.relocate f) := by
  cases e with
  | ident id =>
    simp only [named?, Expr.relocate, moving_bind, moving_lookup]
    congr 1
    funext h
    cases h <;> rfl
  | _ => rfl

@[simp] theorem moving_pointedTo : moving f (pointedTo v s) = pointedTo v (f s) := by
  simp only [pointedTo]
  cases v.ty <;> rfl

@[simp] theorem moving_callTarget (callee : Expr) (value : LowerM Operand) :
    moving f (callTarget callee value) = callTarget (callee.relocate f) (moving f value) := by
  simp only [callTarget, moving_bind, moving_named?]
  congr 1
  funext target
  cases target <;> simp

@[simp] theorem moving_call (callee : Expr) (value : LowerM Operand)
    (args : List Ir.Ty → Bool → LowerM (List Ir.Reg)) :
    moving f (call callee value args) =
      call (callee.relocate f) (moving f value)
        fun params variadic => moving f (args params variadic) := by
  simp [call]

@[simp] theorem moving_argument (param : Option Ir.Ty) (variadic : Bool) :
    moving f (argument param variadic v s) = argument param variadic v (f s) := by
  cases param <;> simp [argument]

@[simp] theorem moving_structPointer : moving f (structPointer v s) = structPointer v (f s) := by
  simp [structPointer]

@[simp] theorem moving_memberAddress (whole : Expr) (arrow : Bool) (value : LowerM Operand)
    (address : LowerM Ir.Reg) : moving f (memberAddress whole arrow value address) =
      memberAddress (whole.relocate f) arrow (moving f value) (moving f address) := by
  simp [memberAddress]

mutual

theorem moving_value (e : Expr) : moving f (value e) = value (e.relocate f) := by
  match e with
  | .literal v ty s => simp [value, Expr.relocate]
  | .ident id => simp [value, Expr.relocate]
  | .paren inner s => simp [value, Expr.relocate, moving_value inner]
  | .unary op operand s => simp [value, Expr.relocate, moving_value operand]
  | .binary op lhs rhs s => simp [value, Expr.relocate, moving_value lhs, moving_value rhs]
  | .cast operand ty s => simp [value, Expr.relocate, moving_value operand]
  | .call callee args s =>
    simp only [value, Expr.relocate, moving_bind, moving_call, moving_value callee,
      moving_arguments args]
    congr 1
    funext v
    cases v <;> rfl
  | .member object field arrow s =>
    simp [value, Expr.relocate, moving_value object, moving_address object]

theorem moving_arguments (es : List Expr) (params : List Ir.Ty) (variadic : Bool) :
    moving f (arguments params variadic es) =
      arguments params variadic (Expr.relocateAll f es) := by
  match es with
  | [] => rfl
  | e :: es =>
    simp [arguments, Expr.relocateAll, moving_value e, moving_arguments es]

theorem moving_address (e : Expr) : moving f (address e) = address (e.relocate f) := by
  match e with
  | .paren inner s => simp [address, Expr.relocate, moving_address inner]
  | .member object field arrow s =>
    simp [address, Expr.relocate, moving_value object, moving_address object]
  | .ident id => simp [address, Expr.relocate]
  | .literal _ _ _ | .unary _ _ _ | .binary _ _ _ _ | .cast _ _ _ | .call _ _ _ => rfl

end

attribute [local simp] moving_value moving_arguments moving_address

@[simp] theorem moving_valueAs (target : Ir.Ty) :
    moving f (valueAs target e) = valueAs target (e.relocate f) := by
  simp [valueAs]

@[simp] theorem moving_storeAs (ptr : Ir.Reg) :
    moving f (storeAs ptr ty e) = storeAs ptr ty (e.relocate f) := by
  simp [storeAs]

theorem moving_forM (act : β → LowerM PUnit) (as : List β) :
    moving f (forM as act) = forM as fun a => moving f (act a) := by
  induction as with
  | nil => rfl
  | cons a as ih => simp only [List.forM_cons, moving_bind, ih]

theorem moving_mapM (act : β → LowerM γ) (as : List β) :
    moving f (as.mapM act) = as.mapM fun a => moving f (act a) := by
  induction as with
  | nil => rfl
  | cons a as ih => simp only [List.mapM_cons, moving_bind, moving_pure, ih]

@[simp] theorem moving_variable (name : Ident) (ty : Ty) (init : Option Expr) :
    moving f (variable_ name ty init) =
      variable_ (name.relocate f) ty (init.map (·.relocate f)) := by
  cases init <;> simp [variable_, Ident.relocate, Option.forM]

@[simp] theorem moving_assign (target : Ident) :
    moving f (assign target e) = assign (target.relocate f) (e.relocate f) := by
  simp only [assign, moving_bind, moving_lookup]
  congr 1
  funext h
  cases h <;> simp [Ident.relocate]

@[simp] theorem moving_assignMember (target : Expr) :
    moving f (assignMember target e) = assignMember (target.relocate f) (e.relocate f) := by
  cases target <;> simp [assignMember, Expr.relocate, Expr.span, Ident.relocate]

@[simp] theorem moving_effect : moving f (effect e) = effect (e.relocate f) := by
  cases e <;> simp [effect, Expr.relocate]

@[simp] theorem moving_return (e : Option Expr) :
    moving f (return_ e) = return_ (e.map (·.relocate f)) := by
  cases e <;> simp [return_, returned]

@[simp] theorem moving_struct (name : Ident) (members : List Param) :
    moving f (struct_ name members s) =
      struct_ (name.relocate f) (members.map (·.relocate f)) (f s) := by
  simp only [struct_, moving_bind, moving_mapM, moving_get, moving_within, moving_lowerType,
    moving_pure, List.forM_eq_forM, moving_forM, moving_bindName, moving_modify]
  simp [List.mapM_map, Param.relocate, Ident.relocate, Function.comp_def]

@[simp] theorem moving_signature (sig : Signature) (isExternal : Bool) :
    moving f (signature sig isExternal) = signature (sig.relocate f) isExternal := by
  simp [signature, moving_mapM, Signature.relocate, Ident.relocate, Signature.ty, List.mapM_map,
    Function.comp_def]

@[simp] theorem moving_bindParams (ps : List Param) (tys : List Ir.Ty) (owner : Nat) :
    moving f (bindParams ps tys owner) = bindParams (ps.map (·.relocate f)) tys owner := by
  simp only [bindParams, List.forM_eq_forM, moving_forM, List.zip_map_left, List.forM_map]
  rfl

@[simp] theorem moving_openIf : moving f openIf = openIf := rfl

@[simp] theorem moving_openArm (join : Ir.BlockId) (cond : Expr) (more : Bool) :
    moving f (openArm join label cond more) = openArm join label (cond.relocate f) more := by
  simp [openArm, elseTarget]

@[simp] theorem moving_arm (join : Ir.BlockId) (cond : Expr) (body : LowerM Unit)
    (otherwise : Option (Ir.BlockId → LowerM Unit)) :
    moving f (arm join label cond body otherwise) = arm join label (cond.relocate f)
      (moving f body) (otherwise.map fun act here => moving f (act here)) := by
  cases otherwise <;> simp [arm]

@[simp] theorem moving_reopen : moving f reopen = reopen := by
  simp [reopen]

mutual

theorem moving_stmt (s : Stmt) : moving f (stmt s) = stmt (s.relocate f) := by
  match s with
  | .varDef name ty init s => simp [stmt, Stmt.relocate]
  | .structDef name members s => simp [stmt, Stmt.relocate]
  | .fnDef sig body s =>
    simp [stmt, Stmt.relocate, moving_stmts body, Signature.relocate]
  | .fnDecl sig s => simp [stmt, Stmt.relocate, Signature.relocate]
  | .varSet target e s => simp [stmt, Stmt.relocate]
  | .memberSet target e s => simp [stmt, Stmt.relocate]
  | .expr e s => simp [stmt, Stmt.relocate]
  | .return_ e s => simp [stmt, Stmt.relocate]
  | .break_ s => rfl
  | .for_ cond body s => rfl
  | .if_ cond body otherwise s =>
    simp [stmt, Stmt.relocate, moving_stmts body, moving_alternative otherwise]
  | .block body s => simp [stmt, Stmt.relocate, moving_stmts body]

theorem moving_alternative (a : Alternative) (s : Span) (join : Ir.BlockId) :
    (alternative s join a).map (fun act here => moving f (act here)) =
      alternative (f s) join (a.relocate f) := by
  match a with
  | .none => rfl
  | .else_ body => simp [alternative, Alternative.relocate, moving_stmts body]
  | .elif cond body otherwise =>
    simp [alternative, Alternative.relocate, moving_stmts body, moving_alternative otherwise]

theorem moving_stmts (ss : List Stmt) : moving f (stmts ss) = stmts (Stmt.relocateAll f ss) := by
  match ss with
  | [] => rfl
  | s :: ss => simp [stmts, Stmt.relocateAll, moving_stmt s, moving_stmts ss]

end

theorem moving_topLevel (ss : List Stmt) :
    moving f (topLevel ss) = topLevel (Stmt.relocateAll f ss) := by
  induction ss with
  | nil => rfl
  | cons s ss ih => simp [topLevel, Stmt.relocateAll, moving_stmt, ih]

end Lowering

theorem Stmt.all_isDefinition_relocateAll (f : Span → Span) (ss : List Stmt) :
    (Stmt.relocateAll f ss).all Stmt.isDefinition = ss.all Stmt.isDefinition := by
  induction ss with
  | nil => rfl
  | cons s ss ih =>
    rw [Stmt.relocateAll, List.all_cons, List.all_cons, ih]
    cases s <;> rfl

/-- Lowering commutes with moving spans: the module has none. -/
theorem Program.lower_relocate (f : Span → Span) (p : Program) (moduleName : String) :
    Program.lower (Stmt.relocateAll f p) moduleName = relocated f id (p.lower moduleName) := by
  have hrun : (Lowering.topLevel (Stmt.relocateAll f p)).run (.start moduleName) =
      (relocated f id ((Lowering.topLevel p).run (.start moduleName)).1,
        ((Lowering.topLevel p).run (.start moduleName)).2) := by
    rw [← Lowering.moving_topLevel]
    rfl
  rw [Program.lower, hrun, Program.lower, Stmt.all_isDefinition_relocateAll]
  generalize (Lowering.topLevel p).run (.start moduleName) = out
  obtain ⟨r, st⟩ := out
  cases r <;> rfl

/-- What cannot be lowered stands at a span of the program. -/
theorem Program.span_mem_of_lower_eq_error {p : Program} {moduleName : String}
    {e : Located LowerError} (h : p.lower moduleName = .error e) : e.span ∈ Stmt.allSpans p := by
  refine Span.mem_of_fixed fun f hf => ?_
  have hmoved := p.lower_relocate f moduleName
  rw [(Stmt.relocateAll_eq_self p).mpr hf, h] at hmoved
  exact (congrArg Located.span (Except.error.inj hmoved)).symm

end Frontend
