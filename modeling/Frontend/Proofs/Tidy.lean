import Frontend.Proofs.Balance
import Frontend.Proofs.Obligations
import Frontend.Proofs.Readers

/-!
The walks over a program that was read, which check and lower it, close every scope that they open,
also where they fail. A walk opens no more scopes than what it walks over weighs, so there is always
one to return to, and what else it takes for granted holds as well: it fails only with what is
reported.
-/
namespace Frontend

/-- From `st`, whatever comes of `act`: it opens at most `n` scopes and closes all of them, and none
of what `panics` is its error. -/
structure Tidy {ε σ V : Type} (names : σ → ScopeTable V) (panics : ε → Bool) (n : Nat)
    (act : ExceptT (Located ε) (StateM σ) α) (st : σ) : Prop where
  grows : (names st).Grows n (names (outcome act st).2)
  fails : FailsWith (fun e => panics e.value = false) (outcome act st).1

namespace Tidy

variable {ε σ V : Type} {names : σ → ScopeTable V} {panics : ε → Bool} {n m : Nat} {st : σ}
  {act : ExceptT (Located ε) (StateM σ) α}

theorem mono (h : Tidy names panics n act st) (hle : n ≤ m) : Tidy names panics m act st :=
  ⟨h.grows.mono hle, h.fails⟩

theorem runs (h : Tidy names panics n act st) {a : α} {st' : σ} (hrun : Runs act st a st') :
    (names st).Grows n (names st') := by
  have hgrows := h.grows
  rwa [hrun] at hgrows

/-- Where the table stays as it is. -/
theorem of_names_eq (hnames : names (outcome act st).2 = names st)
    (hfails : FailsWith (fun e => panics e.value = false) (outcome act st).1) :
    Tidy names panics 0 act st :=
  ⟨hnames ▸ .refl _, hfails⟩

theorem pure {a : α} : Tidy names panics 0 (pure a) st := .of_names_eq rfl .ok

theorem throw {e : Located ε} (h : panics e.value = false) :
    Tidy names panics 0 (throw e : ExceptT (Located ε) (StateM σ) α) st :=
  .of_names_eq rfl (.error h)

theorem ofExcept {r : Except (Located ε) α} (h : FailsWith (fun e => panics e.value = false) r) :
    Tidy names panics 0 (MonadExcept.ofExcept r) st := by
  refine .of_names_eq ?_ ?_
  · rw [outcome_ofExcept]
  · rwa [outcome_ofExcept]

theorem modify {f : σ → σ} (h : (names st).Grows n (names (f st))) :
    Tidy names panics n (modify f : ExceptT (Located ε) (StateM σ) Unit) st :=
  ⟨h, .ok⟩

theorem get_bind {f : σ → ExceptT (Located ε) (StateM σ) α} (h : Tidy names panics n (f st) st) :
    Tidy names panics n (get >>= f) st :=
  ⟨h.grows, h.fails⟩

theorem bind {f : α → ExceptT (Located ε) (StateM σ) β} (h : Tidy names panics n act st)
    (hf : ∀ a st₁, Runs act st a st₁ → Tidy names panics m (f a) st₁) :
    Tidy names panics (n + m) (act >>= f) st := by
  obtain ⟨hgrows, hfails⟩ := h
  cases hact : outcome act st with
  | mk r st₁ =>
    rw [hact] at hgrows hfails
    cases r with
    | ok a =>
      have hnext := hf a st₁ hact
      have hrun : outcome (act >>= f) st = outcome (f a) st₁ := by rw [outcome_bind, hact]
      exact ⟨hrun ▸ hgrows.trans hnext.grows, hrun ▸ hnext.fails⟩
    | error e =>
      have hrun : outcome (act >>= f) st = (.error e, st₁) := by rw [outcome_bind, hact]
      exact ⟨hrun ▸ hgrows.mono (Nat.le_add_right n m), hrun ▸ .error (hfails e rfl)⟩

/-- The state stays, or it may change, but for the table. -/
theorem then_ {f : α → ExceptT (Located ε) (StateM σ) β} (h : Tidy names panics 0 act st)
    (hf : ∀ a st₁, Runs act st a st₁ → Tidy names panics n (f a) st₁) :
    Tidy names panics n (act >>= f) st :=
  (h.bind hf).mono (Nat.le_of_eq (Nat.zero_add n))

section Within

variable {whole : ExceptT (Located ε) (StateM σ) α} {inside : σ} (close : σ → ScopeTable V → σ)
  (hopens : (names st).Opens (names inside)) (h : Tidy names panics n act inside)
  (hwhole : ∀ outer, (names (outcome act inside).2).leave? = some outer →
    outcome whole st = ((outcome act inside).1, close (outcome act inside).2 outer))

include hopens h hwhole

/-- A step in a scope of its own finds that scope there when it is to be closed. -/
theorem outcome_within : outcome whole st = ((outcome act inside).1, close (outcome act inside).2
    { names (outcome act inside).2 with current := (names st).current }) :=
  hwhole _ (h.grows.leave?_eq hopens)

variable (hclose : ∀ st₁ outer, names (close st₁ outer) = outer)

include hclose

theorem within : Tidy names panics (n + 1) whole st := by
  have hrun := outcome_within close hopens h hwhole
  refine ⟨?_, ?_⟩
  · rw [hrun, hclose]
    exact h.grows.leave hopens
  · rw [hrun]
    exact h.fails

/-- The scope is still there. -/
theorem lt_size_within {a : α} {st' : σ} (hrun : Runs whole st a st') :
    (names st).size < (names st').size := by
  rw [Runs, outcome_within close hopens h hwhole] at hrun
  have hnames := congrArg (fun r : Except (Located ε) α × σ => (names r.2).size) hrun
  simp only [hclose] at hnames
  have hopened := hopens.size
  have hgrown := h.grows.older
  have : (names (outcome act inside).2).size = (names st').size := hnames
  omega

end Within

end Tidy

def CheckError.isPanic : CheckError → Bool
  | .breach b => b.isPanic
  | _ => false

namespace Check

theorem typeIn_reported (t : ScopeTable Unit) (e : Expr) :
    FailsWith (·.value.isPanic = false) (typeIn t e) :=
  (e.infer_fails t).mapError fun err h => by cases err <;> exact h

theorem expr_reported (t : ScopeTable Unit) (e : Expr) :
    FailsWith (·.value.isPanic = false) (expr t e) := by
  intro err h
  obtain ⟨e', he⟩ | ⟨l, r, he⟩ := expr_fails t e _ h
  · exact typeIn_reported t e' err he
  · rw [he]
    rfl

/-- No scope that a checking step opens is left open, and there is one around it. -/
abbrev Clean (n : Nat) (act : CheckM α) (st : State) : Prop :=
  Tidy State.names CheckError.isPanic n act st

section Steps

variable {st : State}

variable {s : Span} {act : CheckM α}

theorem fail_clean {e : CheckError} (h : e.isPanic = false) :
    Clean 0 (fail s e : CheckM α) st := .throw h

theorem checkExpr_clean (e : Expr) : Clean 0 (checkExpr e) st :=
  .get_bind (.ofExcept (expr_reported _ e))

theorem typeOf_clean (e : Expr) : Clean 0 (typeOf e) st :=
  .get_bind (.ofExcept (typeIn_reported _ e))

theorem undeclared_clean (name : Ident) : Clean 0 (undeclared name) st := by
  refine .get_bind ?_
  split
  · exact fail_clean rfl
  · exact .pure

theorem knownType_clean (ty : Ty) (s : Span) : Clean 0 (knownType ty s) st := by
  unfold knownType
  split
  · refine .get_bind ?_
    split
    · exact .pure
    · exact fail_clean rfl
  · exact .pure

theorem declare_clean {b : Binding Unit} (h : ∀ n ∈ b.scope, n < st.names.size) :
    Clean 0 (declare b) st :=
  .modify (.add _ h)

theorem coerce_clean {expected : Ty} {e : Expr} {mismatch : Ty → Ty → CheckError}
    (h : ∀ ty ty', (mismatch ty ty').isPanic = false) :
    Clean 0 (coerce expected e mismatch) st := by
  refine (typeOf_clean e).then_ fun actual st₁ _ => ?_
  split
  · exact .pure
  · split
    · split
      · exact (Tidy.modify (.refl _)).then_ fun _ _ _ => .pure
      · exact .pure
    · exact fail_clean (h _ _)

theorem declareParam_clean (p : Param) : Clean 0 (declareParam p) st := by
  refine (undeclared_clean p.name).then_ fun _ _ _ => ?_
  exact (knownType_clean p.ty p.name.span).then_ fun _ _ _ => declare_clean (by simp)

theorem declareParams_clean (ps : List Param) (st : State) : Clean 0 (ps.forM declareParam) st := by
  induction ps generalizing st with
  | nil => exact .pure
  | cons p ps ih => exact (declareParam_clean p).then_ fun _ st₁ _ => ih st₁

theorem initializer_clean (name : Ident) (ty : Ty) (init : Option Expr) :
    Clean 0 (initializer name ty init) st := by
  cases init with
  | none => exact .pure
  | some e =>
    refine (checkExpr_clean e).then_ fun _ _ _ => (typeOf_clean e).then_ fun actual _ _ => ?_
    split
    · exact (fail_clean rfl).then_ fun _ _ _ => (coerce_clean fun _ _ => rfl).then_ fun _ _ _ =>
        .pure
    · exact (coerce_clean fun _ _ => rfl).then_ fun _ _ _ => .pure

theorem returned_clean (s : Span) (value : Option Expr) : Clean 0 (returned s value) st := by
  refine .get_bind ?_
  split
  · exact fail_clean rfl
  · split
    · exact .pure
    · exact fail_clean rfl
  · rename_i e _
    refine (checkExpr_clean e).then_ fun _ _ _ => ?_
    split
    · refine (typeOf_clean e).then_ fun _ _ _ => ?_
      exact (fail_clean rfl).then_ fun _ _ _ => (coerce_clean fun _ _ => rfl).then_ fun _ _ _ =>
        .pure
    · exact (coerce_clean fun _ _ => rfl).then_ fun _ _ _ => .pure

theorem signature_clean (sig : Signature) (isExternal : Bool) :
    Clean 0 (signature sig isExternal) st := by
  refine (undeclared_clean sig.name).then_ fun _ _ _ => ?_
  exact (knownType_clean sig.ret sig.name.span).then_ fun _ _ _ => declare_clean (by simp)

section Within

variable {n : Nat} {act : CheckM α} {s : Span} (enter : ScopeTable Unit → ScopeTable Unit)
  (hopens : st.names.Opens (enter st.names)) (h : Clean n act { st with names := enter st.names })

include hopens h

theorem within_clean : Clean (n + 1) (within s enter act) st :=
  Tidy.within ({ · with names := · }) hopens h
    (fun _ hleave => by simp only [outcome_within, hleave]) fun _ _ => rfl

theorem lt_size_within {a : α} {st' : State} (hrun : Runs (within s enter act) st a st') :
    st.names.size < st'.names.size :=
  Tidy.lt_size_within ({ · with names := · }) hopens h
    (fun _ hleave => by simp only [outcome_within, hleave]) (fun _ _ => rfl) hrun

end Within

theorem inScope_clean {n : Nat} (h : Clean n act { st with names := st.names.enter }) :
    Clean (n + 1) (inScope s act) st :=
  within_clean .enter (.enter _) h

theorem returning_clean {n : Nat} {ty : Ty} (h : Clean n act { st with returns := some ty }) :
    Clean n (returning ty act) st :=
  ⟨h.grows, h.fails⟩

end Steps

mutual

/-- Checking a statement opens no more scopes than it weighs. -/
theorem stmt_clean (s : Stmt) (st : State) : Clean s.weight (stmt s) st := by
  match s with
  | .varDef name ty init s =>
    unfold stmt
    refine (undeclared_clean name).then_ fun _ _ _ => ?_
    refine (knownType_clean ty name.span).then_ fun _ _ _ => ?_
    refine (initializer_clean name ty init).then_ fun _ _ _ => ?_
    exact (declare_clean (by simp)).then_ fun _ _ _ => .pure
  | .structDef name members s =>
    unfold stmt
    refine (undeclared_clean name).then_ fun _ st₁ _ => .get_bind ?_
    have hopens := ScopeTable.Opens.enterMarked st₁.names (membersMarker name.name) ()
    have hmembers := declareParams_clean members
      { st₁ with names := st₁.names.enterMarked (membersMarker name.name) () }
    refine Tidy.bind (m := 0) (within_clean (·.enterMarked _ ()) hopens hmembers) ?_
    intro _ st₂ hrun
    refine (declare_clean ?_).then_ fun _ _ _ => .pure
    simpa using lt_size_within (·.enterMarked _ ()) hopens hmembers hrun
  | .fnDef sig body s =>
    unfold stmt
    refine (signature_clean sig false).then_ fun _ st₁ _ => ?_
    have hbody : ∀ st₂, Clean (Stmt.totalWeight body)
        (do sig.params.forM declareParam; stmts body) st₂ :=
      fun st₂ => (declareParams_clean sig.params st₂).then_ fun _ st₃ _ => stmts_clean body st₃
    refine ((returning_clean (inScope_clean (hbody _))).bind fun _ _ _ => .pure).mono ?_
    simp only [Stmt.weight]
    omega
  | .fnDecl sig s =>
    unfold stmt
    refine (signature_clean sig true).then_ fun _ _ _ => ?_
    refine ((inScope_clean (declareParams_clean sig.params _)).bind fun _ _ _ => .pure).mono ?_
    simp [Stmt.weight]
  | .varSet target value s =>
    unfold stmt
    refine .get_bind ?_
    split
    · exact fail_clean rfl
    · refine (checkExpr_clean value).then_ fun _ _ _ => ?_
      exact (coerce_clean fun _ _ => rfl).then_ fun _ _ _ => .pure
  | .memberSet target value s =>
    unfold stmt
    refine (checkExpr_clean target).then_ fun _ _ _ => (typeOf_clean target).then_ fun _ _ _ => ?_
    refine (checkExpr_clean value).then_ fun _ _ _ => ?_
    exact (coerce_clean fun _ _ => rfl).then_ fun _ _ _ => .pure
  | .expr e s =>
    unfold stmt
    exact (checkExpr_clean e).then_ fun _ _ _ => .pure
  | .return_ value s =>
    unfold stmt
    exact (returned_clean s value).then_ fun _ _ _ => .pure
  | .break_ s =>
    unfold stmt
    exact .pure
  | .for_ cond body s =>
    unfold stmt
    refine (checkExpr_clean cond).then_ fun _ _ _ => ?_
    exact (inScope_clean (stmts_clean body _)).bind fun _ _ _ => .pure
  | .if_ cond body otherwise s =>
    unfold stmt
    refine (checkExpr_clean cond).then_ fun _ _ _ => ?_
    refine (inScope_clean (stmts_clean body _)).bind fun _ _ _ => ?_
    exact (alternative_clean s otherwise _).bind fun _ _ _ => .pure
  | .block body s =>
    unfold stmt
    exact (inScope_clean (stmts_clean body _)).bind fun _ _ _ => .pure

theorem alternative_clean (s : Span) (a : Alternative) (st : State) :
    Clean a.weight (alternative s a) st := by
  match a with
  | .none =>
    unfold alternative
    exact .pure
  | .else_ body =>
    unfold alternative
    exact (inScope_clean (stmts_clean body _)).bind fun _ _ _ => .pure
  | .elif cond body otherwise =>
    unfold alternative
    refine (checkExpr_clean cond).then_ fun _ _ _ => ?_
    refine (inScope_clean (stmts_clean body _)).bind fun _ _ _ => ?_
    exact (alternative_clean s otherwise _).bind fun _ _ _ => .pure

theorem stmts_clean (ss : List Stmt) (st : State) : Clean (Stmt.totalWeight ss) (stmts ss) st := by
  match ss with
  | [] =>
    unfold stmts
    exact .pure
  | s :: ss =>
    unfold stmts
    exact (stmt_clean s st).bind fun _ st₁ _ => (stmts_clean ss st₁).bind fun _ _ _ => .pure

end

end Check

def LowerError.isPanic : LowerError → Bool
  | .breach b => b.isPanic
  | _ => false

variable {t : ScopeTable Handle}

theorem Ty.Trouble.reported {ty : Ty} {err : LowerError} (h : ty.Trouble t err) :
    err.isPanic = false := by
  obtain ⟨b, hlower, -, rfl⟩ := h
  obtain ⟨base, rfl⟩ := ty.lower_error hlower
  rfl

theorem LowerError.ofInfer_reported {e : Expr} {s : Span} {ie : InferError}
    (h : e.infer t = .error ie) : (LowerError.ofInfer s ie).value.isPanic = false := by
  have hpanic := e.infer_fails t ie h
  cases ie <;> exact hpanic

/-- What can go wrong with an expression is reported. -/
theorem Expr.Trouble.reported {e : Expr} {err : LowerError} (h : e.Trouble t err) :
    err.isPanic = false := by
  induction h with
  | literal hty | cast hty => exact hty.reported
  | joined _ _ _ _ hty => exact hty.reported
  | memberType _ hty => exact hty.reported
  | ident hnone => rfl
  | lhsType _ he | rhsType _ he => exact LowerError.ofInfer_reported he
  | member he => exact LowerError.ofInfer_reported he
  | @apart _ _ _ _ lty rty b _ _ _ hjoin => exact lty.join_fails rty b hjoin
  | paren _ ih | unary _ ih | lhs _ ih | rhs _ ih | operand _ ih | callee _ ih | argument _ _ ih
  | object _ ih => exact ih

namespace Lowering

/-- No scope that lowering opens is left open, and there is one around it. -/
abbrev Clean (n : Nat) (act : LowerM α) (st : State) : Prop :=
  Tidy State.names LowerError.isPanic n act st

variable {act : LowerM α} {n : Nat}

/-- What leaves the table alone. -/
theorem Consults.clean {st : State} {Q : α → Prop}
    (h : Consults (·.isPanic = false) st.names act Q) : Clean 0 act st := by
  obtain ⟨hnames, hout⟩ := h st rfl
  refine .of_names_eq hnames fun e he => ?_
  rw [he] at hout
  obtain hlimit | hreported := hout
  · cases hvalue : e.value with
    | breach b => simp [hvalue, LowerError.isLimit] at hlimit
    | _ => rfl
  · exact hreported

section Steps

variable {st : State}

theorem bind_clean {b : Binding Handle} (h : ∀ n ∈ b.scope, n < st.names.size) :
    Clean 0 (bind b) st :=
  .modify (.add _ h)

theorem forM_bind_clean (f : α → Binding Handle) (hf : ∀ a, (f a).scope = none) (as : List α)
    (st : State) : Clean 0 (as.forM fun a => bind (f a)) st := by
  induction as generalizing st with
  | nil => exact .pure
  | cons a as ih => exact (bind_clean (by simp [hf])).then_ fun _ st₁ _ => ih st₁

theorem variable_clean (name : Ident) (ty : Ty) (init : Option Expr) :
    Clean 0 (variable_ name ty init) st := by
  refine (Consults.lowerType fun _ h => h.reported).clean.then_ fun irTy _ _ => ?_
  refine Consults.emitReg.clean.then_ fun ptr _ _ => Tidy.then_ ?_ fun _ _ _ => ?_
  · cases init with
    | none => exact .pure
    | some e => exact (storeAs_consults fun _ h => h.reported).clean
  · exact .get_bind (bind_clean (by simp))

section Within

variable {n : Nat} {act : LowerM α} {s : Span} (enter : ScopeTable Handle → ScopeTable Handle)
  (hopens : st.names.Opens (enter st.names)) (h : Clean n act { st with names := enter st.names })

include hopens h

theorem within_clean : Clean (n + 1) (within s enter act) st :=
  Tidy.within ({ · with names := · }) hopens h
    (fun _ hleave => by simp only [outcome_within, hleave]) fun _ _ => rfl

theorem lt_size_within {a : α} {st' : State} (hrun : Runs (within s enter act) st a st') :
    st.names.size < st'.names.size :=
  Tidy.lt_size_within ({ · with names := · }) hopens h
    (fun _ hleave => by simp only [outcome_within, hleave]) (fun _ _ => rfl) hrun

end Within

theorem inScope_clean {s : Span} (h : Clean n act { st with names := st.names.enter }) :
    Clean (n + 1) (inScope s act) st :=
  within_clean .enter (.enter _) h

/-- The functions around it wait until it is finished, so one is left to return to. -/
theorem inFunction_clean {s : Span} {b : Ir.Builder} (hframed : Framed act)
    (h : Clean n act { st with enclosing := st.current :: st.enclosing, current := b }) :
    Clean n (inFunction s b act) st := by
  have hrun := hframed.outcome_inFunction s b st
  exact ⟨hrun ▸ h.grows, hrun ▸ h.fails⟩

theorem struct_clean (name : Ident) (members : List Param) (s : Span) :
    Clean 1 (struct_ name members s) st := by
  have hfields : ∀ t, Consults (·.isPanic = false) t (members.mapM fun m => do
      let ty ← lowerType m.ty m.name.span
      return (m.name.name, ty)) fun _ => True :=
    fun t => .mapM fun m _ =>
      (Consults.lowerType fun _ h => h.reported).bind fun _ _ => .pure trivial
  refine (hfields st.names).clean.then_ fun fields st₁ _ => .get_bind ?_
  have hopens := ScopeTable.Opens.enterMarked st₁.names (membersMarker name.name) Handle.marker
  have hmembers := forM_bind_clean (fun m : Param => .plain m.name.name m.ty .member)
    (by simp) members { st₁ with names := st₁.names.enterMarked (membersMarker name.name) .marker }
  refine Tidy.bind (m := 0) (within_clean (·.enterMarked _ .marker) hopens hmembers) ?_
  intro _ st₂ hrun
  refine (bind_clean ?_).then_ fun _ _ _ => .modify (.refl _)
  simpa using lt_size_within (·.enterMarked _ .marker) hopens hmembers hrun

theorem signature_clean (sig : Signature) (isExternal : Bool) :
    Clean 0 (signature sig isExternal) st := by
  refine (Consults.lowerType fun _ h => h.reported).clean.then_ fun ret _ _ => ?_
  refine Tidy.then_ (Consults.mapM fun p _ => lowerParam_consults fun _ h => h.reported).clean ?_
  intro params _ _
  refine Tidy.then_ (.get_bind .pure) fun name _ _ => ?_
  exact (bind_clean (by simp)).then_ fun _ _ _ => .pure

end Steps

/-- The scopes that lowering opens. -/
def weights : Deposits nowhere Nat where
  zero := 0
  add := (· + ·)
  ofCond _ _ := 0
  ofStmt _ s := s.weight
  ofOtherwise _ a := a.weight
  ofBody _ ss := Stmt.totalWeight ss
  enclosed n := n + 1
  zero_add := Nat.zero_add
  add_zero := Nat.add_zero
  ofStmt_if _ _ _ _ _ := by simp [Stmt.weight]
  ofOtherwise_elif _ _ _ _ := by simp [Alternative.weight]
  ofBody_cons _ _ _ := by simp [Stmt.totalWeight]

theorem weights_kept : weights.Kept fun _ _ _ act n => ∀ st, Clean n act st where
  chained := ⟨fun _ => .pure, fun _ => .mono (.throw rfl) (Nat.zero_le _),
    fun hact hf st => (hact st).bind fun a st₁ _ => hf a st₁⟩
  reopen _ := reopen_consults.clean
  openIf _ := openIf_consults.clean
  startBlock _ := Consults.startBlock.clean
  branchTo _ := Consults.terminate.clean
  openArm _ _ := (openArm_consults fun _ h => h.reported).clean
  inScope _ hss _ := inScope_clean (hss _)
  fnDef := by
    intro _ _ sig ss s _ hss st
    unfold stmt
    refine (signature_clean sig false).then_ fun low _ _ => Consults.freshId.clean.then_ ?_
    intro id st₁ _
    have hbody : ∀ st₂, Clean (Stmt.totalWeight ss)
        (do bindParams sig.params low.params id; stmts ss) st₂ := fun st₂ =>
      (forM_bind_clean _ (by simp) _ st₂).then_ fun _ st₃ _ => hss st₃
    refine (inFunction_clean (body_framed sig low ss s id) (inScope_clean (hbody _))).mono ?_
    simp only [weights, Stmt.weight]
    omega
  varDef _ _ := by
    unfold stmt
    exact variable_clean _ _ _
  structDef _ _ := by
    unfold stmt
    exact struct_clean _ _ _
  fnDecl _ _ := by
    unfold stmt
    refine Tidy.mono ((signature_clean _ true).then_ fun low _ _ => .modify (.refl _)) ?_
    exact Nat.zero_le _
  varSet _ _ := by
    unfold stmt
    exact (assign_consults (fun _ h => h.reported) fun _ h => h.reported).clean
  memberSet _ _ := by
    unfold stmt
    exact (assignMember_consults (fun _ h => h.reported) fun _ h => h.reported).clean
  expr _ _ := by
    unfold stmt
    exact (effect_consults fun _ h => h.reported).clean
  return_ _ _ := by
    unfold stmt
    exact (return_consults fun _ _ _ h => h.reported).clean

/-- Lowering a statement opens no more scopes than it weighs. -/
theorem stmt_clean (s : Stmt) (st : State) : Clean s.weight (stmt s) st :=
  weights_kept.stmt s () trivial st

theorem stmts_clean (ss : List Stmt) (st : State) : Clean (Stmt.totalWeight ss) (stmts ss) st :=
  (weights_kept.stmts ss () trivial).elim fun _ h => h st

theorem topLevel_clean (ss : List Stmt) (st : State) :
    Clean (Stmt.totalWeight ss) (topLevel ss) st :=
  (weights_kept.topLevel rfl ss () trivial).elim fun _ h => h st

end Lowering

end Frontend
