import Frontend.Lowering.Statements
import Frontend.Proofs.Certificate
import Frontend.Proofs.Steps
import Frontend.Proofs.Visible

/-!
Successful runs of lowering steps, one equivalence a step: what a run of a composed step says about
the runs of its parts, and what a single step does to the state.
-/
namespace Frontend.Lowering

/-- The state with instructions added to the function under construction. -/
def State.extend (st : State) (code : List Ir.Instr) : State :=
  { st with current := st.current.extend code }

namespace State

variable (st : State)

@[simp] theorem extend_names (code : List Ir.Instr) : (st.extend code).names = st.names := rfl
@[simp] theorem extend_module (code : List Ir.Instr) : (st.extend code).module = st.module := rfl
@[simp] theorem extend_nextId (code : List Ir.Instr) : (st.extend code).nextId = st.nextId := rfl

@[simp] theorem extend_enclosing (code : List Ir.Instr) :
    (st.extend code).enclosing = st.enclosing := rfl

@[simp] theorem extend_current (code : List Ir.Instr) :
    (st.extend code).current = st.current.extend code := rfl

@[simp] theorem extend_nil : st.extend [] = st := by simp [extend]

@[simp] theorem extend_extend (is js : List Ir.Instr) :
    (st.extend is).extend js = st.extend (is ++ js) := by
  simp [extend]

end State

section Steps

variable {st st' : State}

@[simp] theorem not_runs_fail {s : Span} {e : LowerError} {a : α} :
    ¬ Runs (fail s e) st a st' := not_runs_throw

@[simp] theorem not_runs_unsupported {s : Span} {what : Unsupported} {a : α} :
    ¬ Runs (unsupported s what) st a st' := not_runs_fail

@[simp] theorem runs_emitReg {op : Ir.Op} {r : Ir.Reg} :
    Runs (emitReg op) st r st' ↔
      r = ⟨st.current.nextReg⟩ ∧ st' = st.extend [⟨some ⟨st.current.nextReg⟩, op⟩] := by
  simp [emitReg, Ir.Builder.emit_eq, State.extend]

@[simp] theorem runs_emit {op : Ir.Op} {ty : Ir.Ty} {v : Operand} :
    Runs (emit op ty) st v st' ↔ v = ⟨⟨st.current.nextReg⟩, ty⟩ ∧
      st' = st.extend [⟨some ⟨st.current.nextReg⟩, op⟩] := by
  simp only [emit, bind_pure_comp, runs_map, runs_emitReg]
  constructor
  · rintro ⟨r, ⟨rfl, rfl⟩, rfl⟩
    exact ⟨rfl, rfl⟩
  · rintro ⟨rfl, rfl⟩
    exact ⟨_, ⟨rfl, rfl⟩, rfl⟩

@[simp] theorem runs_emitVoid {op : Ir.Op} {u : Unit} :
    Runs (emitVoid op) st u st' ↔ st' = st.extend [⟨none, op⟩] := by
  simp [emitVoid, Ir.Builder.push_eq, State.extend]

@[simp] theorem runs_freshBlock {id : Ir.BlockId} :
    Runs freshBlock st id st' ↔ id = st.current.freshBlock.1 ∧
      st' = { st with current := st.current.freshBlock.2 } := by
  simp [freshBlock]

@[simp] theorem runs_startBlock {id : Ir.BlockId} {label : String} {u : Unit} :
    Runs (startBlock id label) st u st' ↔
      st' = { st with current := st.current.startBlock id label } := by
  simp [startBlock]

@[simp] theorem runs_terminate {t : Ir.Terminator} {u : Unit} :
    Runs (terminate t) st u st' ↔ st' = { st with current := st.current.terminate t } := by
  simp [terminate]

@[simp] theorem runs_bindName {b : Binding Handle} {u : Unit} :
    Runs (Lowering.bind b) st u st' ↔ st' = { st with names := st.names.add b } := by
  simp [Lowering.bind]

@[simp] theorem runs_addFunc {f : Ir.Func} {u : Unit} :
    Runs (addFunc f) st u st' ↔ st' = { st with module := st.module.addFunc f } := by
  simp [addFunc]

@[simp] theorem runs_freshId {n : Nat} :
    Runs freshId st n st' ↔ n = st.nextId ∧ st' = { st with nextId := st.nextId + 1 } := by
  simp [freshId]

theorem outcome_within (s : Span) (enter : ScopeTable Handle → ScopeTable Handle)
    (act : LowerM α) (st : State) :
    outcome (within s enter act) st =
      match outcome act { st with names := enter st.names } with
      | (r, st₁) =>
        match st₁.names.leave? with
        | some outer => (r, { st₁ with names := outer })
        | none => (.error ⟨s, .breach .rootScopeClosed⟩, st₁) := rfl

variable {s : Span} {u : Unit} {sig : Signature}

/-- A run in a new scope is a run of its inside, and the scope is closed in the end. -/
theorem within_inv {enter : ScopeTable Handle → ScopeTable Handle} {act : LowerM α} {a : α}
    (h : Runs (within s enter act) st a st') :
    ∃ st₁ outer, Runs act { st with names := enter st.names } a st₁ ∧
      st₁.names.leave? = some outer ∧ st' = { st₁ with names := outer } := by
  rw [Runs, outcome_within] at h
  generalize hr : outcome act { st with names := enter st.names } = r at h
  obtain ⟨r, st₁⟩ := r
  cases hl : st₁.names.leave? with
  | none => simp [hl] at h
  | some outer =>
    simp only [hl, Prod.mk.injEq] at h
    obtain ⟨rfl, rfl⟩ := h
    exact ⟨st₁, outer, hr, hl, rfl⟩

theorem outcome_inFunction (s : Span) (b : Ir.Builder) (act : LowerM α) (st : State) :
    outcome (inFunction s b act) st =
      match outcome act { st with enclosing := st.current :: st.enclosing, current := b } with
      | (r, st₁) =>
        match st₁.enclosing with
        | outer :: rest => (r, { st₁ with
            module := st₁.module.addFunc st₁.current.finish
            enclosing := rest
            current := outer })
        | [] => (.error ⟨s, .breach .noFunction⟩, st₁) := rfl

theorem outcome_lookup (id : Ident) (st : State) :
    outcome (lookup id) st = match st.names.find? id.name with
      | some b => (.ok b.value, st)
      | none => (.error ⟨id.span, .unresolved id.name⟩, st) := by
  show outcome (match st.names.find? id.name with
    | some b => return b.value
    | none => fail id.span (.unresolved id.name)) st = _
  cases st.names.find? id.name <;> rfl

@[simp] theorem runs_lookup {id : Ident} {h : Handle} :
    Runs (lookup id) st h st' ↔
      ∃ b, st.names.find? id.name = some b ∧ h = b.value ∧ st' = st := by
  rw [Runs, outcome_lookup]
  cases st.names.find? id.name <;> simp [eq_comm]

theorem outcome_ownedHere (owner : Nat) (s : Span) (st : State) :
    outcome (ownedHere owner s) st =
      if owner = st.current.id then (.ok (), st)
      else (.error ⟨s, .unsupported .foreignLocal⟩, st) := by
  show outcome (if owner = st.current.id then pure () else unsupported s .foreignLocal) st = _
  split <;> rfl

@[simp] theorem runs_ownedHere {owner : Nat} {s : Span} {u : Unit} :
    Runs (ownedHere owner s) st u st' ↔ owner = st.current.id ∧ st' = st := by
  rw [Runs, outcome_ownedHere]
  by_cases h : owner = st.current.id <;> simp [h, eq_comm]

theorem outcome_lowerType (ty : Ty) (s : Span) (st : State) :
    outcome (lowerType ty s) st = match ty.lower st.names with
      | .ok t => (.ok t, st)
      | .error (.missingLayout (.prim .any)) => (.error ⟨s, .unsupported .anyValue⟩, st)
      | .error b => (.error ⟨s, .breach b⟩, st) := by
  show outcome (match ty.lower st.names with
    | .ok ty => return ty
    | .error (.missingLayout (.prim .any)) => unsupported s .anyValue
    | .error b => fail s (.breach b)) st = _
  split <;> rfl

@[simp] theorem runs_lowerType {ty : Ty} {s : Span} {t : Ir.Ty} :
    Runs (lowerType ty s) st t st' ↔ ty.lower st.names = .ok t ∧ st' = st := by
  rw [Runs, outcome_lowerType]
  split <;> rename_i h <;> simp [h, eq_comm]

theorem outcome_infer (e : Expr) (st : State) :
    outcome (infer e) st = ((e.infer st.names).mapError (LowerError.ofInfer e.span), st) := by
  show outcome (MonadExcept.ofExcept _) st = _
  cases (e.infer st.names).mapError (LowerError.ofInfer e.span) <;> rfl

@[simp] theorem runs_infer {e : Expr} {ty : Ty} :
    Runs (infer e) st ty st' ↔ e.infer st.names = .ok ty ∧ st' = st := by
  rw [Runs, outcome_infer]
  cases e.infer st.names <;> simp [Except.mapError, eq_comm]

theorem runs_forM_bindName {f : α → Binding Handle} {as : List α} :
    Runs (as.forM fun a => Lowering.bind (f a)) st u st' ↔
      st' = { st with names := st.names.addAll (as.map f) } := by
  induction as generalizing st with
  | nil => simp [ScopeTable.addAll]
  | cons a as ih =>
    rw [List.forM_eq_forM] at ih ⊢
    rw [List.forM_cons]
    simp [ih, ScopeTable.addAll]

theorem lowerParam_inv {p : Param} {t : Ir.Ty} (h : Runs (lowerParam p) st t st') :
    (∃ ty, p.ty.lower st.names = .ok ty ∧ t = if ty.isAggregate then .ptr ty else ty) ∧
      st' = st := by
  obtain ⟨ty, st₁, hty, h₁⟩ := runs_bind.mp h
  obtain ⟨hty, rfl⟩ := runs_lowerType.mp hty
  obtain ⟨rfl, rfl⟩ := runs_pure.mp h₁
  exact ⟨⟨ty, hty, rfl⟩, rfl⟩

/-- What the lowered parts of a signature are. -/
structure LoweredSig.Of (sig : Signature) (st : State) (low : LoweredSig) : Prop where
  name : low.name = freeName st.functionNames sig.name.name
  ret : sig.ret.lower st.names = .ok low.ret
  params : List.Forall₂ (fun p t => ∃ ty, p.ty.lower st.names = .ok ty ∧
    t = if ty.isAggregate then .ptr ty else ty) sig.params low.params

/-- What a function is bound to. -/
def LoweredSig.binding (low : LoweredSig) (sig : Signature) (isExternal : Bool) : Binding Handle :=
  ⟨sig.name.name, sig.ty,
    { Attributes.none with isExternal := isExternal, isVariadic := sig.variadic }, none,
    .func low.name low.params low.ret sig.variadic⟩

theorem signature_inv {isExternal : Bool} {low : LoweredSig}
    (h : Runs (signature sig isExternal) st low st') :
    low.Of sig st ∧ st' = { st with names := st.names.add (low.binding sig isExternal) } := by
  obtain ⟨ret, st₁, hret, h₁⟩ := runs_bind.mp h
  obtain ⟨hret, rfl⟩ := runs_lowerType.mp hret
  obtain ⟨params, st₂, hparams, h₂⟩ := runs_bind.mp h₁
  obtain ⟨hparams, rfl⟩ := hparams.mapM fun _ _ _ => lowerParam_inv
  obtain ⟨name, st₃, hname, h₃⟩ := runs_bind.mp h₂
  obtain ⟨rfl, rfl⟩ : name = freeName st₂.functionNames sig.name.name ∧ st₃ = st₂ := by
    simpa [functionName, and_comm] using hname
  obtain ⟨_, st₄, hbind, h₄⟩ := runs_bind.mp h₃
  obtain rfl := runs_bindName.mp hbind
  obtain ⟨rfl, rfl⟩ := runs_pure.mp h₄
  exact ⟨⟨rfl, hret, hparams⟩, rfl⟩

/-- What parameters are bound to. -/
def paramBindings (params : List Param) (tys : List Ir.Ty) (owner : Nat) : List (Binding Handle) :=
  (params.zip (Ir.numbered tys)).map fun (p, reg, ty) =>
    .plain p.name.name p.ty (.param reg ty owner)

theorem runs_bindParams {params : List Param} {tys : List Ir.Ty} {owner : Nat} :
    Runs (bindParams params tys owner) st u st' ↔
      st' = { st with names := st.names.addAll (paramBindings params tys owner) } :=
  runs_forM_bindName

/-- Members become fields, and are bound in a scope of their own, which is closed again. -/
theorem struct_inv {name : Ident} {members : List Param}
    (h : Runs (struct_ name members s) st u st') :
    ∃ fields outer, List.Forall₂ (fun m f => f.1 = m.name.name ∧ m.ty.lower st.names = .ok f.2)
        members fields ∧
      ((st.names.enterMarked (membersMarker name.name) .marker).addAll
        (members.map fun m => .plain m.name.name m.ty .member)).leave? = some outer ∧
      st' = { st with
        names := outer.add ⟨name.name, .struct name.name 0, .none, some st.names.size,
          .struct (Ir.Layout.mk name.name fields).ty⟩
        module := st.module.addStruct ⟨name.name, fields⟩ } := by
  obtain ⟨fields, st₁, hfields, h₁⟩ := runs_bind.mp h
  obtain ⟨hfields, rfl⟩ := hfields.mapM
    (R := fun m f => f.1 = m.name.name ∧ m.ty.lower st.names = .ok f.2) fun m field st₁ hm => by
      obtain ⟨ty, st₂, hty, hm'⟩ := runs_bind.mp hm
      obtain ⟨hty, rfl⟩ := runs_lowerType.mp hty
      obtain ⟨rfl, rfl⟩ := runs_pure.mp hm'
      exact ⟨⟨rfl, hty⟩, rfl⟩
  obtain ⟨_, st₂, hwithin, h₃⟩ := runs_bind.mp (runs_get_bind.mp h₁)
  obtain ⟨st₃, outer, hmembers, hleave, rfl⟩ := within_inv hwithin
  obtain rfl := runs_forM_bindName.mp hmembers
  obtain ⟨_, st₄, hbind, h₄⟩ := runs_bind.mp h₃
  obtain rfl := runs_bindName.mp hbind
  exact ⟨fields, outer, hfields, hleave, runs_modify.mp h₄⟩

end Steps

/-- The state in which the body of a function is lowered, before its scope is opened. -/
def State.enterFunction (st : State) (sig : Signature) (low : LoweredSig) : State where
  names := st.names.add (low.binding sig false)
  module := st.module
  nextId := st.nextId + 1
  enclosing := st.current :: st.enclosing
  current := .start st.nextId low.name low.params low.ret

/-- The function that `st'` has under construction is added to the module, and the one that was
under construction in `st` is taken up again. -/
def State.leaveFunction (st st' : State) : State where
  names := st'.names
  module := st'.module.addFunc st'.current.finish
  nextId := st'.nextId
  enclosing := st.enclosing
  current := st.current

theorem fnDecl_inv {st st' : State} (h : Runs (stmt (.fnDecl sig s)) st u st') :
    ∃ low : LoweredSig, low.Of sig st ∧ st' = { st with
      names := st.names.add (low.binding sig true)
      module := st.module.addFunc (.external low.name low.params low.ret sig.variadic) } := by
  unfold stmt at h
  obtain ⟨low, st₁, hsig, h₁⟩ := runs_bind.mp h
  obtain ⟨hlow, rfl⟩ := signature_inv hsig
  exact ⟨low, hlow, runs_addFunc.mp h₁⟩

/-- Numbers that are written the same are the same. -/
theorem repr_inj {m n : Nat} (h : m.repr = n.repr) : m = n := by
  have hdigits : Nat.toDigits 10 m = Nat.toDigits 10 n := by
    simpa using congrArg String.toList h
  have := congrArg (Nat.ofDigitChars 10 · 0) hdigits
  simpa [Nat.ofDigitChars_toDigits] using this

theorem freeName_not_mem (taken : List String) (base : String) : freeName taken base ∉ taken := by
  unfold freeName
  extract_lets candidate
  have hlength : ∀ n, n ≠ 0 → base.length < (candidate n).length := by
    intro n hn
    have : ".".length = 1 := rfl
    simp [candidate, hn]
    omega
  have hzero : candidate 0 = base := rfl
  have hinj : ∀ m n, candidate m = candidate n → m = n := by
    intro m n h
    by_cases hm : m = 0 <;> by_cases hn : n = 0
    · rw [hm, hn]
    · have := hlength n hn
      rw [← h, hm, hzero] at this
      omega
    · have := hlength m hm
      rw [h, hn, hzero] at this
      omega
    · simp only [candidate, if_neg hm, if_neg hn, String.append_right_inj] at h
      exact repr_inj h
  -- one more candidate than names taken, and no two the same
  cases hfind : ((List.range (taken.length + 1)).map candidate).find? (!taken.contains ·) with
  | some name => simpa using List.find?_some hfind
  | none =>
    have hsub : (List.range (taken.length + 1)).map candidate ⊆ taken := by
      intro name hname
      simpa using List.find?_eq_none.mp hfind name hname
    have hnodup : ((List.range (taken.length + 1)).map candidate).Nodup :=
      List.Pairwise.map candidate (fun m n hne h => hne (hinj m n h)) List.nodup_range
    have hle := hnodup.length_le_of_subset hsub
    rw [List.length_map, List.length_range] at hle
    omega

/-- Something is done wherever there is an alternative. -/
theorem eq_none_of_alternative {s : Span} {join : Ir.BlockId} {a : Alternative}
    (h : alternative s join a = none) : a = .none := by
  cases a with
  | none => rfl
  | else_ body => simp [alternative] at h
  | elif cond body otherwise => simp [alternative] at h

end Frontend.Lowering
