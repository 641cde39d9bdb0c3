import Frontend.Proofs.Composition
import Frontend.Proofs.Frames

/-!
Every scope and every function that lowering opens is closed again, also where a step fails. So
whenever a scope is to be closed, there is one around it to return to, and whenever a function is
finished, the one that waits is the one that it was opened in. All that is left are names in the
current scope, what was added to the module, and code in the function at hand.
-/
namespace Frontend.Lowering

open ScopeTable (Extends)

/-- What a step may do to the state. The function at hand may grow, but it stays the same
function. -/
structure Restores (st st' : State) : Prop where
  names : ∃ new, st.names.Extends st'.names new
  enclosing : st'.enclosing = st.enclosing
  id : st'.current.id = st.current.id
  name : st'.current.name = st.current.name
  structs : st.module.structs <+: st'.module.structs
  funcs : st.module.funcs <+: st'.module.funcs

namespace Restores

variable {st st₁ st' : State}

theorem refl (st : State) : Restores st st :=
  ⟨⟨[], .refl _⟩, rfl, rfl, rfl, List.prefix_rfl, List.prefix_rfl⟩

theorem trans (h : Restores st st₁) (h' : Restores st₁ st') : Restores st st' := by
  obtain ⟨new, hnames⟩ := h.names
  obtain ⟨new', hnames'⟩ := h'.names
  exact ⟨⟨new' ++ new, hnames.trans hnames'⟩, h'.enclosing.trans h.enclosing, h'.id.trans h.id,
    h'.name.trans h.name, h.structs.trans h'.structs, h.funcs.trans h'.funcs⟩

theorem ofBuilder {b : Ir.Builder} (hid : b.id = st.current.id) (hname : b.name = st.current.name) :
    Restores st { st with current := b } :=
  { refl st with id := hid, name := hname }

end Restores

/-- Single steps restore what they find, whatever comes of them, and so do scopes and functions,
since both are closed even where their inside fails. -/
theorem composed_restores : Composed fun _ act => ∀ st, Restores st (outcome act st).2 where
  pure _ := .refl
  fail _ _ := .refl
  chain {_ _ act f _ _} hact hf st := by
    have hst := hact st
    rw [outcome_bind]
    generalize outcome act st = r at hst
    obtain ⟨r, st₁⟩ := r
    cases r with
    | error e => exact hst
    | ok a => exact hst.trans (hf a st₁)
  mono h _ := h
  asking _ hf st := hf st st
  ask _ hf st := hf st st
  emitReg _ _ := .ofBuilder rfl rfl
  emitVoid _ _ := .ofBuilder rfl rfl
  freshBlock _ := .ofBuilder rfl rfl
  startBlock _ _ _ := .ofBuilder rfl rfl
  terminate _ _ := .ofBuilder rfl rfl
  bindName b st := { Restores.refl st with names := ⟨[b], .add _ b⟩ }
  functionName _ := .refl
  freshId st := { Restores.refl st with }
  addFunc f st := { Restores.refl st with funcs := List.prefix_append _ _ }
  addStruct l st := { Restores.refl st with structs := List.prefix_append _ _ }
  within {_ act} s {enter} henter hact st := by
    have hst := hact { st with names := enter st.names }
    rw [outcome_within]
    generalize outcome act { st with names := enter st.names } = r at hst
    obtain ⟨r, st₁⟩ := r
    obtain ⟨inner, hinner⟩ := hst.names
    obtain ⟨outer, new, hleave, houter⟩ := henter.closes hinner
    simp only [hleave]
    exact { hst with names := ⟨new, houter⟩ }
  inFunction {_ act} s b hact st := by
    have hst := hact { st with enclosing := st.current :: st.enclosing, current := b }
    rw [outcome_inFunction]
    generalize outcome act _ = r at hst
    obtain ⟨r, st₁⟩ := r
    -- the body has put back all that waits, so what is popped is the function it was opened in
    have hwaits : st₁.enclosing = st.current :: st.enclosing := hst.enclosing
    simp only [hwaits]
    exact ⟨hst.names, rfl, rfl, rfl, hst.structs, hst.funcs.trans (List.prefix_append _ _)⟩

/-- Whatever comes of `act`, it stays in the current scope and closes those that it opens. -/
def Balanced (act : LowerM α) : Prop :=
  ∀ st : State, ∃ new, st.names.Extends (outcome act st).2.names new

theorem Balanced.of_restores {act : LowerM α} (h : ∀ st, Restores st (outcome act st).2) :
    Balanced act :=
  fun st => (h st).names

theorem stmts_balanced (ss : List Stmt) : Balanced (stmts ss) :=
  .of_restores (composed_restores.stmts ss)

/-- Whatever comes of `act`, it leaves the functions around the current one. -/
def Framed (act : LowerM α) : Prop := ∀ st, (outcome act st).2.enclosing = st.enclosing

theorem Framed.of_restores {act : LowerM α} (h : ∀ st, Restores st (outcome act st).2) :
    Framed act :=
  fun st => (h st).enclosing

/-- The function that waited is taken up again if `act` leaves those that wait. -/
theorem Framed.outcome_inFunction {act : LowerM α} (h : Framed act) (s : Span) (b : Ir.Builder)
    (st : State) : outcome (inFunction s b act) st =
      match outcome act { st with enclosing := st.current :: st.enclosing, current := b } with
      | (r, st₁) => (r, { st₁ with
          module := st₁.module.addFunc st₁.current.finish
          enclosing := st.enclosing
          current := st.current }) := by
  have hst := h { st with enclosing := st.current :: st.enclosing, current := b }
  rw [Lowering.outcome_inFunction]
  generalize outcome act _ = r at hst
  obtain ⟨r, st₁⟩ := r
  dsimp only at hst ⊢
  rw [hst]

theorem Framed.inFunction_inv {act : LowerM α} (hact : Framed act) {s : Span} {b : Ir.Builder}
    {a : α} {st st' : State} (h : Runs (inFunction s b act) st a st') :
    ∃ st₁, Runs act { st with enclosing := st.current :: st.enclosing, current := b } a st₁ ∧
      st' = { st₁ with
        module := st₁.module.addFunc st₁.current.finish
        enclosing := st.enclosing
        current := st.current } := by
  rw [Runs, hact.outcome_inFunction] at h
  generalize hr : outcome act _ = r at h
  obtain ⟨r, st₁⟩ := r
  simp only [Prod.mk.injEq] at h
  obtain ⟨rfl, rfl⟩ := h
  exact ⟨st₁, hr, rfl⟩

/-- The body of a function leaves the functions around it. -/
theorem body_framed (sig : Signature) (low : LoweredSig) (body : List Stmt) (s : Span) (id : Nat) :
    Framed (inScope s do
      bindParams sig.params low.params id
      stmts body) :=
  .of_restores <| composed_restores.inScope s <|
    composed_restores.bind (composed_restores.bindParams _ _ _) fun _ =>
      composed_restores.stmts body

theorem fnDef_inv {sig : Signature} {body : List Stmt} {s : Span} {st st' : State} {u : Unit}
    (h : Runs (stmt (.fnDef sig body s)) st u st') :
    ∃ (low : LoweredSig) (st₁ : State) (outer : ScopeTable Handle), low.Of sig st ∧
      Runs (stmts body) { st.enterFunction sig low with
        names := (st.enterFunction sig low).names.enter.addAll
          (paramBindings sig.params low.params st.nextId) } () st₁ ∧
      st₁.names.leave? = some outer ∧ st' = st.leaveFunction { st₁ with names := outer } := by
  unfold stmt at h
  obtain ⟨low, st₁, hsig, h₁⟩ := runs_bind.mp h
  obtain ⟨hlow, rfl⟩ := signature_inv hsig
  obtain ⟨id, st₂, hid, h₂⟩ := runs_bind.mp h₁
  obtain ⟨rfl, rfl⟩ := runs_freshId.mp hid
  obtain ⟨st₃, h₃, rfl⟩ := (body_framed sig low body s _).inFunction_inv h₂
  obtain ⟨st₄, outer, h₄, hleave, rfl⟩ := within_inv h₃
  obtain ⟨_, st₅, hparams, h₅⟩ := runs_bind.mp h₄
  obtain rfl := runs_bindParams.mp hparams
  exact ⟨low, st₄, outer, hlow, h₅, hleave, rfl⟩

end Frontend.Lowering
