import Frontend.Proofs.Balance

/-!
The functions under construction. Of those around the current one, lowering asks for no more than
their names, and it leaves them as they are. A definition treats the current one like that too: all
that it adds goes to the function that it opens itself.
-/
namespace Frontend.Lowering

/-- Functions under construction: the current one, and those around it. -/
abbrev Builders := Ir.Builder × List Ir.Builder

/-- Puts other functions in their place. -/
abbrev Exchange := Builders → Builders

namespace Exchange

/-- Exchanges the functions around the current one. -/
def around (bs : List Ir.Builder) : Exchange := fun (b, _) => (b, bs)

/-- Exchanges the current one. -/
def current (b : Ir.Builder) : Exchange := fun (_, bs) => (b, bs)

/-- The functions that come in have the names of those that go. -/
structure Namesakes (g : Exchange) (bs : Builders) : Prop where
  current : (g bs).1.name = bs.1.name
  enclosing : (g bs).2.map (·.name) = bs.2.map (·.name)

end Exchange

namespace State

def builders (st : State) : Builders := (st.current, st.enclosing)

def exchange (g : Exchange) (st : State) : State :=
  { st with current := (g st.builders).1, enclosing := (g st.builders).2 }

end State

/-- With functions of the same names in place of those under construction, `act` does the same, and
leaves those that are there. -/
def Ignores (g : Exchange) (act : LowerM α) : Prop :=
  ∀ st, g.Namesakes st.builders →
    outcome act (st.exchange g) = ((outcome act st).1, (outcome act st).2.exchange g) ∧
      g.Namesakes (outcome act st).2.builders

namespace Ignores

variable {g : Exchange} {act : LowerM α}

theorem bind {f : α → LowerM β} (hact : Ignores g act) (hf : ∀ a, Ignores g (f a)) :
    Ignores g (act >>= f) := by
  intro st hst
  obtain ⟨heq, hst₁⟩ := hact st hst
  rw [outcome_bind, outcome_bind, heq]
  generalize outcome act st = r at hst₁
  obtain ⟨r, st₁⟩ := r
  cases r with
  | error e => exact ⟨rfl, hst₁⟩
  | ok a => exact hf a st₁ hst₁

/-- What is asked of the state must not be what is exchanged. -/
theorem get_bind {f : State → LowerM α}
    (heq : ∀ st, g.Namesakes st.builders → f (st.exchange g) = f st)
    (hf : ∀ st, Ignores g (f st)) : Ignores g (get >>= f) := by
  intro st hst
  rw [outcome_get_bind, outcome_get_bind, heq st hst]
  exact hf st st hst

theorem within (hact : Ignores g act) (s : Span) (enter : ScopeTable Handle → ScopeTable Handle) :
    Ignores g (within s enter act) := by
  intro st hst
  obtain ⟨heq, hst₁⟩ := hact { st with names := enter st.names } hst
  rw [outcome_within, outcome_within]
  change outcome act { st.exchange g with names := enter (st.exchange g).names } = _ at heq
  rw [heq]
  generalize outcome act { st with names := enter st.names } = r at hst₁
  obtain ⟨r, st₁⟩ := r
  cases hleave : st₁.names.leave? with
  | none => simpa [State.exchange, hleave] using hst₁
  | some outer => simpa [State.exchange, State.builders, hleave] using hst₁

/-- With the functions that are there, nothing is exchanged. -/
theorem framed (hact : ∀ bs, Ignores (.around bs) act) : Framed act :=
  fun st => congrArg (·.2.enclosing) (hact st.enclosing st ⟨rfl, rfl⟩).1

/-- In a function, the exchanged functions are all around the current one. -/
theorem inFunction (hact : ∀ bs, Ignores (.around bs) act) (s : Span) (b : Ir.Builder) :
    Ignores g (inFunction s b act) := by
  intro st hst
  have hinner : (Exchange.around ((g st.builders).1 :: (g st.builders).2)).Namesakes
      (b, st.current :: st.enclosing) :=
    ⟨rfl, congrArg₂ List.cons hst.current hst.enclosing⟩
  obtain ⟨heq, -⟩ := hact _ { st with enclosing := st.current :: st.enclosing, current := b } hinner
  rw [(framed hact).outcome_inFunction, (framed hact).outcome_inFunction]
  refine ⟨?_, hst⟩
  change outcome act { st.exchange g with
    enclosing := (st.exchange g).current :: (st.exchange g).enclosing, current := b } = _ at heq
  rw [heq]
  rfl

/-- The current function may be changed if those around it are exchanged. -/
theorem current {bs : List Ir.Builder} {f : Ir.Builder → α × Ir.Builder} : Ignores (.around bs)
    (modifyGet fun st => ((f st.current).1, { st with current := (f st.current).2 }) : LowerM α) :=
  fun _ hst => ⟨rfl, rfl, hst.enclosing⟩

end Ignores

/-- Whatever is exchanged, structs and signatures are lowered as before. -/
theorem defining_ignores (g : Exchange) : Defining fun _ act => Ignores g act where
  pure _ _ hst := ⟨rfl, hst⟩
  fail _ _ _ hst := ⟨rfl, hst⟩
  bind hact hf := hact.bind hf
  asking heq hf := .get_bind (fun st _ => heq st _ _) hf
  bindName _ _ hst := ⟨rfl, hst⟩
  functionName base := by
    refine .get_bind (fun st hst => ?_) fun st _ hst => ⟨rfl, hst⟩
    have hnames : (st.exchange g).functionNames = st.functionNames :=
      congrArg (st.module.funcs.map (·.name) ++ ·) (congrArg₂ List.cons hst.current hst.enclosing)
    rw [hnames]
  addStruct _ _ hst := ⟨rfl, hst⟩
  within s enter _ hact := hact.within s enter

theorem composed_ignores : Composed fun _ act => ∀ bs, Ignores (.around bs) act where
  pure a _ := (defining_ignores _).pure a
  fail s e _ := (defining_ignores _).fail s e
  chain hact hf bs := (hact bs).bind fun a => hf a bs
  mono h _ := h
  asking heq hf bs := (defining_ignores _).asking heq fun st => hf st bs
  ask heq hf bs := .get_bind (fun st _ => heq st _) fun st => hf st bs
  bindName b _ := (defining_ignores _).bindName b
  functionName base _ := (defining_ignores _).functionName base
  addStruct l _ := (defining_ignores _).addStruct l
  within s enter _ hact bs := (hact bs).within s enter
  emitReg op _ := .current (f := fun b => b.emit op)
  emitVoid op _ := .current (f := fun b => ((), b.push ⟨none, op⟩))
  freshBlock _ := .current (f := fun b => b.freshBlock)
  startBlock id label _ := .current (f := fun b => ((), b.startBlock id label))
  terminate t _ := .current (f := fun b => ((), b.terminate t))
  freshId _ _ hst := ⟨rfl, hst⟩
  addFunc _ _ _ hst := ⟨rfl, hst⟩
  inFunction s b hact _ := .inFunction hact s b

/-- The body stands in a function of its own. -/
theorem fnDef_ignores (sig : Signature) (body : List Stmt) (s : Span) (g : Exchange) :
    Ignores g (stmt (.fnDef sig body s)) := by
  unfold stmt
  refine ((defining_ignores g).signature _ _).bind fun low => ?_
  refine .bind (fun _ hst => ⟨rfl, hst⟩) fun id => ?_
  refine .inFunction (composed_ignores.inScope s ?_) s _
  exact composed_ignores.bind (composed_ignores.bindParams _ _ _) fun _ =>
    composed_ignores.stmts body

/-- From `st`, `act` does the same whatever function of that name is current, and leaves it. -/
def Indifferent (act : LowerM α) (st : State) : Prop :=
  ∀ b : Ir.Builder, b.name = st.current.name →
    outcome act { st with current := b } =
      ((outcome act st).1, { (outcome act st).2 with current := b })

/-- A definition has nothing to do with the function that it stands in. -/
theorem stmt_indifferent {s : Stmt} (hs : s.isDefinition) (st : State) :
    Indifferent (stmt s) st := by
  intro b hb
  have hignores : Ignores (.current b) (stmt s) := by
    cases s with
    | structDef name members s =>
      unfold stmt
      exact (defining_ignores _).struct_ name members s
    | fnDef sig body s => exact fnDef_ignores sig body s _
    | fnDecl sig s =>
      unfold stmt
      exact ((defining_ignores _).signature _ _).bind fun _ _ hst => ⟨rfl, hst⟩
    | _ => cases hs
  exact (hignores st ⟨hb, rfl⟩).1

end Frontend.Lowering
