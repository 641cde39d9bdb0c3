import Frontend.Proofs.Runs

/-!
One walk over the statements of a program, for all that is kept along it. A route says how
statements lead from place to place, and what is known of them there. Deposits say what each is to
leave behind. If the steps of lowering leave what they should, then so does every statement.
-/
namespace Frontend.Lowering

/-- Ways through a program: past a statement, a block and what follows a condition, and into a
function. At each place something is known of what comes next, and so of its parts. -/
structure Route (κ : Type) where
  after : κ → Stmt → κ
  past : κ → List Stmt → κ
  beyond : κ → Alternative → κ
  inside : κ → Signature → κ
  cond : κ → Expr → Prop
  stmt : κ → Stmt → Prop
  otherwise : κ → Alternative → Prop
  body : κ → List Stmt → Prop
  after_if : ∀ k e ss a s, after k (.if_ e ss a s) = beyond (past k ss) a := by intros; rfl
  after_block : ∀ k ss s, after k (.block ss s) = past k ss := by intros; rfl
  beyond_none : ∀ k, beyond k .none = k := by intros; rfl
  beyond_else : ∀ k ss, beyond k (.else_ ss) = past k ss := by intros; rfl
  beyond_elif : ∀ k e ss a, beyond k (.elif e ss a) = beyond (past k ss) a := by intros; rfl
  fnDef : ∀ {k sig ss s}, stmt k (.fnDef sig ss s) → body (inside k sig) ss
  if_ : ∀ {k e ss a s}, stmt k (.if_ e ss a s) → cond k e ∧ body k ss ∧ otherwise (past k ss) a
  block : ∀ {k ss s}, stmt k (.block ss s) → body k ss
  else_ : ∀ {k ss}, otherwise k (.else_ ss) → body k ss
  elif : ∀ {k e ss a}, otherwise k (.elif e ss a) → cond k e ∧ body k ss ∧ otherwise (past k ss) a
  cons : ∀ {k s ss}, body k (s :: ss) → stmt k s ∧ body (after k s) ss

/-- What each part of a program is to leave behind, in order. -/
structure Deposits {κ : Type} (R : Route κ) (μ : Type) where
  zero : μ
  add : μ → μ → μ
  ofCond : κ → Expr → μ
  ofStmt : κ → Stmt → μ
  ofOtherwise : κ → Alternative → μ
  ofBody : κ → List Stmt → μ
  /-- Of the beginning of an `if`. -/
  opening : μ := zero
  /-- Of the beginning of a statement in a body. -/
  reopening : μ := zero
  /-- Of a scope around something. -/
  enclosed : μ → μ := id
  zero_add : ∀ x, add zero x = x := by intros; rfl
  add_zero : ∀ x, add x zero = x
  ofStmt_if : ∀ k e ss a s, ofStmt k (.if_ e ss a s) = add opening
    (add (ofCond k e) (add (enclosed (ofBody k ss)) (ofOtherwise (R.past k ss) a))) := by
      intros; rfl
  ofStmt_block : ∀ k ss s, ofStmt k (.block ss s) = enclosed (ofBody k ss) := by intros; rfl
  ofOtherwise_none : ∀ k, ofOtherwise k .none = zero := by intros; rfl
  ofOtherwise_else : ∀ k ss, ofOtherwise k (.else_ ss) = enclosed (ofBody k ss) := by intros; rfl
  ofOtherwise_elif : ∀ k e ss a, ofOtherwise k (.elif e ss a) =
    add (ofCond k e) (add (enclosed (ofBody k ss)) (ofOtherwise (R.past k ss) a)) := by intros; rfl
  ofBody_nil : ∀ k, ofBody k [] = zero := by intros; rfl
  ofBody_cons : ∀ k s ss, ofBody k (s :: ss) =
    add reopening (add (ofStmt k s) (ofBody (R.after k s) ss)) := by intros; rfl

variable {κ μ : Type} {R : Route κ} {D : Deposits R μ} {k k₁ k' : κ} {x y : μ}
  {Leads : (α : Type) → κ → κ → LowerM α → μ → Prop}

/-- Steps in sequence leave what each of them leaves. -/
structure Deposits.Chained (D : Deposits R μ)
    (Leads : (α : Type) → κ → κ → LowerM α → μ → Prop) : Prop where
  pure : ∀ {α k} {a : α}, Leads α k k (pure a) D.zero
  unsupported : ∀ {α k k' s what x}, Leads α k k' (unsupported s what) x
  bind : ∀ {α β k k₁ k' x y} {act : LowerM α} {f : α → LowerM β}, Leads α k k₁ act x →
    (∀ a, Leads β k₁ k' (f a) y) → Leads β k k' (act >>= f) (D.add x y)

/-- A statement of which enough is known leaves what it is to leave. -/
def Deposits.StmtLeads (D : Deposits R μ) (Leads : (α : Type) → κ → κ → LowerM α → μ → Prop) (k : κ)
    (s : Stmt) : Prop :=
  R.stmt k s → Leads _ k (R.after k s) (stmt s) (D.ofStmt k s)

/-- The steps of lowering leave what is to be left. -/
structure Deposits.Kept (D : Deposits R μ)
    (Leads : (α : Type) → κ → κ → LowerM α → μ → Prop) : Prop where
  chained : D.Chained Leads
  reopen : ∀ {k}, Leads _ k k reopen D.reopening
  openIf : ∀ {k}, Leads _ k k openIf D.opening
  startBlock : ∀ {k id label}, Leads _ k k (startBlock id label) D.zero
  branchTo : ∀ {k id}, Leads _ k k (terminate (.br id)) D.zero
  openArm : ∀ {k e join label more}, R.cond k e →
    Leads _ k k (openArm join label e more) (D.ofCond k e)
  inScope : ∀ {k k' ss s x}, R.body k ss → Leads _ k k' (stmts ss) x →
    Leads _ k (R.past k ss) (inScope s (stmts ss)) (D.enclosed x)
  fnDef : ∀ {k k' sig ss s}, R.stmt k (.fnDef sig ss s) →
    Leads _ (R.inside k sig) k' (stmts ss) (D.ofBody (R.inside k sig) ss) →
    Leads _ k (R.after k (.fnDef sig ss s)) (stmt (.fnDef sig ss s)) (D.ofStmt k (.fnDef sig ss s))
  varDef : ∀ {k name ty init s}, D.StmtLeads Leads k (.varDef name ty init s)
  structDef : ∀ {k name members s}, D.StmtLeads Leads k (.structDef name members s)
  fnDecl : ∀ {k sig s}, D.StmtLeads Leads k (.fnDecl sig s)
  varSet : ∀ {k target e s}, D.StmtLeads Leads k (.varSet target e s)
  memberSet : ∀ {k target e s}, D.StmtLeads Leads k (.memberSet target e s)
  expr : ∀ {k e s}, D.StmtLeads Leads k (.expr e s)
  return_ : ∀ {k e s}, D.StmtLeads Leads k (.return_ e s)

/-- A relation between the states before and after, of which runs of `act` are part. -/
def Relates (Rel : κ → κ → State → State → μ → Prop) (α : Type) (k k' : κ) (act : LowerM α)
    (x : μ) : Prop :=
  ∀ st a st', Runs act st a st' → Rel k k' st st' x

theorem Deposits.Chained.relates {Rel : κ → κ → State → State → μ → Prop}
    (hrefl : ∀ k st, Rel k k st st D.zero)
    (htrans : ∀ {k k₁ k' x y} {st st₁ st' : State}, Rel k k₁ st st₁ x → Rel k₁ k' st₁ st' y →
      Rel k k' st st' (D.add x y)) : D.Chained (Relates Rel) where
  pure := by
    intro α k a st _ st' hrun
    obtain ⟨-, rfl⟩ := runs_pure.mp hrun
    exact hrefl k _
  unsupported _ _ _ hrun := absurd hrun not_runs_unsupported
  bind := by
    intro α β k k₁ k' x y act f hact hf st b st' hrun
    obtain ⟨a, st₁, h₁, h₂⟩ := runs_bind.mp hrun
    exact htrans (hact _ _ _ h₁) (hf a _ _ _ h₂)

namespace Deposits.Chained

variable {act : LowerM α} {f : α → LowerM β} (h : D.Chained Leads)

include h

/-- After a step that leaves nothing. -/
theorem after (hact : Leads α k k₁ act D.zero) (hf : ∀ a, Leads β k₁ k' (f a) x) :
    Leads β k k' (act >>= f) x :=
  D.zero_add x ▸ h.bind hact hf

/-- Before a step that leaves nothing. -/
theorem before (hact : Leads α k k₁ act x) (hf : ∀ a, Leads β k₁ k' (f a) D.zero) :
    Leads β k k' (act >>= f) x :=
  D.add_zero x ▸ h.bind hact hf

end Deposits.Chained

namespace Deposits.Kept

theorem arm (h : D.Kept Leads) {e : Expr} (he : R.cond k e) {body : LowerM Unit}
    (hbody : Leads _ k k₁ body x) {otherwise : Option (Ir.BlockId → LowerM Unit)}
    (hother : ∀ act ∈ otherwise, ∀ here, Leads _ k₁ k' (act here) y)
    (hnone : otherwise = none → k₁ = k' ∧ y = D.zero) (join : Ir.BlockId) (label : String) :
    Leads _ k k' (arm join label e body otherwise) (D.add (D.ofCond k e) (D.add x y)) := by
  refine h.chained.bind (h.openArm he) fun no => h.chained.bind hbody fun _ =>
    h.chained.after h.branchTo fun _ => ?_
  cases otherwise with
  | none =>
    obtain ⟨rfl, rfl⟩ := hnone rfl
    exact h.chained.pure
  | some act => exact hother act rfl no

/-- What is not there leaves nothing. -/
theorem alternative_none (D : Deposits R μ) (k : κ) {a : Alternative} {s : Span} {join : Ir.BlockId}
    (h : alternative s join a = none) : k = R.beyond k a ∧ D.ofOtherwise k a = D.zero := by
  obtain rfl := eq_none_of_alternative h
  exact ⟨(R.beyond_none k).symm, D.ofOtherwise_none k⟩

mutual

/-- Every statement leaves what it is to leave. -/
theorem stmt (h : D.Kept Leads) (s : Stmt) (k : κ) (hs : R.stmt k s) :
    Leads _ k (R.after k s) (stmt s) (D.ofStmt k s) := by
  match s with
  | .fnDef sig ss s =>
    obtain ⟨k', hbody⟩ := h.stmts ss (R.inside k sig) (R.fnDef hs)
    exact h.fnDef hs hbody
  | .if_ e ss a s =>
    obtain ⟨he, hss, ha⟩ := R.if_ hs
    obtain ⟨k', hbody⟩ := h.stmts ss k hss
    rw [R.after_if, D.ofStmt_if]
    unfold Lowering.stmt
    refine h.chained.bind h.openIf fun join => h.chained.before ?_ fun _ => h.startBlock
    exact h.arm he (h.inScope hss hbody) (h.alternative a (R.past k ss) ha s join)
      (alternative_none D _) join _
  | .block ss s =>
    obtain ⟨k', hbody⟩ := h.stmts ss k (R.block hs)
    rw [R.after_block, D.ofStmt_block]
    unfold Lowering.stmt
    exact h.inScope (R.block hs) hbody
  | .break_ s | .for_ _ _ s =>
    unfold Lowering.stmt
    exact h.chained.unsupported
  | .varDef .. => exact h.varDef hs
  | .structDef .. => exact h.structDef hs
  | .fnDecl .. => exact h.fnDecl hs
  | .varSet .. => exact h.varSet hs
  | .memberSet .. => exact h.memberSet hs
  | .expr .. => exact h.expr hs
  | .return_ .. => exact h.return_ hs

theorem alternative (h : D.Kept Leads) (a : Alternative) (k : κ) (ha : R.otherwise k a) (s : Span)
    (join : Ir.BlockId) : ∀ act ∈ alternative s join a, ∀ here,
      Leads _ k (R.beyond k a) (act here) (D.ofOtherwise k a) := by
  match a with
  | .none =>
    unfold Lowering.alternative
    simp
  | .else_ ss =>
    obtain ⟨k', hbody⟩ := h.stmts ss k (R.else_ ha)
    rw [R.beyond_else, D.ofOtherwise_else]
    unfold Lowering.alternative
    rintro _ ⟨⟩ here
    exact h.chained.after h.startBlock fun _ =>
      h.chained.before (h.inScope (R.else_ ha) hbody) fun _ => h.branchTo
  | .elif e ss a =>
    obtain ⟨he, hss, ha⟩ := R.elif ha
    obtain ⟨k', hbody⟩ := h.stmts ss k hss
    rw [R.beyond_elif, D.ofOtherwise_elif]
    unfold Lowering.alternative
    rintro _ ⟨⟩ here
    refine h.chained.after h.startBlock fun _ => ?_
    exact h.arm he (h.inScope hss hbody) (h.alternative a (R.past k ss) ha s join)
      (alternative_none D _) join _

theorem stmts (h : D.Kept Leads) (ss : List Stmt) (k : κ) (hss : R.body k ss) :
    ∃ k', Leads _ k k' (stmts ss) (D.ofBody k ss) := by
  match ss with
  | [] =>
    rw [D.ofBody_nil]
    unfold Lowering.stmts
    exact ⟨k, h.chained.pure⟩
  | s :: ss =>
    obtain ⟨k', hrest⟩ := h.stmts ss (R.after k s) (R.cons hss).2
    rw [D.ofBody_cons]
    unfold Lowering.stmts
    refine ⟨k', h.chained.bind h.reopen fun _ => ?_⟩
    exact h.chained.bind (h.stmt s k (R.cons hss).1) fun _ => hrest

end

theorem topLevel (h : D.Kept Leads) (hfree : D.reopening = D.zero) (ss : List Stmt) (k : κ)
    (hss : R.body k ss) : ∃ k', Leads _ k k' (topLevel ss) (D.ofBody k ss) := by
  induction ss generalizing k with
  | nil =>
    rw [D.ofBody_nil]
    exact ⟨k, h.chained.pure⟩
  | cons s ss ih =>
    obtain ⟨k', hrest⟩ := ih (R.after k s) (R.cons hss).2
    rw [D.ofBody_cons, hfree, D.zero_add]
    exact ⟨k', h.chained.bind (h.stmt s k (R.cons hss).1) fun _ => hrest⟩

end Deposits.Kept

end Frontend.Lowering
