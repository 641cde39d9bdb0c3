import Frontend.Proofs.Tasks
import Frontend.Proofs.Tidy

/-!
What the walks over a program that was read come to. Checking, like lowering, calls on itself from
the state in which everything before the call has succeeded, whatever comes of the rest. Wherever a
walk comes to, its table is in range and has room for the scopes that are still to be opened; and
inside a function, the function stays under construction.
-/
namespace Frontend

namespace Check

/-- Something to be checked. -/
inductive Task where
  | stmt (s : Stmt)
  | alternative (s : Span) (a : Alternative)
  | stmts (ss : List Stmt)
  /-- Parameters of a function, or members of a struct. -/
  | params (ps : List Param)

/-- Scopes that are still to be opened, and parameters to be declared. -/
def Task.weight : Task → Nat
  | .stmt s => s.weight
  | .alternative _ a => a.weight
  | .stmts ss => Stmt.totalWeight ss
  | .params _ => 0

/-- Checking the first from `st` checks the second from `st'` on the way. What comes before it has
succeeded. -/
inductive Calls : Task → State → Task → State → Prop where
  | members {name members s st st₁} : Runs (undeclared name) st () st₁ →
      Calls (.stmt (.structDef name members s)) st (.params members)
        { st₁ with names := st₁.names.enterMarked (membersMarker name.name) () }
  | params {sig body s st st₁} : Runs (signature sig false) st () st₁ →
      Calls (.stmt (.fnDef sig body s)) st (.params sig.params)
        { st₁ with names := st₁.names.enter, returns := some sig.ret }
  | function {sig body s st st₁ st₂} : Runs (signature sig false) st () st₁ →
      Runs (sig.params.forM declareParam)
        { st₁ with names := st₁.names.enter, returns := some sig.ret } () st₂ →
      Calls (.stmt (.fnDef sig body s)) st (.stmts body) st₂
  | declared {sig s st st₁} : Runs (signature sig true) st () st₁ →
      Calls (.stmt (.fnDecl sig s)) st (.params sig.params) { st₁ with names := st₁.names.enter }
  | loop {cond body s st st₁} : Runs (checkExpr cond) st () st₁ →
      Calls (.stmt (.for_ cond body s)) st (.stmts body) { st₁ with names := st₁.names.enter }
  | if_ {cond body otherwise s st st₁} : Runs (checkExpr cond) st () st₁ →
      Calls (.stmt (.if_ cond body otherwise s)) st (.stmts body)
        { st₁ with names := st₁.names.enter }
  | otherwise {cond body otherwise s st st₁ body' st₂} : Runs (checkExpr cond) st () st₁ →
      Runs (inScope s (stmts body)) st₁ body' st₂ →
      Calls (.stmt (.if_ cond body otherwise s)) st (.alternative s otherwise) st₂
  | block {body s st} :
      Calls (.stmt (.block body s)) st (.stmts body) { st with names := st.names.enter }
  | else_ {s body st} :
      Calls (.alternative s (.else_ body)) st (.stmts body) { st with names := st.names.enter }
  | elif {s cond body otherwise st st₁} : Runs (checkExpr cond) st () st₁ →
      Calls (.alternative s (.elif cond body otherwise)) st (.stmts body)
        { st₁ with names := st₁.names.enter }
  | elifOtherwise {s cond body otherwise st st₁ body' st₂} : Runs (checkExpr cond) st () st₁ →
      Runs (inScope s (stmts body)) st₁ body' st₂ →
      Calls (.alternative s (.elif cond body otherwise)) st (.alternative s otherwise) st₂
  | first {s ss st} : Calls (.stmts (s :: ss)) st (.stmt s) st
  | next {s ss st s' st₁} : Runs (stmt s) st s' st₁ → Calls (.stmts (s :: ss)) st (.stmts ss) st₁
  | nextParam {p ps st st₁} : Runs (declareParam p) st () st₁ →
      Calls (.params (p :: ps)) st (.params ps) st₁

/-- Checking the first comes to the second in one or more calls, or in none. -/
def Reaches (t : Task) (st : State) (t' : Task) (st' : State) : Prop :=
  Relation.ReflTransGen (fun c c' : Task × State => Calls c.1 c.2 c'.1 c'.2) (t, st) (t', st')

section Steps

variable {most n m : Nat} {t t' : Task} {st st₁ st₂ st' : State}

/-- Into the scope of a function, whose name is declared by then. -/
theorem room_inside {sig : Signature} {isExternal : Bool}
    (hsig : Runs (signature sig isExternal) st () st₁)
    (h : st.names.HasRoom most n) (hlt : m < n) : st₁.names.enter.HasRoom most m := by
  have hnamed : st₁.names.HasRoom most n :=
    h.grows ((signature_clean sig isExternal).runs hsig) (Nat.le_of_eq (Nat.zero_add n))
  exact hnamed.opens (.enter _) hlt

/-- Into a body, after a condition, which leaves the names as they are. -/
theorem room_body {cond : Expr} (hcond : Runs (checkExpr cond) st () st₁)
    (h : st.names.HasRoom most n) (hlt : m < n) : st₁.names.enter.HasRoom most m := by
  obtain ⟨-, rfl⟩ := runs_checkExpr.mp hcond
  exact h.opens (.enter _) hlt

/-- Past that body. -/
theorem room_past {cond : Expr} {body body' : List Stmt} {s : Span}
    (hcond : Runs (checkExpr cond) st () st₁) (hbody : Runs (inScope s (stmts body)) st₁ body' st₂)
    (h : st.names.HasRoom most n) (hle : Stmt.totalWeight body + 1 + m ≤ n) :
    st₂.names.HasRoom most m := by
  obtain ⟨-, rfl⟩ := runs_checkExpr.mp hcond
  exact h.grows ((inScope_clean (stmts_clean body _)).runs hbody) hle

theorem Calls.hasRoom (h : Calls t st t' st') (ht : st.names.HasRoom most t.weight) :
    st'.names.HasRoom most t'.weight := by
  cases h with
  | members hname =>
    obtain ⟨-, rfl⟩ := runs_undeclared.mp hname
    exact ht.opens (.enterMarked _ _ _) Nat.zero_lt_one
  | params hsig | declared hsig => exact room_inside hsig ht (Nat.zero_lt_succ _)
  | @function sig body _ _ _ _ hsig hparams =>
    have hin := room_inside hsig ht (Nat.lt_succ_of_le (Nat.le_add_left (Stmt.totalWeight body) _))
    exact hin.grows ((declareParams_clean sig.params _).runs hparams)
      (Nat.le_of_eq (Nat.zero_add _))
  | loop hcond => exact room_body hcond ht (Nat.lt_succ_self _)
  | if_ hcond | elif hcond =>
    exact room_body hcond ht (Nat.lt_of_lt_of_le (Nat.lt_succ_self _) (Nat.le_add_right _ _))
  | otherwise hcond hbody | elifOtherwise hcond hbody =>
    exact room_past hcond hbody ht (Nat.le_refl _)
  | block | else_ => exact ht.opens (.enter _) (Nat.lt_succ_self _)
  | first => exact ht.mono (Nat.le_add_right _ _)
  | next hs => exact ht.grows ((stmt_clean _ _).runs hs) (Nat.le_refl _)
  | nextParam hp => exact ht.grows ((declareParam_clean _).runs hp) (Nat.le_refl _)

theorem Reaches.hasRoom (h : Reaches t st t' st') (ht : st.names.HasRoom most t.weight) :
    st'.names.HasRoom most t'.weight :=
  carried_along (P := fun c : Task × State => c.2.names.HasRoom most c.1.weight) Calls.hasRoom h ht

end Steps

end Check

namespace Lowering

/-- Scopes that are still to be opened, and parameters to be bound. -/
def Task.weight : Task → Nat
  | .value _ | .address _ | .call _ _ | .arguments _ _ _ => 0
  | .stmt s => s.weight
  | .arm _ _ _ _ body otherwise => Stmt.totalWeight body + 1 + otherwise.weight
  | .alternative _ _ a _ => a.weight
  | .stmts ss | .topLevel ss => Stmt.totalWeight ss

section Steps

variable {most n : Nat} {t t' : Task} {st st₁ st' : State} {s : Stmt}

@[simp] theorem Task.weight_object (arrow : Bool) (object : Expr) :
    (Task.object arrow object).weight = 0 := by
  cases arrow <;> rfl

/-- What a call finds of what its caller had: a table with room for what is to be lowered, and
around it the functions that were open there. -/
structure Hands (n m : Nat) (st st' : State) : Prop where
  room : ∀ most, st.names.HasRoom most n → st'.names.HasRoom most m
  enclosing : st.enclosing <:+ st'.enclosing

namespace Hands

variable {n m k : Nat}

theorem refl (st : State) (h : m ≤ n) : Hands n m st st := ⟨fun _ hr => hr.mono h, List.suffix_rfl⟩

theorem trans (h : Hands n k st st₁) (h' : Hands k m st₁ st') : Hands n m st st' :=
  ⟨fun most hr => h'.room most (h.room most hr), h.enclosing.trans h'.enclosing⟩

/-- Past something that closes the scopes it opens and finishes the functions it starts. -/
theorem past {act : LowerM α} {a : α} (hact : Clean k act st) (hrun : Runs act st a st')
    (henclosing : st'.enclosing = st.enclosing) (hle : k + m ≤ n) : Hands n m st st' :=
  ⟨fun _ hr => hr.grows (hact.runs hrun) hle, henclosing ▸ List.suffix_rfl⟩

/-- Past something that only adds to the code. -/
theorem extending {act : LowerM α} (hact : Extending act) {a : α} (hrun : Runs act st a st') :
    Hands n n st st' := by
  obtain ⟨code, rfl⟩ := hact _ _ _ hrun
  exact ⟨fun _ hr => hr, List.suffix_rfl⟩

/-- Into a scope. -/
theorem enter (st : State) (h : m < n) : Hands n m st { st with names := st.names.enter } :=
  ⟨fun _ hr => hr.opens (.enter _) h, List.suffix_rfl⟩

/-- Into a function. -/
theorem function {sig : Signature} {body : List Stmt} {low : LoweredSig} {id : Nat}
    {st₂ st₃ : State} (hsig : Runs (signature sig false) st low st₁) (hid : Runs freshId st₁ id st₂)
    (hparams : Runs (bindParams sig.params low.params id) { st₂ with
      enclosing := st₂.current :: st₂.enclosing
      current := .start id low.name low.params low.ret
      names := st₂.names.enter } () st₃) :
    Hands (sig.params.length + Stmt.totalWeight body + 1) (Stmt.totalWeight body) st st₃ := by
  have hnamed := (signature_clean sig false).runs hsig
  have hbound := (forM_bind_clean _ (by simp) _ _).runs hparams
  obtain ⟨-, hst₁⟩ := signature_inv hsig
  obtain ⟨-, hst₂⟩ := runs_freshId.mp hid
  have hst₃ := runs_bindParams.mp hparams
  refine ⟨fun most hr => ?_, ⟨[st.current], ?_⟩⟩
  · have hself : st₂.names.HasRoom most (sig.params.length + Stmt.totalWeight body + 1) := by
      rw [hst₂]
      exact hr.grows hnamed (Nat.le_of_eq (Nat.zero_add _))
    have hin := hself.opens (.enter _) (Nat.lt_succ_of_le (Nat.le_add_left _ _))
    exact hin.grows hbound (Nat.le_of_eq (Nat.zero_add _))
  · rw [hst₃, hst₂, hst₁]
    rfl

end Hands

/-- Code is added in other blocks, and the table stays. -/
theorem openArm_hands {join no : Ir.BlockId} {label : String} {cond : Expr} {more : Bool}
    (h : Runs (openArm join label cond more) st no st') : Hands n n st st' := by
  obtain ⟨hp, -⟩ : Passes [] [] [] st st' ∧ _ := openArm_passes h
  have hclean : Clean 0 (openArm join label cond more) st :=
    (openArm_consults fun _ h => h.reported).clean
  exact .past hclean h hp.enclosing (Nat.le_of_eq (Nat.zero_add n))

theorem reopen_hands (h : Runs reopen st () st') : Hands n n st st' := by
  obtain ⟨hp, -⟩ : Passes [] [] [] st st' ∧ _ := reopen_advances h
  exact .past reopen_consults.clean h hp.enclosing (Nat.le_of_eq (Nat.zero_add n))

theorem stmt_hands (h : Runs (stmt s) st () st') : Hands (s.weight + n) n st st' := by
  obtain ⟨new, hp, -⟩ := stmt_passes s [] h
  exact .past (stmt_clean s st) h hp.enclosing (Nat.le_refl _)

theorem inScope_hands {body : List Stmt} {s : Span} (h : Runs (inScope s (stmts body)) st () st') :
    Hands (Stmt.totalWeight body + 1 + n) n st st' := by
  obtain ⟨hp, -⟩ := Advances.inScope (fun _ _ => stmts_passes body []) h
  exact .past (inScope_clean (stmts_clean body _)) h hp.enclosing (Nat.le_refl _)

theorem Calls.hands (h : Calls t st t' st') : Hands t.weight t'.weight st st' := by
  have hext := emitting_extending
  cases h with
  | paren | unary | bit | call | argument | parenAddress => exact .refl _ (Nat.le_refl _)
  | member | memberAddress => exact .refl _ (by simp)
  | nextBit _ hrun =>
    exact .extending (hext.bind (hext.tallying.value _) fun _ => hext.computing.truthy) hrun
  | left _ hrun => exact .extending (meet_extending _ _ _) hrun
  | right _ hmeet hrun =>
    exact (Hands.extending (meet_extending _ _ _) hmeet).trans
      (.extending (hext.bind (hext.tallying.value _) fun _ => hext.computing.convert _) hrun)
  | cast hrun => exact .extending (hext.lowerType _) hrun
  | callee hrun => exact .extending (hext.named? _) hrun
  | arguments hrun => exact .extending (hext.callTarget (n := 0) (hext.tallying.value _)) hrun
  | nextArguments hrun =>
    exact .extending (hext.bind (hext.tallying.value _) fun _ => hext.computing.argument _ _) hrun
  | initial hrun => exact .extending (hext.bind (hext.lowerType _) fun _ => hext.emitReg _) hrun
  | assigned hlook howned =>
    exact (Hands.extending (hext.lookup _) hlook).trans
      (.extending (hext.computing.ownedHere _ _) howned)
  | target => exact .refl _ (by simp)
  | assignedMember hrun =>
    exact .extending
      (hext.memberAddress (n := 0) (hext.tallying.value _) (hext.tallying.address _)) hrun
  | effect | effectCall | returned => exact .refl _ (Nat.le_refl _)
  | if_ hopen =>
    obtain ⟨first, n, rfl⟩ := openIf_inv hopen
    exact ⟨fun _ hr => hr, List.suffix_rfl⟩
  | block => exact .enter _ (Nat.lt_succ_self _)
  | function hsig hid hparams => exact .function hsig hid hparams
  | cond => exact .refl _ (Nat.zero_le _)
  | body hopen =>
    refine (openArm_hands hopen).trans (.enter _ ?_)
    exact Nat.lt_of_lt_of_le (Nat.lt_succ_self _) (Nat.le_add_right _ _)
  | otherwise hopen hbody hterm =>
    obtain rfl := runs_terminate.mp hterm
    refine (openArm_hands hopen).trans ((inScope_hands hbody).trans ?_)
    exact ⟨fun _ hr => hr, List.suffix_rfl⟩
  | else_ hstart =>
    obtain rfl := runs_startBlock.mp hstart
    exact ⟨fun _ hr => hr.opens (.enter _) (Nat.lt_succ_self _), List.suffix_rfl⟩
  | elif hstart =>
    obtain rfl := runs_startBlock.mp hstart
    exact ⟨fun _ hr => hr, List.suffix_rfl⟩
  | first hopen => exact (reopen_hands hopen).trans (.refl _ (Nat.le_add_right _ _))
  | next hrun =>
    obtain ⟨_, st₁, hopen, hs⟩ := runs_bind.mp hrun
    exact (reopen_hands hopen).trans (stmt_hands hs)
  | topFirst => exact .refl _ (Nat.le_add_right _ _)
  | topNext hs => exact stmt_hands hs

theorem Reaches.hands (h : Reaches t st t' st') : Hands t.weight t'.weight st st' :=
  carried_along (P := fun c : Task × State => Hands t.weight c.1.weight st c.2)
    (fun hcall hbefore => hbefore.trans hcall.hands) h (.refl st (Nat.le_refl _))

theorem Calls.in_function (hs : s.isDefinition) (h : Calls (.stmt s) st t st') :
    st'.enclosing ≠ [] := by
  cases h with
  | function hsig hid hparams =>
    rw [runs_bindParams.mp hparams]
    exact List.cons_ne_nil _ _
  | _ => cases hs

/-- All code is made in a function: whatever a definition calls on stands in one. -/
theorem Reaches.in_function (hs : s.isDefinition) (h : Reaches (.stmt s) st t st') :
    (t = .stmt s ∧ st' = st) ∨ st'.enclosing ≠ [] := by
  obtain heq | ⟨⟨t₁, st₁⟩, hcall, hrest⟩ := Relation.ReflTransGen.cases_head h
  · cases heq
    exact .inl ⟨rfl, rfl⟩
  · have hopen : st₁.enclosing ≠ [] := Calls.in_function hs hcall
    exact .inr fun hnil => hopen (List.suffix_nil.mp (hnil ▸ (Reaches.hands hrest).enclosing))

end Steps

end Lowering

end Frontend
