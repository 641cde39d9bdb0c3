import Frontend.Proofs.Deposits

/-!
What lowering is made of. A property that single steps have, and that composed steps have if their
parts do, is one of every expression and of every statement. The walk over the tree is made here,
once for all such properties, and each of them has only the single steps to look at. A property may
tell what a step comes to; an expression then comes to what its parts come to. It may also bound the
registers that a step takes; those of an expression are bounded by its outlay.
-/
namespace Frontend

/-- The instruction works on what is there. It makes no cell and no constant, but for a zero to
compare with; it calls nothing, and asks for the address of neither a field nor a function. -/
def Ir.Op.Computes : Op → Prop
  | .const ty c => ty.isInt ∧ c = .int 0 ∨ ty.isFloat ∧ c = .float 0
  | .alloca _ | .call _ _ | .callPtr _ _ | .fieldPtr _ _ | .funcRef _ => False
  | _ => True

mutual

/-- Registers that the value of an expression takes at most. -/
def Expr.outlay : Expr → Nat
  | .literal _ _ _ | .ident _ => 1
  | .paren inner _ => inner.outlay
  | .unary _ operand _ => operand.outlay + 3
  | .binary _ lhs rhs _ => lhs.outlay + rhs.outlay + 5
  | .cast operand _ _ => operand.outlay + 2
  | .call callee args _ => callee.outlay + Expr.totalOutlay args + 1
  | .member object _ _ _ => object.outlay + 2

/-- Each argument may have to be converted. -/
def Expr.totalOutlay : List Expr → Nat
  | [] => 0
  | e :: es => e.outlay + 2 + Expr.totalOutlay es

end

namespace Lowering

open ScopeTable (Entering)

/-- What holds of the steps that compute with operands, once names and types are known, and of the
registers they take at most. -/
structure Computing (P : ∀ α, LowerM α → Nat → Prop) : Prop where
  pure {α} (a : α) : P _ (pure a) 0
  unsupported {α} (s : Span) {what : Unsupported} : what ≠ .illTyped → P α (unsupported s what) 0
  bind {α β} {act : LowerM α} {f : α → LowerM β} {m n : Nat} :
    P _ act m → (∀ a, P _ (f a) n) → P _ (act >>= f) (m + n)
  mono {α} {act : LowerM α} {m n : Nat} : P _ act m → m ≤ n → P _ act n
  emitReg {op : Ir.Op} : op.Computes → P _ (emitReg op) 1
  ownedHere (owner : Nat) (s : Span) : P _ (ownedHere owner s) 0

/-- What holds of steps that are taken one after the other and ask for the names in sight. -/
structure Sequenced (P : ∀ α, LowerM α → Prop) : Prop where
  pure {α} (a : α) : P _ (pure a)
  fail {α} (s : Span) (e : LowerError) : P α (fail s e)
  bind {α β} {act : LowerM α} {f : α → LowerM β} : P _ act → (∀ a, P _ (f a)) → P _ (act >>= f)
  asking {α} {f : State → LowerM α} :
    (∀ st b bs, f { st with current := b, enclosing := bs } = f st) → (∀ st, P _ (f st)) →
      P _ (get >>= f)

/-- What holds of steps, what they come to and the registers they take. `items` is what an
expression comes to: of the names, literals and calls in it, in order. -/
structure Tallying {τ : Type} (P : ∀ α, LowerM α → List τ → Nat → Prop) (items : Expr → List τ)
    (allItems : List Expr → List τ) : Prop where
  computing : Computing fun _ act n => P _ act [] n
  sequenced : Sequenced fun _ act => P _ act [] 0
  unsupported {α} (s : Span) (what : Unsupported) (xs : List τ) : P α (unsupported s what) xs 0
  bind {α β} {act : LowerM α} {f : α → LowerM β} {xs ys : List τ} {m n : Nat} :
    P _ act xs m → (∀ a, P _ (f a) ys n) → P _ (act >>= f) (xs ++ ys) (m + n)
  mono {α} {act : LowerM α} {xs : List τ} {m n : Nat} : P _ act xs m → m ≤ n → P _ act xs n
  ask {α} {f : State → LowerM α} {xs : List τ} {n : Nat} :
    (∀ st bs, f { st with enclosing := bs } = f st) → (∀ st, P _ (f st) xs n) → P _ (get >>= f) xs n
  field (ptr : Ir.Reg) : P _ (emitReg (.fieldPtr ptr 0)) [] 1
  store (ptr r : Ir.Reg) : P _ (emitVoid (.store ptr r)) [] 0
  literal (v : Value) (ty : Ty) (s : Span) :
    P _ (value (.literal v ty s)) (items (.literal v ty s)) 1
  ident (id : Ident) : P _ (ident id) (items (.ident id)) 1
  identAddress (id : Ident) : P _ (identAddress id) (items (.ident id)) 0
  call {callee : Expr} {args : List Expr} (s : Span) {value : LowerM Operand} {m n : Nat}
    {lowerArgs : List Ir.Ty → Bool → LowerM (List Ir.Reg)} : P _ value (items callee) m →
    (∀ params variadic, P _ (lowerArgs params variadic) (allItems args) n) →
    P _ (call callee value lowerArgs) (items (.call callee args s)) (m + n + 1)
  paren (e : Expr) (s : Span) : items (.paren e s) = items e
  unary (op : UnaryOp) (e : Expr) (s : Span) : items (.unary op e s) = items e
  binary (op : BinaryOp) (l r : Expr) (s : Span) : items (.binary op l r s) = items l ++ items r
  cast (e : Expr) (ty : Ty) (s : Span) : items (.cast e ty s) = items e
  member (e : Expr) (field : Ident) (arrow : Bool) (s : Span) :
    items (.member e field arrow s) = items e
  nil : allItems [] = []
  cons (e : Expr) (es : List Expr) : allItems (e :: es) = items e ++ allItems es

/-- What holds of the steps by which an expression is lowered as well. They add instructions to the
current block, and do not ask what functions are around the current one. -/
structure Emitting (P : ∀ α, LowerM α → Nat → Prop) : Prop extends
    Sequenced fun _ act => P _ act 0 where
  chain {α β} {act : LowerM α} {f : α → LowerM β} {m n : Nat} :
    P _ act m → (∀ a, P _ (f a) n) → P _ (act >>= f) (m + n)
  bind := chain
  mono {α} {act : LowerM α} {m n : Nat} : P _ act m → m ≤ n → P _ act n
  ask {α} {f : State → LowerM α} {n : Nat} : (∀ st bs, f { st with enclosing := bs } = f st) →
    (∀ st, P _ (f st) n) → P _ (get >>= f) n
  emitReg (op : Ir.Op) : P _ (emitReg op) 1
  emitVoid (op : Ir.Op) : P _ (emitVoid op) 0

/-- What holds of the steps by which a struct or a signature is lowered as well. They bind names,
and close the scopes that they open. -/
structure Defining (P : ∀ α, LowerM α → Prop) : Prop extends Sequenced P where
  bindName (b : Binding Handle) : P _ (Lowering.bind b)
  functionName (base : String) : P _ (functionName base)
  addStruct (l : Ir.Layout) : P _ (modify fun st => { st with module := st.module.addStruct l })
  within {α} {act : LowerM α} (s : Span) {enter : ScopeTable Handle → ScopeTable Handle} :
    Entering enter → P _ act → P _ (within s enter act)

/-- What holds of the steps by which a statement is lowered as well. They start and end blocks, and
add functions. -/
structure Composed (P : ∀ α, LowerM α → Prop) : Prop extends
    Emitting (fun _ act _ => P _ act), Defining P where
  freshBlock : P _ freshBlock
  startBlock (id : Ir.BlockId) (label : String) : P _ (startBlock id label)
  terminate (t : Ir.Terminator) : P _ (terminate t)
  freshId : P _ freshId
  addFunc (f : Ir.Func) : P _ (addFunc f)
  inFunction {α} {act : LowerM α} (s : Span) (b : Ir.Builder) :
    P _ act → P _ (inFunction s b act)

section Operations

variable {v : Operand} {ty target : Ir.Ty} {op : BinaryOp} {l r : Ir.Reg}

theorem conversion?_computes {op : Ir.Op} (h : conversion? v target = some op) : op.Computes := by
  unfold conversion? at h
  extract_lets at h
  split_ifs at h <;> cases h <;> trivial

theorem binaryOp_computes {t : Ir.Ty} {o : Ir.Op} (h : binaryOp op ty l r = .ok (o, t)) :
    o.Computes := by
  simp only [binaryOp] at h
  cases hf : floatOp? op <;> cases hi : intOp? op <;> simp only [hf, hi] at h <;>
    split_ifs at h <;> cases h <;> trivial

theorem binaryOp_error {what : Unsupported} (h : binaryOp op ty l r = .error what) :
    what ≠ .illTyped := by
  rintro rfl
  simp only [binaryOp] at h
  cases hf : floatOp? op <;> cases hi : intOp? op <;> simp only [hf, hi] at h <;>
    split_ifs at h <;> cases h

end Operations

namespace Computing

variable {P : ∀ α, LowerM α → Nat → Prop} {v : Operand} {s : Span} (h : Computing P)

include h

theorem emit {op : Ir.Op} (ty : Ir.Ty) (hop : op.Computes) : P _ (emit op ty) 1 :=
  h.bind (h.emitReg hop) fun _ => h.pure _

/-- What is not done takes nothing. -/
theorem idle {act : LowerM α} {n : Nat} (hact : P _ act 0) : P _ act n :=
  h.mono hact (Nat.zero_le n)

theorem read (ptr : Ir.Reg) (ty : Ir.Ty) : P _ (read ptr ty) 1 := by
  unfold Lowering.read
  split
  · exact h.idle (h.pure _)
  · exact h.emit _ trivial

theorem truthy : P _ (truthy v s) 2 := by
  unfold Lowering.truthy
  split
  · exact h.idle (h.pure _)
  split
  · rename_i hint
    exact h.bind (m := 1) (n := 1) (h.emit _ (.inl ⟨hint, rfl⟩)) fun _ => h.emit _ trivial
  split
  · rename_i hfloat
    exact h.bind (m := 1) (n := 1) (h.emit _ (.inr ⟨hfloat, rfl⟩)) fun _ => h.emit _ trivial
  · exact h.idle (h.unsupported _ nofun)

theorem convert (target : Ir.Ty) : P _ (convert v target s) 2 := by
  unfold Lowering.convert
  split
  · exact h.idle (h.pure _)
  split
  · exact h.truthy
  split
  · rename_i hop
    exact h.mono (h.emit _ (conversion?_computes hop)) (by decide)
  · exact h.idle (h.unsupported _ nofun)

theorem unary (op : UnaryOp) : P _ (unary op v s) 3 := by
  have hemit {op : Ir.Op} (ty : Ir.Ty) (hop : op.Computes) : P _ (Lowering.emit op ty) 3 :=
    h.mono (h.emit ty hop) (by decide)
  unfold Lowering.unary
  split
  · exact h.bind (m := 2) (n := 1) h.truthy fun _ => h.emit _ trivial
  · split
    · exact hemit _ trivial
    split
    · exact hemit _ trivial
    · exact h.idle (h.unsupported _ nofun)
  · split
    · exact hemit _ trivial
    · exact h.idle (h.unsupported _ nofun)
  · split
    · exact hemit _ trivial
    · exact h.idle (h.unsupported _ nofun)
  · split
    · split
      · exact hemit _ trivial
      · exact h.idle (h.unsupported _ nofun)
    · exact h.idle (h.unsupported _ nofun)

theorem apply (op : BinaryOp) (ty : Ir.Ty) (l r : Ir.Reg) : P _ (apply op ty l r s) 1 := by
  unfold Lowering.apply
  split
  · rename_i hop
    exact h.emit _ (binaryOp_computes hop)
  · rename_i hop
    exact h.idle (h.unsupported _ (binaryOp_error hop))

theorem pointedTo : P _ (pointedTo v s) 0 := by
  unfold Lowering.pointedTo
  split
  · exact h.pure _
  · exact h.unsupported _ nofun

theorem argument (param : Option Ir.Ty) (variadic : Bool) :
    P _ (argument param variadic v s) 2 := by
  unfold Lowering.argument
  split
  · exact h.convert _
  split
  · exact h.convert _
  · exact h.idle (h.pure _)

theorem structPointer : P _ (structPointer v s) 0 := by
  unfold Lowering.structPointer
  split
  · exact h.pure _
  · exact h.unsupported _ nofun

end Computing

variable {P : ∀ α, LowerM α → Prop}

namespace Sequenced

variable {s : Span} (h : Sequenced P)

include h

theorem unsupported (what : Unsupported) : P α (unsupported s what) := h.fail s _

theorem mapM {f : α → LowerM β} (hf : ∀ a, P _ (f a)) (as : List α) : P _ (as.mapM f) := by
  induction as with
  | nil =>
    rw [List.mapM_nil]
    exact h.pure _
  | cons a as ih =>
    rw [List.mapM_cons]
    exact h.bind (hf a) fun _ => h.bind ih fun _ => h.pure _

theorem forM {f : α → LowerM PUnit} (hf : ∀ a, P _ (f a)) (as : List α) : P _ (as.forM f) := by
  induction as with
  | nil => exact h.pure _
  | cons a as ih => exact h.bind (hf a) fun _ => ih

theorem lookup (id : Ident) : P _ (lookup id) := by
  refine h.asking (fun _ _ _ => rfl) fun st => ?_
  split
  · exact h.pure _
  · exact h.fail _ _

theorem lowerType (ty : Ty) : P _ (lowerType ty s) := by
  refine h.asking (fun _ _ _ => rfl) fun st => ?_
  split
  · exact h.pure _
  · exact h.unsupported _
  · exact h.fail _ _

theorem lowerParam (p : Param) : P _ (lowerParam p) := h.bind (h.lowerType _) fun _ => h.pure _

theorem infer (e : Expr) : P _ (infer e) := by
  refine h.asking (fun _ _ _ => rfl) fun st => ?_
  cases e.infer st.names with
  | ok ty => exact h.pure ty
  | error ie => exact h.fail _ _

theorem joined (l r : Ty) : P _ (joined l r s) := by
  unfold Lowering.joined
  split
  · exact h.pure _
  · exact h.fail _ _

theorem named? (callee : Expr) : P _ (named? callee) := by
  unfold Lowering.named?
  split
  · refine h.bind (h.lookup _) fun handle => ?_
    split
    · exact h.pure _
    · exact h.pure _
  · exact h.pure _

end Sequenced

namespace Defining

variable (h : Defining P)

include h

theorem inScope {act : LowerM α} (s : Span) (hact : P _ act) : P _ (inScope s act) :=
  h.within s .enter hact

theorem struct_ (name : Ident) (members : List Param) (s : Span) :
    P _ (struct_ name members s) := by
  refine h.bind (h.mapM (fun m => h.bind (h.lowerType _) fun _ => h.pure _) _) fun fields => ?_
  refine h.asking (fun _ _ _ => rfl) fun st => h.bind ?_ fun _ => ?_
  · exact h.within s (.enterMarked _ _) (h.forM (fun m => h.bindName _) _)
  · exact h.bind (h.bindName _) fun _ => h.addStruct _

theorem signature (sig : Signature) (isExternal : Bool) : P _ (signature sig isExternal) := by
  refine h.bind (h.lowerType _) fun ret => h.bind (h.mapM h.lowerParam _) fun params => ?_
  exact h.bind (h.functionName _) fun name => h.bind (h.bindName _) fun _ => h.pure _

theorem bindParams (params : List Param) (tys : List Ir.Ty) (owner : Nat) :
    P _ (bindParams params tys owner) :=
  h.forM (fun _ => h.bindName _) _

end Defining

namespace Tallying

section Parts

variable {τ : Type} {P : ∀ α, LowerM α → List τ → Nat → Prop} {items : Expr → List τ}
  {allItems : List Expr → List τ} (h : Tallying P items allItems) {act : LowerM α}
  {f : α → LowerM β} {xs : List τ} {m n : Nat}

include h

/-- After a step that comes to nothing. -/
theorem lead (hact : P _ act [] m) (hf : ∀ a, P _ (f a) xs n) : P _ (act >>= f) xs (m + n) :=
  h.bind hact hf

/-- After a step that takes nothing either. -/
theorem after (hact : P _ act [] 0) (hf : ∀ a, P _ (f a) xs n) : P _ (act >>= f) xs n :=
  h.mono (h.lead hact hf) (Nat.le_of_eq (Nat.zero_add n))

/-- Before a step that comes to nothing. -/
theorem trail (hact : P _ act xs m) (hf : ∀ a, P _ (f a) [] n) : P _ (act >>= f) xs (m + n) := by
  simpa using h.bind hact hf

theorem idle {s : Span} {what : Unsupported} : P α (Lowering.unsupported s what) xs n :=
  h.mono (h.unsupported s what xs) (Nat.zero_le n)

theorem memberAddress {whole : Expr} {arrow : Bool} {value : LowerM Operand}
    {address : LowerM Ir.Reg} (hvalue : P _ value xs n) (haddress : P _ address xs n) :
    P _ (memberAddress whole arrow value address) xs (n + 1) := by
  have hptr : P _ (bif arrow then value >>= (structPointer · whole.span) else address) xs n := by
    cases arrow with
    | false => exact haddress
    | true => exact h.trail hvalue fun _ => h.computing.structPointer
  refine h.trail hptr fun ptr => h.after (h.sequenced.infer _) fun _ => ?_
  exact h.after (h.sequenced.lowerType _) fun _ => h.lead (h.field ptr) fun _ => h.sequenced.pure _

end Parts

variable {τ : Type} {P : ∀ α, LowerM α → List τ → Nat → Prop} {items : Expr → List τ}
  {allItems : List Expr → List τ}

mutual

/-- Every expression has the property, with what it comes to and its outlay. -/
theorem value (h : Tallying P items allItems) (e : Expr) : P _ (value e) (items e) e.outlay := by
  match e with
  | .literal v ty s => exact h.literal v ty s
  | .ident id =>
    unfold Lowering.value
    exact h.ident id
  | .paren inner s =>
    rw [h.paren]
    unfold Lowering.value
    exact h.value inner
  | .unary op operand s =>
    rw [h.unary]
    unfold Lowering.value
    exact h.trail (h.value operand) fun _ => h.computing.unary _
  | .binary op lhs rhs s =>
    have hl := h.value lhs
    have hr := h.value rhs
    rw [h.binary]
    unfold Lowering.value Expr.outlay
    split
    · refine h.mono (h.bind hl fun _ => h.lead h.computing.truthy fun _ => h.trail hr fun _ =>
        h.lead h.computing.truthy fun _ => h.computing.emit _ trivial) ?_
      omega
    · refine h.after (h.sequenced.infer _) fun _ => h.after (h.sequenced.infer _) fun _ => ?_
      refine h.after (h.sequenced.joined _ _) fun _ => h.after (h.sequenced.lowerType _) fun _ => ?_
      refine h.mono (h.bind hl fun _ => h.lead (h.computing.convert _) fun _ => h.trail hr fun _ =>
        h.lead (h.computing.convert _) fun _ => h.computing.apply _ _ _ _) ?_
      omega
  | .cast operand ty s =>
    rw [h.cast]
    unfold Lowering.value
    refine h.after (h.sequenced.lowerType _) fun _ => h.trail (h.value operand) fun _ => ?_
    exact h.computing.convert _
  | .call callee args s =>
    have hcall := h.call s (h.value callee) fun params variadic => h.arguments params variadic args
    unfold Lowering.value
    refine h.trail (n := 0) hcall fun v => ?_
    cases v with
    | some v => exact h.sequenced.pure _
    | none => exact h.unsupported _ _ _
  | .member object field arrow s =>
    rw [h.member]
    unfold Lowering.value
    exact h.trail (n := 1) (h.memberAddress (h.value object) (h.address object)) fun _ =>
      h.computing.read _ _

theorem arguments (h : Tallying P items allItems) (params : List Ir.Ty) (variadic : Bool)
    (es : List Expr) : P _ (arguments params variadic es) (allItems es) (Expr.totalOutlay es) := by
  match es with
  | [] =>
    rw [h.nil]
    unfold Lowering.arguments
    exact h.sequenced.pure _
  | e :: es =>
    rw [h.cons]
    unfold Lowering.arguments Expr.totalOutlay
    refine h.mono (h.bind (h.value e) fun _ => h.lead (h.computing.argument _ _) fun _ =>
      h.trail (h.arguments _ _ es) fun _ => h.sequenced.pure _) ?_
    omega

theorem address (h : Tallying P items allItems) (e : Expr) :
    P _ (address e) (items e) e.outlay := by
  match e with
  | .paren inner s =>
    rw [h.paren]
    unfold Lowering.address
    exact h.address inner
  | .member object field arrow s =>
    rw [h.member]
    unfold Lowering.address
    refine h.mono (h.trail (h.memberAddress (h.value object) (h.address object)) fun _ =>
      h.sequenced.pure _) (Nat.le_succ _)
  | .ident id =>
    unfold Lowering.address
    exact h.mono (h.identAddress id) (Nat.zero_le _)
  | .literal .. | .unary .. | .binary .. | .cast .. | .call .. =>
    unfold Lowering.address
    exact h.idle

end

section Uses

variable (h : Tallying P items allItems)

include h

theorem valueAs (target : Ir.Ty) (e : Expr) : P _ (valueAs target e) (items e) (e.outlay + 2) :=
  h.trail (h.value e) fun _ => h.computing.convert _

theorem storeAs (ptr : Ir.Reg) (ty : Ir.Ty) (e : Expr) :
    P _ (storeAs ptr ty e) (items e) (e.outlay + 2) :=
  h.trail (n := 0) (h.valueAs _ _) fun _ => h.store _ _

theorem assign (target : Ident) (e : Expr) : P _ (assign target e) (items e) (e.outlay + 2) := by
  refine h.after (h.sequenced.lookup _) fun handle => ?_
  split
  · exact h.after (h.computing.ownedHere _ _) fun _ => h.storeAs _ _ _
  · exact h.idle
  · exact h.idle

theorem assignMember (target e : Expr) :
    P _ (assignMember target e) (items target ++ items e) (target.outlay + (e.outlay + 2)) := by
  unfold Lowering.assignMember
  split
  · rw [h.member]
    refine h.mono (h.bind (h.memberAddress (h.value _) (h.address _)) fun _ => h.storeAs _ _ _) ?_
    exact Nat.add_le_add_right (Nat.le_succ _) _
  · exact h.idle

theorem effect (e : Expr) : P _ (effect e) (items e) e.outlay := by
  unfold Lowering.effect
  split
  · exact h.trail (n := 0) (h.call _ (h.value _) fun _ _ => h.arguments _ _ _) fun _ =>
      h.sequenced.pure _
  · exact h.trail (h.value _) fun _ => h.sequenced.pure _

theorem returned (e : Option Expr) :
    P _ (returned e) (e.elim [] items) (e.elim 0 (·.outlay + 2)) := by
  cases e with
  | none => exact h.sequenced.pure _
  | some e =>
    exact h.ask (fun _ _ => rfl) fun _ => h.trail (n := 0) (h.valueAs _ _) fun _ =>
      h.sequenced.pure _

end Uses

end Tallying

namespace Emitting

variable {P : ∀ α, LowerM α → Nat → Prop} (h : Emitting P)

include h

theorem emit (op : Ir.Op) (ty : Ir.Ty) : P _ (emit op ty) 1 :=
  h.chain (h.emitReg op) fun _ => h.pure _

theorem computing : Computing P where
  pure := h.pure
  unsupported _ _ _ := h.unsupported _
  bind := h.chain
  mono := h.mono
  emitReg _ := h.emitReg _
  ownedHere owner s := by
    refine h.ask (fun _ _ => rfl) fun st => ?_
    split
    · exact h.pure _
    · exact h.unsupported _

/-- After a step that takes nothing. -/
theorem after {act : LowerM α} {f : α → LowerM β} {n : Nat} (hact : P _ act 0)
    (hf : ∀ a, P _ (f a) n) : P _ (act >>= f) n :=
  h.mono (h.chain hact hf) (Nat.le_of_eq (Nat.zero_add n))

theorem ident (id : Ident) : P _ (ident id) 1 := by
  refine h.after (h.lookup id) fun handle => ?_
  cases handle with
  | slot ptr ty owner =>
    exact h.after (h.computing.ownedHere _ _) fun _ => h.computing.read _ _
  | param reg ty owner =>
    exact h.computing.idle (h.bind (h.computing.ownedHere _ _) fun _ => h.pure _)
  | func name params ret variadic => exact h.emit _ _
  | struct _ | member | marker => exact h.computing.idle (h.unsupported _)

theorem identAddress (id : Ident) : P _ (identAddress id) 0 := by
  refine h.bind (h.lookup id) fun handle => ?_
  split
  · split
    · exact h.bind (h.computing.ownedHere _ _) fun _ => h.pure _
    · exact h.unsupported _
  · split
    · exact h.bind (h.computing.ownedHere _ _) fun _ => h.pure _
    · exact h.unsupported _
  · exact h.unsupported _

theorem callTarget {callee : Expr} {value : LowerM Operand} {n : Nat} (hvalue : P _ value n) :
    P _ (callTarget callee value) n := by
  refine h.after (h.named? callee) fun target => ?_
  cases target with
  | some target => exact h.computing.idle (h.pure _)
  | none => exact h.chain hvalue fun _ => h.computing.pointedTo

theorem call {callee : Expr} {value : LowerM Operand} {m n : Nat}
    {args : List Ir.Ty → Bool → LowerM (List Ir.Reg)} (hvalue : P _ value m)
    (hargs : ∀ params variadic, P _ (args params variadic) n) :
    P _ (call callee value args) (m + n + 1) := by
  refine h.mono (h.chain (n := n + 1) (h.callTarget hvalue) fun target =>
    h.chain (n := 1) (hargs _ _) fun regs => ?_) (Nat.le_refl _)
  dsimp only
  split
  · exact h.computing.idle (h.bind (h.emitVoid _) fun _ => h.pure _)
  · exact h.chain (h.emit _ _) fun _ => h.pure _

/-- A property that does not tell what steps come to. -/
theorem tallying :
    Tallying (τ := Empty) (fun _ act _ n => P _ act n) (fun _ => []) fun _ => [] where
  computing := h.computing
  sequenced := h.toSequenced
  unsupported _ _ _ := h.unsupported _
  bind := h.chain
  mono := h.mono
  ask := h.ask
  field _ := h.emitReg _
  store _ _ := h.emitVoid _
  literal v ty s := by
    unfold value
    exact h.after (h.lowerType _) fun _ => h.emit _ _
  ident := h.ident
  identAddress := h.identAddress
  call _ := h.call
  paren _ _ := rfl
  unary _ _ _ := rfl
  binary _ _ _ _ := rfl
  cast _ _ _ := rfl
  member _ _ _ _ := rfl
  nil := rfl
  cons _ _ := rfl

theorem memberAddress {whole : Expr} {arrow : Bool} {value : LowerM Operand}
    {address : LowerM Ir.Reg} {n : Nat} (hvalue : P _ value n) (haddress : P _ address n) :
    P _ (memberAddress whole arrow value address) (n + 1) :=
  @Tallying.memberAddress _ _ _ _ h.tallying [] n _ _ _ _ hvalue haddress

end Emitting

/-- One place for all of a program, where nothing is known, and nothing to be left. -/
def nowhere : Route Unit where
  after _ _ := ()
  past _ _ := ()
  beyond _ _ := ()
  inside _ _ := ()
  cond _ _ := True
  stmt _ _ := True
  otherwise _ _ := True
  body _ _ := True
  fnDef _ := trivial
  if_ _ := ⟨trivial, trivial, trivial⟩
  block _ := trivial
  else_ _ := trivial
  elif _ := ⟨trivial, trivial, trivial⟩
  cons _ := ⟨trivial, trivial⟩

def blind : Deposits nowhere Unit where
  zero := ()
  add _ _ := ()
  ofCond _ _ := ()
  ofStmt _ _ := ()
  ofOtherwise _ _ := ()
  ofBody _ _ := ()
  add_zero _ := rfl

namespace Composed

section Parts

variable (h : Composed P)

include h

theorem variable_ (name : Ident) (ty : Ty) (init : Option Expr) : P _ (variable_ name ty init) := by
  refine h.bind (h.lowerType _) fun irTy => h.bind (h.emitReg _) fun ptr => h.bind ?_ fun _ => ?_
  · cases init with
    | none => exact h.pure _
    | some e => exact h.tallying.storeAs _ _ _
  · exact h.ask (n := 0) (fun _ _ => rfl) fun st => h.bindName _

theorem return_ (e : Option Expr) : P _ (return_ e) :=
  h.bind (h.tallying.returned e) fun _ => h.terminate _

theorem openIf : P _ openIf :=
  h.bind h.freshBlock fun _ => h.bind h.freshBlock fun _ => h.bind (h.terminate _) fun _ =>
    h.bind (h.startBlock _ _) fun _ => h.pure _

theorem openArm (join : Ir.BlockId) (label : String) (cond : Expr) (more : Bool) :
    P _ (openArm join label cond more) := by
  refine h.bind (h.tallying.value cond) fun _ => h.bind h.computing.truthy fun _ => ?_
  refine h.bind h.freshBlock fun _ => h.bind ?_ fun no => h.bind (h.terminate _) fun _ =>
    h.bind (h.startBlock _ _) fun _ => h.pure _
  cases more with
  | false => exact h.pure _
  | true => exact h.freshBlock

theorem reopen : P _ reopen := by
  refine h.ask (n := 0) (fun _ _ => rfl) fun st => ?_
  split
  · exact h.bind h.freshBlock fun _ => h.startBlock _ _
  · exact h.pure _

theorem kept : blind.Kept fun _ _ _ act _ => P _ act where
  chained := ⟨h.pure _, h.unsupported _, h.bind⟩
  reopen := h.reopen
  openIf := h.openIf
  startBlock := h.startBlock _ _
  branchTo := h.terminate _
  openArm _ := h.openArm _ _ _ _
  inScope _ hss := h.inScope _ hss
  fnDef := by
    intro _ _ sig ss s _ hss
    unfold Lowering.stmt
    refine h.bind (h.signature _ _) fun low => h.bind h.freshId fun id => h.inFunction s _ ?_
    exact h.inScope s (h.bind (h.bindParams _ _ _) fun _ => hss)
  varDef _ := by
    unfold Lowering.stmt
    exact h.variable_ _ _ _
  structDef _ := by
    unfold Lowering.stmt
    exact h.struct_ _ _ _
  fnDecl _ := by
    unfold Lowering.stmt
    exact h.bind (h.signature _ _) fun _ => h.addFunc _
  varSet _ := by
    unfold Lowering.stmt
    exact h.tallying.assign _ _
  memberSet _ := by
    unfold Lowering.stmt
    exact h.tallying.assignMember _ _
  expr _ := by
    unfold Lowering.stmt
    exact h.tallying.effect _
  return_ _ := by
    unfold Lowering.stmt
    exact h.return_ _

/-- Every statement has the property. -/
theorem stmt (s : Stmt) : P _ (stmt s) := h.kept.stmt s () trivial

theorem stmts (ss : List Stmt) : P _ (stmts ss) := (h.kept.stmts ss () trivial).elim fun _ => id

end Parts

end Composed

end Lowering

end Frontend
