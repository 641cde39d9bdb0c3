import Frontend.Proofs.Growth
import Frontend.Proofs.Machine

/-!
Lowered expressions compute what they mean. The code that lowering adds for an expression is run
from a memory in which the names in sight have what they stand for; it leaves the value of the
expression in the register of the operand, and has made the calls that evaluating the expression
makes.
-/
namespace Frontend

open Ir (Memory execAll)

variable {F : Type}

namespace Ir.Memory

def store (mem : Memory F) : Store F := ⟨mem.cells, mem.calls⟩

/-- Only registers below `n` hold something. -/
def Below (mem : Memory F) (n : Nat) : Prop := ∀ r v, mem.regs r = some v → r.index < n

variable {mem mem₁ : Memory F}

theorem Below.mono {n n' : Nat} (h : mem.Below n) (hn : n ≤ n') : mem.Below n' :=
  fun r v hr => Nat.lt_of_lt_of_le (h r v hr) hn

/-- Registers keep what they hold, and cells hold values of the types they held. -/
structure Le (mem mem' : Memory F) : Prop where
  regs : ∀ r v, mem.regs r = some v → mem'.regs r = some v
  cells : ∀ (k : Nat) (v : Val F), mem.cells[k]? = some v →
    ∃ v' : Val F, mem'.cells[k]? = some v' ∧ ∀ t, v.HasTy t → v'.HasTy t

theorem Le.refl (mem : Memory F) : mem.Le mem :=
  ⟨fun _ _ h => h, fun _ v h => ⟨v, h, fun _ ht => ht⟩⟩

theorem Le.trans {mem' : Memory F} (h : mem.Le mem₁) (h' : mem₁.Le mem') : mem.Le mem' := by
  refine ⟨fun r v hr => h'.regs r v (h.regs r v hr), fun k v hk => ?_⟩
  obtain ⟨v₁, hk₁, ht₁⟩ := h.cells k v hk
  obtain ⟨v₂, hk₂, ht₂⟩ := h'.cells k v₁ hk₁
  exact ⟨v₂, hk₂, fun t ht => ht₂ t (ht₁ t ht)⟩

/-- The next register is assigned. -/
theorem Le.set (hle : mem.Le mem₁) (hregs : mem₁.regs = mem.regs) {n : Nat} (hb : mem.Below n)
    (v : Val F) : mem.Le (mem₁.set ⟨n⟩ v) ∧ (mem₁.set ⟨n⟩ v).Below (n + 1) := by
  refine ⟨⟨fun r x hr => ?_, hle.cells⟩, fun r x hr => ?_⟩
  · have hne : r ≠ ⟨n⟩ := fun h => Nat.lt_irrefl n (by simpa [h] using hb r x hr)
    rw [regs_set_other _ _ hne]
    exact hle.regs r x hr
  · by_cases hne : r = ⟨n⟩
    · rw [hne]
      exact Nat.lt_succ_self n
    · rw [regs_set_other _ _ hne, hregs] at hr
      exact Nat.lt_succ_of_lt (hb r x hr)

end Ir.Memory

/-- A scalar type is lowered to what represents it. -/
theorem Ty.lower_scalar? {names : ScopeTable Handle} {ty : Ty} {t t' : Ir.Ty}
    (h : ty.scalar? = some t) (hl : ty.lower names = .ok t') : t' = t := by
  cases ty with
  | prim p n =>
    by_cases hn : n ≤ 0
    · have hptrs : ∀ t : Ir.Ty, t.ptrs n.toNat = t := fun t => by
        rw [Int.toNat_eq_zero.mpr hn, Ir.Ty.ptrs]
      cases p <;> simp_all [Ty.scalar?, Prim.scalar?, Ty.lower, Prim.lower?]
    · simp [Ty.scalar?, hn] at h
  | struct s n => cases h
  | inst s n => cases h
  | fn ret n => cases h

theorem Ty.isScalar_of_scalar? {ty : Ty} {t : Ir.Ty} (h : ty.scalar? = some t) : t.IsScalar := by
  cases ty with
  | prim p n =>
    by_cases hn : n ≤ 0
    · cases p <;> simp [Ty.scalar?, hn, Prim.scalar?] at h <;>
        simp [← h, Ir.Ty.IsScalar, Ir.Ty.width?, Ir.Ty.isFloat]
    · simp [Ty.scalar?, hn] at h
  | struct s n => cases h
  | inst s n => cases h
  | fn ret n => cases h

/-- If the type is lowered to a scalar, it is one. -/
def Ty.Reflects (ty : Ty) (t : Ir.Ty) : Prop := t.IsScalar → ty.scalar? = some t

/-- The name of a function is bound to it, and the module has it. A parameter that is lowered to a
scalar is a scalar. -/
def Routine.Stands (m : Ir.Module) (f : Routine) (b : Binding Handle) : Prop :=
  ∃ params ret, b.value = .func f.link params ret f.variadic ∧ b.ty = .fn f.ret 0 ∧
    List.Forall₂ Ty.Reflects f.params params ∧
    (∀ t, f.ret.scalar? = some t → ret = t) ∧ ∃ g, m.func? f.link = some g ∧ g.ret = ret

/-- In the function with number `here`, the name cannot be used for a value or a call. -/
def Handle.Foreign (here : Nat) : Handle → Prop
  | .slot _ _ owner | .param _ _ owner => owner ≠ here
  | .func .. => False
  | .struct ty => ty.isAggregate = true
  | .member | .marker => True

/-- What a name stands for in the source is what it is bound to. -/
def Entity.Stands (m : Ir.Module) (here : Nat) (mem : Memory F) (b : Binding Handle) :
    Entity F → Prop
  | .var ty k => ∃ ptr t v, b.value = .slot ptr t here ∧ b.ty = ty ∧ ty.scalar? = some t ∧
    mem.regs ptr = some (.cell k) ∧ mem.cells[k]? = some v ∧ v.HasTy t
  | .param ty v => ∃ reg t, b.value = .param reg t here ∧ b.ty = ty ∧ ty.scalar? = some t ∧
    mem.regs reg = some v ∧ v.HasTy t
  | .fn f => f.Stands m b
  | .other => b.value.Foreign here

theorem Entity.Stands.mono {m : Ir.Module} {here : Nat} {mem mem' : Memory F} (hle : mem.Le mem')
    {b : Binding Handle} {e : Entity F} (h : e.Stands m here mem b) : e.Stands m here mem' b := by
  cases e with
  | var ty k =>
    obtain ⟨ptr, t, v, hb, hty, ht, hptr, hk, hv⟩ := h
    obtain ⟨v', hk', hv'⟩ := hle.cells k v hk
    exact ⟨ptr, t, v', hb, hty, ht, hle.regs _ _ hptr, hk', hv' t hv⟩
  | param ty v =>
    obtain ⟨reg, t, hb, hty, ht, hreg, hv⟩ := h
    exact ⟨reg, t, hb, hty, ht, hle.regs _ _ hreg, hv⟩
  | fn f => exact h
  | other => exact h

namespace Lowering

/-- The names in sight stand for what `env` says, and the registers to come are free. -/
structure Holds (m : Ir.Module) (env : Env F) (st : State) (mem : Memory F) : Prop where
  below : mem.Below st.current.nextReg
  names : List.Forall₂ (fun e b => e.1 = b.name ∧ e.2.Stands m st.current.id mem b)
    env st.names.visible

theorem Holds.mono {m : Ir.Module} {env : Env F} {st st' : State} {mem mem' : Memory F}
    (h : Holds m env st mem) (hle : mem.Le mem') (hb : mem'.Below st'.current.nextReg)
    (hid : st'.current.id = st.current.id) (hvis : st'.names.visible = st.names.visible) :
    Holds m env st' mem' := by
  refine ⟨hb, ?_⟩
  rw [hvis, hid]
  exact h.names.imp fun _ _ hs => ⟨hs.1, hs.2.mono hle⟩

/-- A name that is found stands for something. -/
theorem Holds.find {m : Ir.Module} {env : Env F} {st : State} {mem : Memory F}
    (h : Holds m env st mem) {name : String} {b : Binding Handle}
    (hb : st.names.find? name = some b) :
    ∃ e, env.lookup name = some e ∧ e.Stands m st.current.id mem b := by
  rw [ScopeTable.find?_eq] at hb
  obtain ⟨-, hnames⟩ := h
  generalize st.names.visible = bs at hb hnames
  induction hnames with
  | nil => cases hb
  | @cons e b₀ env bs hs _ ih =>
    obtain ⟨name', e⟩ := e
    obtain ⟨hname, hst⟩ := hs
    obtain rfl : name' = b₀.name := hname
    by_cases hn : b₀.name = name
    · rw [List.find?_cons_of_pos (by simpa using hn)] at hb
      obtain rfl := Option.some.inj hb
      exact ⟨e, by simp [hn], hst⟩
    · rw [List.find?_cons_of_neg (by simpa using hn)] at hb
      obtain ⟨e', he', hst'⟩ := ih hb
      have hbeq : (name == b₀.name) = false := by simpa using Ne.symm hn
      exact ⟨e', by simpa [List.lookup_cons, hbeq] using he', hst'⟩

/-- The code that `act` adds runs from `mem`, and `Q` holds after it. -/
def Computes (W : World F) (m : Ir.Module) (act : LowerM α) (st : State) (mem : Memory F)
    (Q : α → Memory F → Prop) : Prop :=
  ∀ a st', Runs act st a st' → ∃ code mem', st' = st.extend code ∧
    execAll W m code mem = some mem' ∧ mem.Le mem' ∧ mem'.Below st'.current.nextReg ∧ Q a mem'

section Logic

variable {W : World F} {m : Ir.Module} {env : Env F} {st : State} {mem : Memory F}
  {P Q : α → Memory F → Prop} {R : β → Memory F → Prop} {v : Operand} {x a b : Val F} {t : Ir.Ty}
  {s : Span} {op : BinaryOp} {ty : Ty} {callee lhs rhs e : Expr}

namespace Computes

theorem mono {x : LowerM α} (h : Computes W m x st mem P) (hq : ∀ a mem', P a mem' → Q a mem') :
    Computes W m x st mem Q := by
  intro a st' hrun
  obtain ⟨code, mem', hst, hx, hle, hb, hp⟩ := h a st' hrun
  exact ⟨code, mem', hst, hx, hle, hb, hq a mem' hp⟩

theorem unsupported {s : Span} {what : Unsupported} :
    Computes W m (unsupported s what) st mem Q :=
  fun _ _ hrun => absurd hrun not_runs_unsupported

theorem getBind {f : State → LowerM α} (h : Computes W m (f st) st mem Q) :
    Computes W m (get >>= f) st mem Q :=
  fun a st' hrun => h a st' (runs_get_bind.mp hrun)

variable (hh : Holds m env st mem)

include hh

theorem pure {a : α} (h : Q a mem) : Computes W m (pure a) st mem Q := by
  intro b st' hrun
  obtain ⟨rfl, rfl⟩ := runs_pure.mp hrun
  exact ⟨[], mem, by simp, rfl, .refl _, hh.below, h⟩

theorem bind {x : LowerM α} {f : α → LowerM β}
    (hx : Computes W m x st mem Q)
    (hf : ∀ a st₁ mem₁, Holds m env st₁ mem₁ → mem.Le mem₁ → st₁.names = st.names →
      st₁.current.id = st.current.id → Q a mem₁ → Computes W m (f a) st₁ mem₁ R) :
    Computes W m (x >>= f) st mem R := by
  intro b st' hrun
  obtain ⟨a, st₁, h₁, h₂⟩ := runs_bind.mp hrun
  obtain ⟨is, mem₁, rfl, hx₁, hle₁, hb₁, hq⟩ := hx a st₁ h₁
  have hh₁ : Holds m env (st.extend is) mem₁ := hh.mono hle₁ hb₁ rfl rfl
  obtain ⟨js, mem₂, rfl, hx₂, hle₂, hb₂, hr⟩ := hf a _ mem₁ hh₁ hle₁ rfl rfl hq b st' h₂
  refine ⟨is ++ js, mem₂, by simp, ?_, hle₁.trans hle₂, hb₂, hr⟩
  rw [Ir.execAll_append, hx₁, Option.bind_some, hx₂]

/-- A step that reads the state and leaves it. -/
theorem reading {x : LowerM α} {p : α → Prop} (hx : ∀ a st', Runs x st a st' → p a ∧ st' = st) :
    Computes W m x st mem fun a mem' => p a ∧ mem' = mem := by
  intro a st' hrun
  obtain ⟨ha, rfl⟩ := hx a st' hrun
  exact ⟨[], mem, by simp, rfl, .refl _, hh.below, ha, rfl⟩

theorem lowerType {ty : Ty} {s : Span} :
    Computes W m (lowerType ty s) st mem fun t mem' => ty.lower st.names = .ok t ∧ mem' = mem :=
  reading hh fun _ _ hrun => runs_lowerType.mp hrun

theorem infer {e : Expr} :
    Computes W m (infer e) st mem fun ty mem' => e.infer st.names = .ok ty ∧ mem' = mem :=
  reading hh fun _ _ hrun => runs_infer.mp hrun

theorem ownedHere {owner : Nat} {s : Span} :
    Computes W m (ownedHere owner s) st mem fun _ mem' =>
      owner = st.current.id ∧ mem' = mem :=
  reading hh fun _ _ hrun => runs_ownedHere.mp hrun

/-- A name that is found stands for something. -/
theorem lookup {id : Ident} :
    Computes W m (lookup id) st mem fun h mem' => (∃ b e, st.names.find? id.name = some b ∧
      h = b.value ∧ env.lookup id.name = some e ∧ e.Stands m st.current.id mem b) ∧ mem' = mem := by
  refine reading hh fun h st' hrun => ?_
  obtain ⟨b, hb, rfl, rfl⟩ := runs_lookup.mp hrun
  obtain ⟨e, he, hs⟩ := hh.find hb
  exact ⟨⟨b, e, hb, rfl, he, hs⟩, rfl⟩

/-- An operation that has a value, and changes no register itself. -/
theorem emitReg {op : Ir.Op} {x : Val F} {mem₁ : Memory F}
    (hop : op.eval W m mem = some (some x, mem₁))
    (hregs : mem₁.regs = mem.regs) (hle : mem.Le mem₁) :
    Computes W m (emitReg op) st mem fun r mem' =>
      mem'.regs r = some x ∧ mem'.store = mem₁.store := by
  intro r st' hrun
  obtain ⟨rfl, rfl⟩ := runs_emitReg.mp hrun
  obtain ⟨hle', hb'⟩ := hle.set hregs hh.below x
  refine ⟨_, mem₁.set ⟨st.current.nextReg⟩ x, rfl, ?_, hle', hb', by simp, rfl⟩
  simp [execAll, Ir.Instr.exec, hop]

theorem emit {op : Ir.Op} {ty : Ir.Ty} {x : Val F} {mem₁ : Memory F}
    (hop : op.eval W m mem = some (some x, mem₁)) (hregs : mem₁.regs = mem.regs)
      (hle : mem.Le mem₁) :
    Computes W m (emit op ty) st mem fun v mem' =>
      v.ty = ty ∧ mem'.regs v.reg = some x ∧ mem'.store = mem₁.store :=
  bind hh (emitReg hh hop hregs hle) fun _ _ _ hh₁ _ _ _ hr => pure hh₁ ⟨rfl, hr.1, hr.2⟩

/-- An operation that has a value and leaves the memory alone. -/
theorem emitPure {op : Ir.Op} {ty : Ir.Ty} {x : Val F}
    (hop : op.eval W m mem = some (some x, mem)) :
    Computes W m (Lowering.emit op ty) st mem fun v mem' =>
      v.ty = ty ∧ mem'.regs v.reg = some x ∧ mem'.store = mem.store :=
  emit hh hop rfl (.refl _)

/-- An operation without a value. -/
theorem emitVoid {op : Ir.Op} {mem₁ : Memory F} (hop : op.eval W m mem = some (none, mem₁))
    (hregs : mem₁.regs = mem.regs) (hle : mem.Le mem₁) :
    Computes W m (emitVoid op) st mem fun _ mem' => mem' = mem₁ := by
  intro _ st' hrun
  obtain rfl := runs_emitVoid.mp hrun
  refine ⟨_, mem₁, rfl, ?_, hle, fun r v hr => ?_, rfl⟩
  · simp [execAll, Ir.Instr.exec, hop]
  · rw [hregs] at hr
    exact hh.below r v hr


end Computes

/-- The register of the operand holds `x`, which is of its type. -/
structure Operand.Is (v : Operand) (x : Val F) (mem : Memory F) : Prop where
  reg : mem.regs v.reg = some x
  ty : x.HasTy v.ty

theorem Operand.Is.mono {mem' : Memory F} (h : v.Is x mem) (hle : mem.Le mem') : v.Is x mem' :=
  ⟨hle.regs _ _ h.reg, h.ty⟩

theorem isInt_width (h : t.isInt = true) :
    ∃ n, t.width? = some n ∧ t.bits? = some n ∧ n ≠ 1 ∧ t ≠ .bool := by
  cases t <;> simp_all [Ir.Ty.isInt, Ir.Ty.width?, Ir.Ty.bits?]

/-- Between scalars, the instruction for a conversion makes the conversion. -/
theorem conversion?_eval (hv : v.Is x mem) (hne : v.ty ≠ t) {op : Ir.Op}
    (hop : conversion? v t = some op) : ∃ x', x.convert W.floats t = some x' ∧ x'.HasTy t ∧
      op.eval W m mem = some (some x', mem) := by
  unfold conversion? at hop
  extract_lets narrower at hop
  split at hop
  · rename_i h
    obtain rfl := Option.some.inj hop
    obtain ⟨n, hn, -, -, ht⟩ := isInt_width h.2
    obtain ⟨w, a, rfl, hw⟩ | ⟨a, rfl, hf⟩ := hv.ty.cases
    · obtain rfl : 1 = w := by simpa [h.1, Ir.Ty.width?] using hw
      exact ⟨.int n (a.setWidth n), by simp [Val.convert, ht, Val.number?, hn], hn,
        by simp [Ir.Op.eval, hv.reg, Ir.Conv.eval, hn]⟩
    · simp [h.1, Ir.Ty.isFloat] at hf
  split at hop
  · rename_i h
    obtain rfl := Option.some.inj hop
    obtain ⟨n, hn, hbits, -, ht⟩ := isInt_width h.2
    obtain ⟨w, hw, hbits', h1, -⟩ := isInt_width h.1
    obtain ⟨w', a, rfl, hw'⟩ | ⟨a, rfl, hf⟩ := hv.ty.cases
    · obtain rfl : w = w' := Option.some.inj (hw.symm.trans hw')
      refine ⟨.int n (a.signExtend n), by simp [Val.convert, ht, Val.number?, hn, h1], hn, ?_⟩
      by_cases hlt : w < n
      · simp [Ir.Op.eval, hv.reg, narrower, hbits, hbits', hlt, Ir.Conv.eval, hn]
      · simp [Ir.Op.eval, hv.reg, narrower, hbits, hbits', hlt, Ir.Conv.eval, hn,
          BitVec.signExtend_eq_setWidth_of_le a (Nat.le_of_not_lt hlt)]
    · simp [hf] at hw
  split at hop
  · rename_i h
    obtain rfl := Option.some.inj hop
    obtain ⟨w, hw, -, h1, -⟩ := isInt_width h.1
    have ht : t ≠ .bool := fun e => by simp [e, Ir.Ty.isFloat] at h
    obtain ⟨w', a, rfl, hw'⟩ | ⟨a, rfl, hf⟩ := hv.ty.cases
    · obtain rfl : w = w' := Option.some.inj (hw.symm.trans hw')
      exact ⟨.float t (W.floats.ofInt t a.toInt), by simp [Val.convert, ht, Val.number?, h.2, h1],
        ⟨rfl, h.2⟩, by simp [Ir.Op.eval, hv.reg, Ir.Conv.eval, h.2]⟩
    · simp [hf] at hw
  split at hop
  · rename_i h
    obtain rfl := Option.some.inj hop
    obtain ⟨n, hn, -, -, ht⟩ := isInt_width h.2
    obtain ⟨w, a, rfl, hw⟩ | ⟨a, ha, hf⟩ := hv.ty.cases
    · simp [h.1] at hw
    · subst ha
      exact ⟨.int n (.ofInt n (W.floats.toInt a)), by simp [Val.convert, ht, Val.number?, hn], hn,
        by simp [Ir.Op.eval, hv.reg, Ir.Conv.eval, hn]⟩
  split at hop
  · rename_i h
    obtain rfl := Option.some.inj hop
    have ht : t ≠ .bool := fun e => by simp [e, Ir.Ty.isFloat] at h
    obtain ⟨w, a, rfl, hw⟩ | ⟨a, ha, hf⟩ := hv.ty.cases
    · simp [h.1] at hw
    · subst ha
      refine ⟨.float t (W.floats.resize t a), by simp [Val.convert, ht, Val.number?, h.2, hne],
        ⟨rfl, h.2⟩, ?_⟩
      cases narrower <;> simp [Ir.Op.eval, hv.reg, Ir.Conv.eval, h.2]
  split at hop
  · rename_i h
    -- an address is no scalar
    rcases hv.ty.isScalar with hs | hs <;> cases ht : v.ty <;> simp_all [Ir.Ty.pointee?,
      Ir.Ty.width?, Ir.Ty.isFloat]
  · simp at hop

theorem cmp_holds (h : op.isComparison = true) {w : Nat} (a b : BitVec w) :
    op.cmp.holds a b = op.holds a b := by
  cases op <;> first | rfl | cases h

theorem cmp_holdsFloat (h : op.isComparison = true) (A : FloatArith F) (x y : F) :
    op.cmp.holdsFloat A x y = op.holdsFloat A x y := by
  cases op <;> first | rfl | cases h

theorem intOp?_word? {o : Ir.BinOp} (h : intOp? op = some o) {w : Nat} (a b : BitVec w) :
    ∃ c, o.word? a b = some c ∧ op.word? a b = some c := by
  cases op <;> cases h <;> exact ⟨_, rfl, rfl⟩

theorem floatOp?_float? {o : Ir.BinOp} (h : floatOp? op = some o) (A : FloatArith F) (t : Ir.Ty)
    (x y : F) : ∃ z, o.float? A t x y = some z ∧ op.float? A t x y = some z := by
  cases op <;> cases h <;> exact ⟨_, rfl, rfl⟩

/-- On two operands of one type, the instruction for an operator does what the operator does. -/
theorem binaryOp_eval {t' : Ir.Ty} {l r : Ir.Reg} {o : Ir.Op} (h : binaryOp op t l r = .ok (o, t'))
    (hl : mem.regs l = some a) (hr : mem.regs r = some b) (ha : a.HasTy t) (hb : b.HasTy t) :
    ∃ x, op.apply W.floats a b = some x ∧ x.HasTy t' ∧ o.eval W m mem = some (some x, mem) ∧
      t' = if op.isComparison then .bool else t := by
  unfold binaryOp at h
  extract_lets isInt at h
  by_cases hc : op.isComparison = true
  · rw [if_pos hc] at h
    rw [if_pos hc]
    obtain ⟨w, x, y, hw, hp⟩ | ⟨x, y, hf, hp⟩ := ha.pair? hb
    · have hf : ¬ t.isFloat = true := fun hf => by simp [hf] at hw
      rw [if_neg hf] at h
      split at h
      · obtain ⟨rfl, rfl⟩ := Prod.mk.inj (Except.ok.inj h)
        exact ⟨.bit (op.holds x y), by simp [BinaryOp.apply, hp, hc], by simp,
          by simp [Ir.Op.eval, hl, hr, Ir.Cmp.evalInt, hp, cmp_holds hc], rfl⟩
      · cases h
    · rw [if_pos hf] at h
      obtain ⟨rfl, rfl⟩ := Prod.mk.inj (Except.ok.inj h)
      exact ⟨.bit (op.holdsFloat W.floats x y), by simp [BinaryOp.apply, hp, hc], by simp,
        by simp [Ir.Op.eval, hl, hr, Ir.Cmp.evalFloat, hp, cmp_holdsFloat hc], rfl⟩
  · rw [if_neg hc] at h
    rw [if_neg hc]
    split at h
    · cases h
    obtain ⟨w, x, y, hw, hp⟩ | ⟨x, y, hf, hp⟩ := ha.pair? hb
    · have hf : ¬ t.isFloat = true := fun hf => by simp [hf] at hw
      rw [if_neg hf] at h
      split at h
      · split at h
        · cases h
        split at h
        · rename_i o' ho
          obtain ⟨rfl, rfl⟩ := Prod.mk.inj (Except.ok.inj h)
          obtain ⟨z, hz, hz'⟩ := intOp?_word? ho x y
          exact ⟨.int w z, by simp [BinaryOp.apply, hp, hc, hz'], hw,
            by simp [Ir.Op.eval, hl, hr, Ir.BinOp.eval, hp, hz], rfl⟩
        · cases h
      · cases h
    · rw [if_pos hf] at h
      split at h
      · rename_i o' ho
        obtain ⟨rfl, rfl⟩ := Prod.mk.inj (Except.ok.inj h)
        obtain ⟨z, hz, hz'⟩ := floatOp?_float? ho W.floats t x y
        exact ⟨.float t z, by simp [BinaryOp.apply, hp, hc, hz'], ⟨rfl, hf⟩,
          by simp [Ir.Op.eval, hl, hr, Ir.BinOp.eval, hp, hz], rfl⟩
      · cases h

/-- The function that a name stands for. -/
theorem outlook_lookup (env : Env F) (name : String) :
    env.outlook.lookup name = (env.lookup name).map Entity.routine? := by
  induction env with
  | nil => rfl
  | cons e env ih =>
    obtain ⟨n, e⟩ := e
    by_cases hn : (name == n) = true
    · simp [Env.outlook, List.lookup_cons, hn]
    · simpa [Env.outlook, List.lookup_cons, hn] using ih

/-- The operand holds the value of `e`, which has the type that is inferred for it. -/
structure Evaluates (W : World F) (env : Env F) (e : Expr) (st : State) (mem : Memory F)
    (v : Operand) (mem' : Memory F) (ty : Ty) (x : Val F) : Prop where
  eval : e.eval W env mem.store = some (ty, x, mem'.store)
  infer : e.infer st.names = .ok ty
  scalar : ty.scalar? = some v.ty
  is : v.Is x mem'

/-- The registers hold the arguments. -/
def Passed (W : World F) (env : Env F) (params : List Ty) (variadic : Bool) (es : List Expr)
    (mem : Memory F) (regs : List Ir.Reg) (mem' : Memory F) : Prop :=
  ∃ vs, evalArgs W env params variadic es mem.store = some (vs, mem'.store) ∧
    regs.mapM mem'.regs = some vs

/-- What a call of `f` leaves, and where its answer is if that is a scalar. -/
def Answered (W : World F) (env : Env F) (f : Routine) (es : List Expr) (mem : Memory F)
    (r : Option Operand) (mem' : Memory F) : Prop :=
  ∃ vs σ, evalArgs W env f.params f.variadic es mem.store = some (vs, σ) ∧
    mem'.store = (σ.call W ⟨f.link, vs⟩).2 ∧
    ∀ t, f.ret.scalar? = some t →
      ∃ v, r = some v ∧ v.ty = t ∧ v.Is (.read t (σ.call W ⟨f.link, vs⟩).1) mem'

theorem joined_inv {l r : Ty} {st' : State} (h : Runs (joined l r s) st ty st') :
    l.join r = .ok ty ∧ st' = st := by
  unfold joined at h
  split at h
  · rename_i ty' hjoin
    obtain ⟨rfl, rfl⟩ := runs_pure.mp h
    exact ⟨hjoin, rfl⟩
  · exact absurd h not_runs_fail

theorem connect_eval (op : BinaryOp) (A : FloatArith F) (a b : Bool) :
    (if op = .and then Ir.BinOp.and else .or).eval A (.bit a) (.bit b) =
      some (.bit (op.connect a b)) := by
  by_cases h : op = .and <;> cases a <;> cases b <;>
    simp [h, Ir.BinOp.eval, Val.pair?, Val.bit, Ir.BinOp.word?, BinaryOp.connect]

/-- Every run of the code for `e` computes it. -/
def Computed (W : World F) (m : Ir.Module) (env : Env F) (e : Expr) : Prop :=
  ∀ st mem, Holds m env st mem → Computes W m (value e) st mem fun o mem' =>
    ∃ ty x, Evaluates W env e st mem o mem' ty x

section

variable (hh : Holds m env st mem)

include hh

theorem truthy_computes (hv : v.Is x mem) :
    Computes W m (truthy v s) st mem fun c mem' => ∃ b, x.truth? W.floats = some b ∧
      c.ty = .bool ∧ mem'.regs c.reg = some (.bit b) ∧ mem'.store = mem.store := by
  obtain ⟨b, hb⟩ := hv.ty.truth? W.floats
  unfold truthy
  split
  · rename_i hty
    have hbit := (hty ▸ hv.ty).bit_truth hb
    exact .pure hh ⟨b, hb, hty, hbit ▸ hv.reg, rfl⟩
  split
  · rename_i hty
    obtain ⟨n, hn, -, -, -⟩ := isInt_width hty
    obtain ⟨w, a, rfl, hw⟩ | ⟨a, rfl, hf⟩ := hv.ty.cases
    · refine .bind hh (.emitPure hh (x := .int w 0) ?_)
        fun zero st₁ mem₁ hh₁ hle _ _ hz => ?_
      · simp [Ir.Op.eval, Ir.Constant.eval, hw]
      · refine (Computes.emitPure hh₁ (x := .bit b) ?_).mono
          fun c mem' hc => ⟨b, hb, hc.1, hc.2.1, hc.2.2.trans hz.2.2⟩
        obtain rfl : (a != 0) = b := Option.some.inj hb
        simp [Ir.Op.eval, hle.regs _ _ hv.reg, hz.2.1, Ir.Cmp.evalInt, Val.pair?, Ir.Cmp.holds]
    · simp [hf] at hn
  split
  · rename_i hty
    obtain ⟨w, a, rfl, hw⟩ | ⟨a, ha, hf⟩ := hv.ty.cases
    · simp [hty] at hw
    · subst ha
      refine .bind hh (.emitPure hh (x := .float v.ty (W.floats.literal v.ty 0)) ?_)
        fun zero st₁ mem₁ hh₁ hle _ _ hz => ?_
      · simp [Ir.Op.eval, Ir.Constant.eval, hf]
      · refine (Computes.emitPure hh₁ (x := .bit b) ?_).mono
          fun c mem' hc => ⟨b, hb, hc.1, hc.2.1, hc.2.2.trans hz.2.2⟩
        obtain rfl : (!W.floats.eq a (W.floats.literal v.ty 0)) = b := Option.some.inj hb
        simp [Ir.Op.eval, hle.regs _ _ hv.reg, hz.2.1, Ir.Cmp.evalFloat, Val.pair?,
          Ir.Cmp.holdsFloat]
  · exact .unsupported

theorem convert_computes (hv : v.Is x mem) (t : Ir.Ty) :
    Computes W m (convert v t s) st mem fun v' mem' =>
      ∃ x', x.convert W.floats t = some x' ∧ v'.ty = t ∧ v'.Is x' mem' ∧
        mem'.store = mem.store := by
  unfold convert
  split
  · rename_i hty
    exact .pure hh ⟨x, (hty ▸ hv.ty).convert_self _, hty, hv, rfl⟩
  split
  · rename_i hbool
    obtain ⟨rfl, -⟩ := hbool
    refine (truthy_computes hh hv).mono fun c mem' hc => ?_
    obtain ⟨b, hb, hty, hreg, hst⟩ := hc
    exact ⟨.bit b, by simp [Val.convert, hb], hty, ⟨hreg, by simp [hty]⟩, hst⟩
  split
  · rename_i hne _ _ op hop
    obtain ⟨x', hx', hty, heval⟩ := conversion?_eval hv hne hop
    refine (Computes.emitPure hh heval).mono fun v' mem' h => ?_
    exact ⟨x', hx', h.1, ⟨h.2.1, h.1 ▸ hty⟩, h.2.2⟩
  · exact .unsupported

theorem unary_computes (hv : v.Is x mem) {op : UnaryOp} (hop : op.isScalar = true) :
    Computes W m (unary op v s) st mem fun v' mem' => ∃ x', op.apply W.floats x = some x' ∧
      v'.ty = (if op = .not then .bool else v.ty) ∧ v'.Is x' mem' ∧ mem'.store = mem.store := by
  cases op with
  | not =>
    refine .bind hh (truthy_computes hh hv) fun c st₁ mem₁ hh₁ _ _ _ hc => ?_
    obtain ⟨b, hb, -, hreg, hst⟩ := hc
    refine (Computes.emitPure hh₁ (x := .bit !b) ?_).mono fun v' mem' h => ?_
    · simp [Ir.Op.eval, hreg, Ir.UnOp.eval, Val.bit]
    · exact ⟨.bit !b, by simp [UnaryOp.apply, hb], h.1, ⟨h.2.1, by simp [h.1]⟩, h.2.2.trans hst⟩
  | neg =>
    dsimp only [unary]
    obtain ⟨w, a, rfl, hw⟩ | ⟨a, rfl, hf⟩ := hv.ty.cases
    · split
      · rename_i hf
        simp [hf] at hw
      split
      · refine (Computes.emitPure hh (x := .int w (-a)) ?_).mono fun v' mem' h => ?_
        · simp [Ir.Op.eval, hv.reg, Ir.UnOp.eval]
        · exact ⟨.int w (-a), rfl, h.1, ⟨h.2.1, by simpa [h.1] using hw⟩, h.2.2⟩
      · exact .unsupported
    · rw [if_pos hf]
      refine (Computes.emitPure hh (x := .float v.ty (W.floats.neg v.ty a)) ?_).mono
        fun v' mem' h => ?_
      · simp [Ir.Op.eval, hv.reg, Ir.UnOp.eval]
      · exact ⟨_, rfl, h.1, ⟨h.2.1, by simpa [h.1] using hf⟩, h.2.2⟩
  | bitNot =>
    dsimp only [unary]
    split
    · rename_i hint
      obtain ⟨w, a, rfl, hw⟩ | ⟨a, rfl, hf⟩ := hv.ty.cases
      · refine (Computes.emitPure hh (x := .int w (~~~a)) ?_).mono fun v' mem' h => ?_
        · simp [Ir.Op.eval, hv.reg, Ir.UnOp.eval]
        · exact ⟨.int w (~~~a), rfl, h.1, ⟨h.2.1, by simpa [h.1] using hw⟩, h.2.2⟩
      · cases ht : v.ty <;> simp [ht, Ir.Ty.isInt, Ir.Ty.isFloat] at hint hf
    · exact .unsupported
  | addressOf => cases hop
  | deref => cases hop

theorem apply_computes {l r : Ir.Reg} (hl : mem.regs l = some a) (hr : mem.regs r = some b)
    (ha : a.HasTy t) (hb : b.HasTy t) :
    Computes W m (apply op t l r s) st mem fun v mem' => ∃ x, op.apply W.floats a b = some x ∧
      v.ty = (if op.isComparison then .bool else t) ∧ v.Is x mem' ∧ mem'.store = mem.store := by
  unfold apply
  split
  · rename_i o t' ho
    obtain ⟨x, hx, hty, heval, ht'⟩ := binaryOp_eval (W := W) (m := m) ho hl hr ha hb
    refine (Computes.emitPure hh heval).mono fun v mem' h => ?_
    exact ⟨x, hx, h.1.trans ht', ⟨h.2.1, h.1 ▸ hty⟩, h.2.2⟩
  · exact .unsupported

theorem literal_computes {v : Value} (he : (Expr.literal v ty s).isScalar env.outlook = true) :
    Computes W m (value (.literal v ty s)) st mem fun o mem' =>
      ∃ ty' x, Evaluates W env (.literal v ty s) st mem o mem' ty' x := by
  obtain ⟨t, ht, hfits⟩ : ∃ t, ty.scalar? = some t ∧ v.fits t = true := by
    simpa [Expr.isScalar, Option.any_eq_true] using he
  unfold value
  refine .bind hh (.lowerType hh) fun t' st₁ mem₁ hh₁ _ _ _ hty => ?_
  obtain ⟨hty, rfl⟩ := hty
  obtain rfl : t' = t := Ty.lower_scalar? ht hty
  obtain ⟨x, hx, hxt, hop⟩ : ∃ x : Val F, v.denote W.floats t' = some x ∧ x.HasTy t' ∧
      v.constant.eval W.floats t' = some x := by
    cases v with
    | int n =>
      obtain ⟨w, hw⟩ := Option.isSome_iff_exists.mp hfits
      exact ⟨.int w (.ofInt w n), by simp [Value.denote, hw], hw,
        by simp [Value.constant, Ir.Constant.eval, hw]⟩
    | float n => exact ⟨_, if_pos hfits, ⟨rfl, hfits⟩, if_pos hfits⟩
    | bool b =>
      obtain rfl : t' = .bool := by simpa [Value.fits] using hfits
      exact ⟨.bit b, rfl, by simp, rfl⟩
    | str n => cases hfits
  refine (Computes.emitPure hh₁ (x := x) (by simp [Ir.Op.eval, hop])).mono fun o mem' h => ?_
  refine ⟨ty, x, ?_, rfl, h.1 ▸ ht, h.2.1, h.1 ▸ hxt⟩
  simp [Expr.eval, ht, hx, h.2.2]

theorem ident_computes {id : Ident} (he : (Expr.ident id).isScalar env.outlook = true) :
    Computes W m (ident id) st mem fun o mem' =>
      ∃ ty x, Evaluates W env (.ident id) st mem o mem' ty x := by
  refine .bind hh (.lookup hh) fun h st₁ mem₁ hh₁ _ _ hid hlook => ?_
  obtain ⟨⟨b, e, hb, rfl, hlook, hs⟩, rfl⟩ := hlook
  have hinfer : (Expr.ident id).infer st.names = .ok b.ty := by simp [Expr.infer, hb]
  cases e with
  | var ty k =>
    obtain ⟨ptr, t, v, hval, rfl, ht, hptr, hk, hv⟩ := hs
    rw [hval]
    refine .bind hh₁ (.ownedHere hh₁) fun _ st₂ mem₂ hh₂ _ _ _ ho => ?_
    obtain ⟨-, rfl⟩ := ho
    have hagg : ¬ t.isAggregate = true := fun ha => by
      rcases hv.isScalar with hs | hs <;> cases t <;>
        simp [Ir.Ty.isAggregate, Ir.Ty.width?, Ir.Ty.isFloat] at ha hs
    obtain ⟨hlt, hget⟩ := List.getElem?_eq_some_iff.mp hk
    dsimp only [read]
    rw [if_neg hagg]
    refine (Computes.emitPure hh₂ (x := v) ?_).mono fun o mem' h => ?_
    · simp [Ir.Op.eval, Memory.cellAt?, hptr, hlt, hget]
    · refine ⟨b.ty, v, ?_, hinfer, h.1 ▸ ht, h.2.1, h.1 ▸ hv⟩
      rw [h.2.2]
      simp [Expr.eval, hlook, Memory.store, hk]
  | param ty v =>
    obtain ⟨reg, t, hval, rfl, ht, hreg, hv⟩ := hs
    rw [hval]
    refine .bind hh₁ (.ownedHere hh₁) fun _ st₂ mem₂ hh₂ _ _ _ ho => ?_
    obtain ⟨-, rfl⟩ := ho
    exact .pure hh₂ ⟨b.ty, v, by simp [Expr.eval, hlook], hinfer, ht, hreg, hv⟩
  | fn f => simp [Expr.isScalar, Outlook.routine?, outlook_lookup, hlook, Entity.routine?] at he
  | other =>
    have hforeign : b.value.Foreign st.current.id := hs
    cases hval : b.value with
    | slot ptr ty owner | param reg ty owner =>
      refine .bind hh₁ (.ownedHere hh₁) fun _ _ _ _ _ _ _ ho => ?_
      rw [hval] at hforeign
      exact absurd (ho.1.trans hid) hforeign
    | func name params ret variadic =>
      rw [hval] at hforeign
      exact hforeign.elim
    | struct ty => exact .unsupported
    | member => exact .unsupported
    | marker => exact .unsupported

theorem callTarget_computes {f : Routine} (hf : env.outlook.routine? callee = some f)
    {value : LowerM Operand} :
    Computes W m (callTarget callee value) st mem fun target mem' => mem' = mem ∧
      ∃ params ret g, target = ⟨.named f.link, params, ret, f.variadic⟩ ∧
        List.Forall₂ Ty.Reflects f.params params ∧
        (∀ t, f.ret.scalar? = some t → ret = t) ∧ m.func? f.link = some g ∧ g.ret = ret ∧
        callee.infer st.names = .ok (.fn f.ret 0) := by
  cases callee with
  | ident id =>
    have hlook' : (env.lookup id.name).map Entity.routine? = some (some f) := by
      simpa [Outlook.routine?, outlook_lookup, Option.join_eq_some_iff] using hf
    obtain ⟨e, hlook, hroutine⟩ := Option.map_eq_some_iff.mp hlook'
    have hnamed : Computes W m (named? (.ident id)) st mem fun target mem' => mem' = mem ∧
        ∃ params ret g, target = some ⟨.named f.link, params, ret, f.variadic⟩ ∧
          List.Forall₂ Ty.Reflects f.params params ∧
          (∀ t, f.ret.scalar? = some t → ret = t) ∧ m.func? f.link = some g ∧ g.ret = ret ∧
          (Expr.ident id).infer st.names = .ok (.fn f.ret 0) := by
      unfold named?
      refine .bind hh (.lookup hh) fun h st₁ mem₁ hh₁ _ _ _ hfound => ?_
      obtain ⟨⟨b, e', hb, rfl, hlook', hs⟩, rfl⟩ := hfound
      obtain rfl : e = e' := Option.some.inj (hlook.symm.trans hlook')
      cases e with
      | fn f' =>
        obtain rfl : f' = f := Option.some.inj hroutine
        obtain ⟨params, ret, hval, hty, hparams, hret, g, hg, hgret⟩ := hs
        rw [hval]
        exact .pure hh₁ ⟨rfl, params, ret, g, rfl, hparams, hret, hg, hgret,
          by simp [Expr.infer, hb, hty]⟩
      | var ty k => cases hroutine
      | param ty v => cases hroutine
      | other => cases hroutine
    refine .bind hh hnamed fun target st₁ mem₁ hh₁ _ _ _ h => ?_
    obtain ⟨rfl, params, ret, g, rfl, h⟩ := h
    exact .pure hh₁ ⟨rfl, params, ret, g, rfl, h⟩
  | literal | paren | unary | binary | cast | call | member => cases hf

theorem call_computes {f : Routine} (hf : env.outlook.routine? callee = some f)
    {value : LowerM Operand} {es : List Expr}
    (hargs : ∀ tys st₁ mem₁, Holds m env st₁ mem₁ →
      List.Forall₂ Ty.Reflects f.params tys →
      Computes W m (arguments tys f.variadic es) st₁ mem₁
      (Passed W env f.params f.variadic es mem₁)) :
    Computes W m (call callee value fun tys variadic => arguments tys variadic es) st mem
      fun r mem' => callee.infer st.names = .ok (.fn f.ret 0) ∧ Answered W env f es mem r mem' := by
  refine .bind hh (callTarget_computes hh hf) fun target st₁ mem₁ hh₁ _ _ _ htarget => ?_
  obtain ⟨rfl, params, ret, g, rfl, hparams, hret, hg, hgret, hinfer⟩ := htarget
  refine .bind hh₁ (hargs params st₁ _ hh₁ hparams) fun regs st₂ mem₂ hh₂ _ _ _ hpassed => ?_
  obtain ⟨vs, heval, hregs⟩ := hpassed
  have hop : (Ir.Op.call f.link regs).eval W m mem₂ = some
      (if ret = .void then none else some (.read ret (W.answer mem₂.calls ⟨f.link, vs⟩)),
        { mem₂ with calls := mem₂.calls ++ [⟨f.link, vs⟩] }) := by
    simp [Ir.Op.eval, hg, hgret, hregs]
  have hle : mem₂.Le { mem₂ with calls := mem₂.calls ++ [⟨f.link, vs⟩] } := ⟨fun _ _ h => h,
    fun _ v h => ⟨v, h, fun _ ht => ht⟩⟩
  dsimp only [Callee.op]
  split
  · rename_i hvoid
    rw [if_pos hvoid] at hop
    refine .bind hh₂ (.emitVoid hh₂ hop rfl hle) fun _ st₃ mem₃ hh₃ _ _ _ h => ?_
    obtain rfl := h
    refine .pure hh₃ ⟨hinfer, vs, mem₂.store, heval, rfl, fun t ht => ?_⟩
    obtain rfl := hret t ht
    rw [hvoid] at ht
    exact absurd (Ty.isScalar_of_scalar? ht) (by simp [Ir.Ty.IsScalar, Ir.Ty.width?, Ir.Ty.isFloat])
  · rename_i hvoid
    rw [if_neg hvoid] at hop
    refine .bind hh₂ (.emit hh₂ hop rfl hle) fun v st₃ mem₃ hh₃ _ _ _ h => ?_
    refine .pure hh₃ ⟨hinfer, vs, mem₂.store, heval, h.2.2, fun t ht => ?_⟩
    obtain rfl := hret t ht
    exact ⟨v, rfl, h.1, h.2.1, h.1 ▸ Val.hasTy_read (Ty.isScalar_of_scalar? ht) _⟩

theorem argument_computes (hv : v.Is x mem) {tys : List Ty} {params : List Ir.Ty}
    (hparams : List.Forall₂ Ty.Reflects tys params) {variadic : Bool} :
    Computes W m (argument params.head? variadic v s) st mem fun v' mem' => ∃ x',
      x.pass W.floats tys.head? variadic = some x' ∧ v'.Is x' mem' ∧ mem'.store = mem.store := by
  cases hparams with
  | cons hty _ =>
    refine (convert_computes hh hv _).mono fun v' mem' h => ?_
    obtain ⟨x', hx', hty', his, hst⟩ := h
    exact ⟨x', by simp [Val.pass, hty (hty' ▸ his.ty.isScalar), hx'], his, hst⟩
  | nil =>
    have hshort : x.isShort = true ↔ v.ty = .f32 := by
      obtain ⟨w, a, rfl, hw⟩ | ⟨a, rfl, hf⟩ := hv.ty.cases
      · cases ht : v.ty <;> simp_all [Val.isShort, Ir.Ty.width?]
      · cases ht : v.ty <;> simp_all [Val.isShort, Ir.Ty.isFloat]
    dsimp only [argument, List.head?_nil]
    split
    · rename_i h
      refine (convert_computes hh hv _).mono fun v' mem' hc => ?_
      obtain ⟨x', hx', -, his, hst⟩ := hc
      exact ⟨x', by simp [Val.pass, h.1, hshort.mpr h.2, hx'], his, hst⟩
    · rename_i h
      refine .pure hh ⟨x, ?_, hv, rfl⟩
      have hnot : ¬ (variadic && x.isShort) = true := by simpa [hshort] using h
      simp [Val.pass, hnot]

/-- Both operands of a logical operator are evaluated. -/
theorem logical_computes (hop : op.isLogical = true) (hl : Computed W m env lhs)
    (hr : Computed W m env rhs) :
    Computes W m (value (.binary op lhs rhs s)) st mem fun o mem' =>
      ∃ ty x, Evaluates W env (.binary op lhs rhs s) st mem o mem' ty x := by
  unfold value
  rw [if_pos hop]
  refine .bind hh (hl st mem hh) fun v st₁ mem₁ hh₁ _ hn₁ _ hv => ?_
  obtain ⟨lty, x, hv⟩ := hv
  refine .bind hh₁ (truthy_computes hh₁ hv.is) fun a st₂ mem₂ hh₂ _ hn₂ _ ha => ?_
  obtain ⟨p, hp, -, hareg, hast⟩ := ha
  refine .bind hh₂ (hr st₂ mem₂ hh₂) fun u st₃ mem₃ hh₃ hle₃ _ _ hu => ?_
  obtain ⟨rty, y, hu⟩ := hu
  refine .bind hh₃ (truthy_computes hh₃ hu.is) fun b st₄ mem₄ hh₄ hle₄ _ _ hb => ?_
  obtain ⟨q, hq, -, hbreg, hbst⟩ := hb
  have hareg' := (hle₃.trans hle₄).regs _ _ hareg
  refine (Computes.emitPure hh₄ (x := .bit (op.connect p q)) ?_).mono fun o mem' h => ?_
  · simp [Ir.Op.eval, hareg', hbreg, connect_eval]
  · have hueval := hu.eval
    rw [hast] at hueval
    refine ⟨.bool, .bit (op.connect p q), ?_, ?_, h.1 ▸ rfl, h.2.1, h.1 ▸ Val.hasTy_bit _⟩
    · simp [Expr.eval, hv.eval, hueval, hop, hp, hq, h.2.2, hbst]
    · have hinfer := hu.infer
      rw [hn₂, hn₁] at hinfer
      refine bind_eq_ok.mpr ⟨lty, hv.infer, bind_eq_ok.mpr ⟨rty, hinfer, ?_⟩⟩
      simp [BinaryOp.infer, BinaryOp.yieldsBool, hop]

/-- The operands of any other operator meet in one type. -/
theorem arithmetic_computes (hop : op.isLogical = false) (hl : Computed W m env lhs)
    (hr : Computed W m env rhs) :
    Computes W m (value (.binary op lhs rhs s)) st mem fun o mem' =>
      ∃ ty x, Evaluates W env (.binary op lhs rhs s) st mem o mem' ty x := by
  unfold value
  rw [if_neg (by simp [hop])]
  refine .bind hh (.infer hh) fun lty st₁ mem₁ hh₁ _ hn₁ _ hlty => ?_
  obtain ⟨hlty, rfl⟩ := hlty
  refine .bind hh₁ (.infer hh₁) fun rty st₂ mem₂ hh₂ _ hn₂ _ hrty => ?_
  obtain ⟨hrty, rfl⟩ := hrty
  refine .bind hh₂ (.reading hh₂ fun _ _ => joined_inv) fun ty st₃ mem₃ hh₃ _ hn₃ _ hjoin => ?_
  obtain ⟨hjoin, rfl⟩ := hjoin
  refine .bind hh₃ (.lowerType hh₃) fun t st₄ mem₄ hh₄ _ hn₄ _ hlow => ?_
  obtain ⟨hlow, rfl⟩ := hlow
  refine .bind hh₄ (hl st₄ _ hh₄) fun v st₅ mem₅ hh₅ _ hn₅ _ hv => ?_
  obtain ⟨lty', x, hv⟩ := hv
  refine .bind hh₅ (convert_computes hh₅ hv.is t) fun a st₆ mem₆ hh₆ _ hn₆ _ ha => ?_
  obtain ⟨x', hx', hat, ha, hast⟩ := ha
  refine .bind hh₆ (hr st₆ mem₆ hh₆) fun u st₇ mem₇ hh₇ hle₇ _ _ hu => ?_
  obtain ⟨rty', y, hu⟩ := hu
  refine .bind hh₇ (convert_computes hh₇ hu.is t) fun b st₈ mem₈ hh₈ hle₈ _ _ hb => ?_
  obtain ⟨y', hy', hbt, hb, hbst⟩ := hb
  have ha' := ha.mono (hle₇.trans hle₈)
  -- the types that were inferred in advance are those of the operands
  have hnames : st₄.names = st.names := by rw [hn₄, hn₃, hn₂, hn₁]
  have hvinfer := hv.infer
  have huinfer := hu.infer
  rw [hnames] at hvinfer
  rw [hn₆, hn₅, hnames] at huinfer
  rw [hn₁] at hrty
  obtain rfl : lty = lty' := Except.ok.inj (hlty.symm.trans hvinfer)
  obtain rfl : rty = rty' := Except.ok.inj (hrty.symm.trans huinfer)
  obtain ⟨t', ht'⟩ : ∃ t', ty.scalar? = some t' := by
    rcases Ty.join_eq hjoin with rfl | rfl
    · exact ⟨_, hv.scalar⟩
    · exact ⟨_, hu.scalar⟩
  obtain rfl := Ty.lower_scalar? ht' hlow
  refine (apply_computes hh₈ ha'.reg hb.reg (hat ▸ ha.ty) (hbt ▸ hb.ty)).mono fun o mem' h => ?_
  obtain ⟨z, hz, hoty, ho, host⟩ := h
  have hueval := hu.eval
  rw [hast] at hueval
  refine ⟨if op.isComparison then .bool else ty, z, ?_, ?_, ?_, ho⟩
  · simp [Expr.eval, hv.eval, hueval, hop, hjoin, Except.toOption, ht', hx', hy', hz, host, hbst]
  · refine bind_eq_ok.mpr ⟨lty, hlty, bind_eq_ok.mpr ⟨rty, hrty, ?_⟩⟩
    by_cases hc : op.isComparison = true
    · simp [BinaryOp.infer, BinaryOp.yieldsBool, hc]
    · simp [BinaryOp.infer, BinaryOp.yieldsBool, hc, hop, hjoin, Except.mapError]
  · rw [hoty]
    split
    · rfl
    · exact ht'

end

mutual

theorem value_computes (e : Expr) {st : State} {mem : Memory F} (hh : Holds m env st mem)
    (he : e.isScalar env.outlook = true) : Computes W m (value e) st mem fun o mem' =>
      ∃ ty x, Evaluates W env e st mem o mem' ty x := by
  match e with
  | .literal v ty s => exact literal_computes hh he
  | .ident id =>
    unfold value
    exact ident_computes hh he
  | .paren inner s =>
    unfold value
    refine (value_computes inner hh he).mono fun o mem' h => ?_
    obtain ⟨ty, x, h⟩ := h
    exact ⟨ty, x, h.eval, h.infer, h.scalar, h.is⟩
  | .unary op operand s =>
    unfold value
    obtain ⟨hop, ho⟩ : op.isScalar = true ∧ operand.isScalar env.outlook = true := by
      simpa [Expr.isScalar] using he
    refine .bind hh (value_computes operand hh ho) fun v st₁ mem₁ hh₁ _ _ _ hv => ?_
    obtain ⟨ty, x, hv⟩ := hv
    refine (unary_computes hh₁ hv.is hop).mono fun v' mem' h => ?_
    obtain ⟨x', hx', hty, his, hst⟩ := h
    refine ⟨if op = .not then .bool else ty, x', ?_, ?_, ?_, his⟩
    · simp [Expr.eval, hv.eval, hx', hst]
    · refine bind_eq_ok.mpr ⟨ty, hv.infer, ?_⟩
      cases op <;> first | rfl | cases hop
    · rw [hty]
      split
      · rfl
      · exact hv.scalar
  | .binary op lhs rhs s =>
    obtain ⟨hl, hr⟩ : lhs.isScalar env.outlook = true ∧ rhs.isScalar env.outlook = true := by
      simpa [Expr.isScalar] using he
    by_cases hop : op.isLogical = true
    · exact logical_computes hh hop (fun _ _ hh' => value_computes lhs hh' hl)
        fun _ _ hh' => value_computes rhs hh' hr
    · exact arithmetic_computes hh (by simpa using hop) (fun _ _ hh' => value_computes lhs hh' hl)
        fun _ _ hh' => value_computes rhs hh' hr
  | .cast operand ty s =>
    unfold value
    obtain ⟨hty, ho⟩ : ty.scalar?.isSome = true ∧ operand.isScalar env.outlook = true := by
      simpa [Expr.isScalar] using he
    obtain ⟨t, ht⟩ := Option.isSome_iff_exists.mp hty
    refine .bind hh (.lowerType hh) fun t' st₁ mem₁ hh₁ _ _ _ hlow => ?_
    obtain ⟨hlow, rfl⟩ := hlow
    obtain rfl := Ty.lower_scalar? ht hlow
    refine .bind hh₁ (value_computes operand hh₁ ho) fun v st₂ mem₂ hh₂ _ _ _ hv => ?_
    obtain ⟨ty', x, hv⟩ := hv
    refine (convert_computes hh₂ hv.is _).mono fun v' mem' h => ?_
    obtain ⟨x', hx', hty', his, hst⟩ := h
    exact ⟨ty, x', by simp [Expr.eval, hv.eval, ht, hx', hst], rfl, hty' ▸ ht, his⟩
  | .call callee args s =>
    unfold value
    obtain ⟨⟨f, hf, hret⟩, ha⟩ : (∃ f, env.outlook.routine? callee = some f ∧
        f.ret.scalar?.isSome = true) ∧ argsAreScalar env.outlook args = true := by
      simpa [Expr.isScalar, Option.any_eq_true] using he
    obtain ⟨t, ht⟩ := Option.isSome_iff_exists.mp hret
    refine .bind hh (call_computes hh hf fun _ _ _ hh₁ hps => arguments_computes args hh₁ hps ha)
      fun r st₁ mem₁ hh₁ _ _ _ h => ?_
    obtain ⟨hinfer, vs, σ, heval, hst, hscalar⟩ := h
    obtain ⟨v, rfl, hty, his⟩ := hscalar t ht
    refine .pure hh₁ ⟨f.ret, _, ?_, ?_, hty ▸ ht, his⟩
    · simp [Expr.eval, hf, heval, ht, hst]
    · exact bind_eq_ok.mpr ⟨_, hinfer, rfl⟩
  | .member .. => simp [Expr.isScalar] at he

theorem arguments_computes (es : List Expr) {st : State} {mem : Memory F} (hh : Holds m env st mem)
    {tys : List Ty} {params : List Ir.Ty}
    (hparams : List.Forall₂ Ty.Reflects tys params)
    (hes : argsAreScalar env.outlook es = true) {variadic : Bool} :
    Computes W m (arguments params variadic es) st mem (Passed W env tys variadic es mem) := by
  match es with
  | [] =>
    unfold arguments
    exact .pure hh ⟨[], rfl, rfl⟩
  | e :: es =>
    unfold arguments
    obtain ⟨he, hes⟩ : e.isScalar env.outlook = true ∧ argsAreScalar env.outlook es = true := by
      simpa [argsAreScalar] using hes
    have htail : List.Forall₂ Ty.Reflects tys.tail params.tail := by
      cases hparams with
      | nil => exact .nil
      | cons _ h => exact h
    refine .bind hh (value_computes e hh he) fun v st₁ mem₁ hh₁ _ _ _ hv => ?_
    obtain ⟨ty, x, hv⟩ := hv
    refine .bind hh₁ (argument_computes hh₁ hv.is hparams) fun v' st₂ mem₂ hh₂ _ _ _ hv' => ?_
    obtain ⟨x', hx', his, hst⟩ := hv'
    refine .bind hh₂ (arguments_computes es hh₂ htail hes) fun regs st₃ mem₃ hh₃ hle _ _ hr => ?_
    obtain ⟨vs, hvs, hregs⟩ := hr
    refine .pure hh₃ ⟨x' :: vs, ?_, ?_⟩
    · rw [hst] at hvs
      simp [evalArgs, hv.eval, hx', hvs]
    · simp [List.mapM_cons, hle.regs _ _ his.reg, hregs]

end

variable (hh : Holds m env st mem)

include hh

theorem valueAs_computes (he : e.isScalar env.outlook = true) (hty : ty.Reflects t) :
    Computes W m (valueAs t e) st mem fun v mem' => ∃ x,
      e.evalAs W env ty mem.store = some (x, mem'.store) ∧ v.ty = t ∧ v.Is x mem' := by
  refine .bind hh (value_computes e hh he) fun v st₁ mem₁ hh₁ _ _ _ hv => ?_
  obtain ⟨ety, x, hv⟩ := hv
  refine (convert_computes hh₁ hv.is t).mono fun v' mem' h => ?_
  obtain ⟨x', hx', hvt, his, hst⟩ := h
  have hscalar : ty.scalar? = some t := hty (hvt ▸ his.ty.isScalar)
  exact ⟨x', by simp [Expr.evalAs, hv.eval, hscalar, hx', hst], hvt, his⟩

theorem effect_computes (he : e.isScalarEffect env.outlook = true) :
    Computes W m (effect e) st mem fun _ mem' =>
      e.perform W env mem.store = some mem'.store := by
  unfold effect
  split
  · rename_i callee args s
    obtain ⟨hcallee, ha⟩ : (env.outlook.routine? callee).isSome = true ∧
        argsAreScalar env.outlook args = true := by
      simpa [Expr.isScalarEffect] using he
    obtain ⟨f, hf⟩ := Option.isSome_iff_exists.mp hcallee
    refine .bind hh (call_computes hh hf fun _ _ _ hh₁ hps => arguments_computes args hh₁ hps ha)
      fun r st₁ mem₁ hh₁ _ _ _ h => ?_
    obtain ⟨-, vs, σ, heval, hst, -⟩ := h
    exact .pure hh₁ (by simp [Expr.perform, hf, heval, hst])
  · rename_i hcall
    have he' : e.isScalar env.outlook = true := by
      unfold Expr.isScalarEffect at he
      split at he
      · exact absurd rfl (hcall _ _ _)
      · exact he
    refine .bind hh (value_computes e hh he') fun v st₁ mem₁ hh₁ _ _ _ hv => ?_
    obtain ⟨ty, x, hv⟩ := hv
    refine .pure hh₁ ?_
    unfold Expr.perform
    split
    · exact absurd rfl (hcall _ _ _)
    · simp [hv.eval]

/-- The value of an expression is put into a cell that holds a value of its type. -/
theorem storeAs_computes (he : e.isScalar env.outlook = true) (hty : ty.scalar? = some t)
    {ptr : Ir.Reg}
    {k : Nat} (hptr : mem.regs ptr = some (.cell k)) {old : Val F} (hk : mem.cells[k]? = some old)
    (hold : old.HasTy t) :
    Computes W m (storeAs ptr t e) st mem fun _ mem' =>
      e.assign W env k ty mem.store = some mem'.store := by
  refine .bind hh (valueAs_computes hh he fun _ => hty) fun v st₁ mem₁ hh₁ hle _ _ hv => ?_
  obtain ⟨x, hx, hvt, his⟩ := hv
  obtain ⟨old₁, hk₁, hold₁⟩ := hle.cells k old hk
  have hlt := (List.getElem?_eq_some_iff.mp hk₁).1
  have hop : (Ir.Op.store ptr v.reg).eval W m mem₁ =
      some (none, { mem₁ with cells := mem₁.cells.set k x }) := by
    simp [Ir.Op.eval, Memory.cellAt?, hle.regs _ _ hptr, hlt, his.reg]
  refine (Computes.emitVoid hh₁ hop rfl ⟨fun _ _ h => h, fun j y hj => ?_⟩).mono fun _ mem' h => ?_
  · by_cases hjk : k = j
    · subst hjk
      obtain rfl : old₁ = y := Option.some.inj (hk₁.symm.trans hj)
      refine ⟨x, by simp [hlt], fun t' ht' => ?_⟩
      rw [← Val.HasTy.unique (hold₁ t hold) ht', ← hvt]
      exact his.ty
    · exact ⟨y, by simpa [List.getElem?_set_ne hjk] using hj, fun _ ht => ht⟩
  · rw [h, Expr.assign, hx]
    rfl

/-- Only variables can be assigned to. -/
theorem assign_computes {target : Ident} (he : e.isScalar env.outlook = true) :
    Computes W m (assign target e) st mem fun _ mem' =>
      ∃ ty k, env.lookup target.name = some (.var ty k) ∧
        e.assign W env k ty mem.store = some mem'.store := by
  refine .bind hh (.lookup hh) fun h st₁ mem₁ hh₁ _ _ hid hlook => ?_
  obtain ⟨⟨b, entity, -, rfl, hlook, hs⟩, rfl⟩ := hlook
  cases entity with
  | var ty k =>
    obtain ⟨ptr, t, v, hval, -, ht, hptr, hk, hv⟩ := hs
    rw [hval]
    refine .bind hh₁ (.ownedHere hh₁) fun _ st₂ mem₂ hh₂ _ _ _ ho => ?_
    obtain ⟨-, rfl⟩ := ho
    exact (storeAs_computes hh₂ he ht hptr hk hv).mono fun _ mem' h => ⟨ty, k, hlook, h⟩
  | param ty v =>
    obtain ⟨reg, t, hval, -⟩ := hs
    rw [hval]
    exact .unsupported
  | fn f =>
    obtain ⟨params, ret, hval, -⟩ := hs
    rw [hval]
    exact .unsupported
  | other =>
    have hforeign : b.value.Foreign st.current.id := hs
    cases hval : b.value with
    | slot ptr ty owner =>
      refine .bind hh₁ (.ownedHere hh₁) fun _ _ _ _ _ _ _ ho => ?_
      rw [hval] at hforeign
      exact absurd (ho.1.trans hid) hforeign
    | param | func | struct | member | marker => exact .unsupported

/-- What is returned, if something is. -/
theorem returned_computes {e : Option Expr} (he : e.all (·.isScalar env.outlook) = true) {ret : Ty}
    (hret : ret.Reflects st.current.ret) (links : List String) (s : Span) :
    Computes W m (returned e) st mem fun r mem' => ∃ v,
      (Stmt.return_ e s).exec W ret links env mem.store = some (.returned v, mem'.store) ∧
      (Ir.Terminator.ret r).exec mem' = some (.halted (.returned v) mem'.calls) := by
  cases e with
  | none => exact .pure hh ⟨none, rfl, rfl⟩
  | some e =>
    refine .getBind (.bind hh (valueAs_computes hh (by simpa using he) hret)
      fun v st₁ mem₁ hh₁ _ _ _ hv => ?_)
    obtain ⟨x, hx, -, his⟩ := hv
    refine .pure hh₁ ⟨some x, ?_, ?_⟩
    · simp [Stmt.exec, hx]
    · simp [Ir.Terminator.exec, his.reg]

end Logic

end Lowering

end Frontend
