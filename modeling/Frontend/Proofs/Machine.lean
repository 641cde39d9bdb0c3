import Frontend.Proofs.Scalar

/-!
A machine that runs functions of the lowered form. It has a register file, which instructions fill,
a list of cells, and the calls made so far; other functions are not run, the world answers for them.
Where an instruction makes no sense of its operands the machine is stuck. Straight code does what
its instructions do one after the other, wherever it stands.
-/
namespace Frontend.Ir

variable {F : Type}

def Constant.eval (A : FloatArith F) (t : Ty) : Constant → Option (Val F)
  | .int v => t.width?.map fun w => .int w (.ofInt w v)
  | .bool b => if t = .bool then some (.bit b) else none
  | .float v => if t.isFloat then some (.float t (A.literal t v)) else none
  | .str _ => none

def BinOp.word? {w : Nat} (a b : BitVec w) : BinOp → Option (BitVec w)
  | .add => some (a + b)
  | .sub => some (a - b)
  | .mul => some (a * b)
  | .and => some (a &&& b)
  | .or => some (a ||| b)
  | .xor => some (a ^^^ b)
  | .shl => some (a <<< b.toNat)
  | .ashr => some (a.sshiftRight b.toNat)
  | .fadd | .fsub | .fmul | .fdiv => none

def BinOp.float? (A : FloatArith F) (t : Ty) (x y : F) : BinOp → Option F
  | .fadd => some (A.add t x y)
  | .fsub => some (A.sub t x y)
  | .fmul => some (A.mul t x y)
  | .fdiv => some (A.div t x y)
  | _ => none

def BinOp.eval (A : FloatArith F) (op : BinOp) (a b : Val F) : Option (Val F) := do
  match ← a.pair? b with
  | .ints w a b => return .int w (← op.word? a b)
  | .floats t x y => return .float t (← op.float? A t x y)

def UnOp.eval (A : FloatArith F) : UnOp → Val F → Option (Val F)
  | .neg, .int w x => some (.int w (-x))
  | .fneg, .float t x => some (.float t (A.neg t x))
  | .not, .int w x => some (.int w (~~~x))
  | _, _ => none

/-- The comparisons of integers are signed. -/
def Cmp.holds {w : Nat} (a b : BitVec w) : Cmp → Bool
  | .eq => a == b
  | .ne => a != b
  | .lt => a.slt b
  | .le => a.sle b
  | .gt => b.slt a
  | .ge => b.sle a

def Cmp.holdsFloat (A : FloatArith F) (x y : F) : Cmp → Bool
  | .eq => A.eq x y
  | .ne => !A.eq x y
  | .lt => A.lt x y
  | .le => A.le x y
  | .gt => A.lt y x
  | .ge => A.le y x

def Cmp.evalInt (c : Cmp) (a b : Val F) : Option (Val F) := do
  match ← a.pair? b with
  | .ints _ a b => return .bit (c.holds a b)
  | .floats .. => none

def Cmp.evalFloat (A : FloatArith F) (c : Cmp) (a b : Val F) : Option (Val F) := do
  match ← a.pair? b with
  | .ints .. => none
  | .floats _ x y => return .bit (c.holdsFloat A x y)

def Conv.eval (A : FloatArith F) (op : Conv) (t : Ty) (v : Val F) : Option (Val F) :=
  match op, v, t.width? with
  | .sext, .int _ x, some n => some (.int n (x.signExtend n))
  | .zext, .int _ x, some n => some (.int n (x.setWidth n))
  | .trunc, .int _ x, some n => some (.int n (x.setWidth n))
  | .fptosi, .float _ x, some n => some (.int n (.ofInt n (A.toInt x)))
  | .sitofp, .int _ x, none => if t.isFloat then some (.float t (A.ofInt t x.toInt)) else none
  | .fpext, .float _ x, none => if t.isFloat then some (.float t (A.resize t x)) else none
  | .fptrunc, .float _ x, none => if t.isFloat then some (.float t (A.resize t x)) else none
  | _, _, _ => none

structure Memory (F : Type) where
  regs : Reg → Option (Val F)
  cells : List (Val F)
  calls : List (Call F)

namespace Memory

def set (mem : Memory F) (r : Reg) (v : Val F) : Memory F :=
  { mem with regs := fun r' => if r' = r then some v else mem.regs r' }

@[simp] theorem regs_set_same (mem : Memory F) (r : Reg) (v : Val F) :
    (mem.set r v).regs r = some v := by simp [set]

theorem regs_set_other (mem : Memory F) {r r' : Reg} (v : Val F) (h : r' ≠ r) :
    (mem.set r v).regs r' = mem.regs r' := by simp [set, h]

@[simp] theorem cells_set (mem : Memory F) (r : Reg) (v : Val F) :
    (mem.set r v).cells = mem.cells := rfl

@[simp] theorem calls_set (mem : Memory F) (r : Reg) (v : Val F) :
    (mem.set r v).calls = mem.calls := rfl

end Memory

/-- The cell behind an address. -/
def Memory.cellAt? (mem : Memory F) (ptr : Reg) : Option Nat :=
  match mem.regs ptr with
  | some (.cell k) => if k < mem.cells.length then some k else none
  | _ => none

/-- The value of an operation, if it has one, and the memory after it. -/
def Op.eval (W : World F) (m : Module) (mem : Memory F) : Op → Option (Option (Val F) × Memory F)
  | .const t c => do return (some (← c.eval W.floats t), mem)
  | .binary op a b => do return (some (← op.eval W.floats (← mem.regs a) (← mem.regs b)), mem)
  | .unary op a => do return (some (← op.eval W.floats (← mem.regs a)), mem)
  | .icmp c a b => do return (some (← c.evalInt (← mem.regs a) (← mem.regs b)), mem)
  | .fcmp c a b => do return (some (← c.evalFloat W.floats (← mem.regs a) (← mem.regs b)), mem)
  | .convert op a t => do return (some (← op.eval W.floats t (← mem.regs a)), mem)
  | .alloca t =>
    let k := mem.cells.length
    some (some (.cell k), { mem with cells := mem.cells ++ [.read t (W.fresh k)] })
  | .load ptr _ => do return (some (← mem.cells[← mem.cellAt? ptr]?), mem)
  | .store ptr v => do
    return (none, { mem with cells := mem.cells.set (← mem.cellAt? ptr) (← mem.regs v) })
  | .call name args => do
    let callee ← m.func? name
    let call : Call F := ⟨name, ← args.mapM mem.regs⟩
    let answer := Val.read callee.ret (W.answer mem.calls call)
    return (if callee.ret = .void then none else some answer,
      { mem with calls := mem.calls ++ [call] })
  | .fieldPtr .. | .callPtr .. | .funcRef .. => none

def Instr.exec (W : World F) (m : Module) (mem : Memory F) (i : Instr) : Option (Memory F) := do
  match i.result, ← i.op.eval W m mem with
  | some r, (some v, mem) => return mem.set r v
  | none, (none, mem) => return mem
  | _, _ => none

/-- Straight code. -/
def execAll (W : World F) (m : Module) : List Instr → Memory F → Option (Memory F)
  | [], mem => some mem
  | i :: is, mem => (i.exec W m mem).bind (execAll W m is)

theorem execAll_append (W : World F) (m : Module) (code more : List Instr) (mem : Memory F) :
    execAll W m (code ++ more) mem = (execAll W m code mem).bind (execAll W m more) := by
  induction code generalizing mem with
  | nil => rfl
  | cons i is ih =>
    cases h : i.exec W m mem with
    | none => simp [execAll, h]
    | some mem' => simpa [execAll, h] using ih mem'

/-- Where a function stands: before an instruction of a block, or before its terminator. -/
structure Config (F : Type) where
  block : BlockId
  pc : Nat
  mem : Memory F

inductive Status (F : Type) where
  | running (c : Config F)
  | halted (o : Outcome F) (calls : List (Call F))

def Terminator.exec (mem : Memory F) : Terminator → Option (Status F)
  | .ret none => some (.halted (.returned none) mem.calls)
  | .ret (some r) => do return .halted (.returned (some (← mem.regs r))) mem.calls
  | .br target => some (.running ⟨target, 0, mem⟩)
  | .condBr cond yes no => do
    match ← mem.regs cond with
    | .int 1 x => return .running ⟨if x = 0 then no else yes, 0, mem⟩
    | _ => none
  | .unreachable => some (.halted .unreachable mem.calls)

def Func.block? (f : Func) (id : BlockId) : Option Block := f.blocks.find? (·.id = id)

def step (W : World F) (m : Module) (f : Func) (c : Config F) : Option (Status F) := do
  let b ← f.block? c.block
  match b.instrs[c.pc]? with
  | some i => return .running ⟨c.block, c.pc + 1, ← i.exec W m c.mem⟩
  | none => (← b.terminator).exec c.mem

/-- The outcome of at most so many steps, and the calls made. -/
def run (W : World F) (m : Module) (f : Func) :
    Nat → Config F → Option (Outcome F × List (Call F))
  | 0, _ => none
  | n + 1, c =>
    match step W m f c with
    | some (.running c') => run W m f n c'
    | some (.halted o calls) => some (o, calls)
    | none => none

/-- The first block, with the arguments in the registers of the parameters. -/
def Func.start (f : Func) (args : List (Val F)) : Config F :=
  ⟨(f.blocks.head?.map (·.id)).getD ⟨0⟩, 0,
    ⟨fun r => ((f.params.map Prod.fst).zip args).lookup r, [], []⟩⟩

section Runs

variable {W : World F} {m : Module} {f : Func} {c c' : Config F}

theorem run_of_running (h : step W m f c = some (.running c')) (n : Nat) :
    run W m f (n + 1) c = run W m f n c' := by
  rw [run, h]

theorem run_of_halted {o : Outcome F} {calls : List (Call F)}
    (h : step W m f c = some (.halted o calls))
    (n : Nat) : run W m f (n + 1) c = some (o, calls) := by
  rw [run, h]

/-- Whatever `c'` comes to, `c` comes to it some steps later. -/
def Reaches (W : World F) (m : Module) (f : Func) (c c' : Config F) : Prop :=
  ∃ n, ∀ k, run W m f (k + n) c = run W m f k c'

/-- The run from `c` ends with `r`, and more steps do not change that. -/
def Halts (W : World F) (m : Module) (f : Func) (c : Config F)
    (r : Outcome F × List (Call F)) : Prop :=
  ∃ n, ∀ k, run W m f (k + n) c = some r

theorem Reaches.refl (c : Config F) : Reaches W m f c c := ⟨0, fun _ => rfl⟩

theorem Reaches.trans {c'' : Config F} (h : Reaches W m f c c') (h' : Reaches W m f c' c'') :
    Reaches W m f c c'' := by
  obtain ⟨n, hn⟩ := h
  obtain ⟨n', hn'⟩ := h'
  exact ⟨n' + n, fun k => by rw [← Nat.add_assoc, hn, hn']⟩

theorem Reaches.halts {r : Outcome F × List (Call F)} (h : Reaches W m f c c')
    (h' : Halts W m f c' r) : Halts W m f c r := by
  obtain ⟨n, hn⟩ := h
  obtain ⟨n', hn'⟩ := h'
  exact ⟨n' + n, fun k => by rw [← Nat.add_assoc, hn, hn']⟩

theorem Reaches.step {c c' : Config F} (h : Ir.step W m f c = some (.running c')) :
    Reaches W m f c c' :=
  ⟨1, run_of_running h⟩

theorem Halts.step {c : Config F} {o : Outcome F} {calls : List (Call F)}
    (h : Ir.step W m f c = some (.halted o calls)) : Halts W m f c (o, calls) :=
  ⟨1, run_of_halted h⟩

/-- Straight code runs through, wherever it stands in its block. -/
theorem reaches_code {b : Block} {before code : List Instr} {mem mem' : Memory F}
    (hb : f.block? b.id = some b) (hp : before ++ code <+: b.instrs)
    (hx : execAll W m code mem = some mem') :
    Reaches W m f ⟨b.id, before.length, mem⟩ ⟨b.id, (before ++ code).length, mem'⟩ := by
  induction code generalizing before mem with
  | nil =>
    obtain rfl : mem = mem' := Option.some.inj hx
    simpa using Reaches.refl _
  | cons i is ih =>
    obtain ⟨mem₁, hi, his⟩ := Option.bind_eq_some_iff.mp hx
    have hat : b.instrs[before.length]? = some i := by
      obtain ⟨rest, hrest⟩ := hp
      simp [← hrest]
    have hstep : Ir.step W m f ⟨b.id, before.length, mem⟩
        = some (.running ⟨b.id, before.length + 1, mem₁⟩) := by
      simp [Ir.step, hb, hat, hi]
    have hp' : (before ++ [i]) ++ is <+: b.instrs := by simpa using hp
    have hrest := ih hp' his
    rw [List.length_append, List.length_singleton] at hrest
    simpa using (Reaches.step hstep).trans hrest

theorem step_terminator {b : Block} {t : Terminator} (hb : f.block? b.id = some b)
    (ht : b.terminator = some t) (mem : Memory F) :
    Ir.step W m f ⟨b.id, b.instrs.length, mem⟩ = t.exec mem := by
  simp [Ir.step, hb, ht]

end Runs

/-- No two blocks have one number, so a block is found by its own. -/
theorem Func.block?_of_mem {f : Func} (hd : (f.blocks.map (·.id)).Nodup) {b : Block}
    (hb : b ∈ f.blocks) : f.block? b.id = some b := by
  unfold block?
  generalize f.blocks = bs at hd hb
  induction bs with
  | nil => cases hb
  | cons b₀ bs ih =>
    rw [List.map_cons, List.nodup_cons] at hd
    rcases List.mem_cons.mp hb with rfl | hb
    · simp
    · have hne : b₀.id ≠ b.id := fun e => hd.1 (e ▸ List.mem_map_of_mem hb)
      simpa [hne] using ih hd.2 hb

end Frontend.Ir
