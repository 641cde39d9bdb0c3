import Frontend.Proofs.Additions
import Frontend.Proofs.Trees

/-!
What lowering an expression does: it adds instructions to the current block and touches nothing
else. The instructions are typed where they stand, and the operand it gives holds a value of its
type.
-/
namespace Frontend

/-- What a name stands for can be used in the function with number `owner` where `c` holds. -/
def Handle.Sound (declared : String → List Ir.Ty → Ir.Ty → Prop) (c : Ir.Ctx) (here : Nat) :
    Handle → Prop
  | .slot ptr ty owner => owner = here → c.Has ptr (.ptr ty)
  | .param reg ty owner => owner = here → c.Has reg ty
  | .func name params ret _ => declared name params ret
  | .struct ty => ty.isAggregate
  | .marker | .member => True

theorem Handle.Sound.mono {declared : String → List Ir.Ty → Ir.Ty → Prop} {c c' : Ir.Ctx}
    (hle : c.Le c') {here : Nat} {h : Handle} (hs : h.Sound declared c here) :
    h.Sound declared c' here := by
  cases h with
  | slot ptr ty owner => exact fun ho => hle.has (hs ho)
  | param reg ty owner => exact fun ho => hle.has (hs ho)
  | _ => exact hs

/-- A literal becomes a constant that the policy lets through. -/
def Ir.Policy.literal (P : Ir.Policy) (v : Value) (ty : Frontend.Ty) : Prop :=
  ∀ names t, ty.lower names = .ok t → P.const t v.constant

namespace Lowering

open Ir (Ctx Straight Policy)

variable {P : Policy} {declared : String → List Ir.Ty → Ir.Ty → Prop} {st st' : State} {c : Ctx}
  {e : Expr}

/-- The names in sight can be used where `c` holds, and `c` has a type for each register so far. -/
structure Ready (declared : String → List Ir.Ty → Ir.Ty → Prop) (st : State) (c : Ctx) : Prop where
  next : c.types.length = st.current.nextReg
  handles : ∀ b ∈ st.names.visible, b.value.Sound declared c st.current.id

namespace Emits

variable {c' : Ctx}

section

variable (h : Emits (Straight P declared) st c st' c')

include h

theorem le : c.Le c' := by
  obtain ⟨_, _, hs⟩ := h
  exact hs.le

theorem ready (hr : Ready declared st c) : Ready declared st' c' := by
  obtain ⟨code, rfl, hs⟩ := h
  refine ⟨?_, fun b hb => Handle.Sound.mono hs.le (hr.handles b hb)⟩
  rw [hs.length, hr.next]
  rfl

end

/-- One instruction with a value. -/
theorem value (hr : Ready declared st c) {op : Ir.Op} {ty : Ir.Ty}
    (hop : op.Typed P declared c.Has (some ty)) :
    Straight P declared c [⟨some ⟨st.current.nextReg⟩, op⟩] (c.push ty) := by
  rw [← hr.next]
  exact .value hop .nil

end Emits

/-- Code is typed, instruction by instruction. -/
def typing (P : Policy) (declared : String → List Ir.Ty → Ir.Ty → Prop) :
    CodeReading Ctx Empty where
  ready := Ready declared
  leads := Straight P declared
  shows _ _ _ := True
  nil _ := ⟨.nil, trivial⟩
  append h _ h' _ := ⟨h.append h', trivial⟩
  extend hr h := Emits.ready ⟨_, rfl, h⟩ hr

/-- The operand holds a value of its type where `c` holds. -/
def Operand.Held (v : Operand) (c : Ctx) : Prop := c.Has v.reg v.ty

/-- `act` only adds typed instructions, and what it gives satisfies `Q` after them. -/
abbrev Lowers (P : Policy) (declared : String → List Ir.Ty → Ir.Ty → Prop) (act : LowerM α)
    (st : State) (c : Ctx) (Q : α → Ctx → Prop) : Prop :=
  Adds (typing P declared) act st c [] Q

namespace Lowers

theorem emitVoid {op : Ir.Op} (hop : op.Typed P declared c.Has none) :
    Lowers P declared (emitVoid op) st c fun _ c' => c' = c :=
  fun _ _ hrun => ⟨_, c, runs_emitVoid.mp hrun, .effect hop .nil, trivial, rfl⟩

variable (hr : Ready declared st c)

include hr

theorem emitReg {op : Ir.Op} {ty : Ir.Ty} (hop : op.Typed P declared c.Has (some ty)) :
    Lowers P declared (emitReg op) st c fun r c' => c'.Has r ty := by
  intro r st' hrun
  obtain ⟨rfl, rfl⟩ := runs_emitReg.mp hrun
  refine ⟨_, c.push ty, rfl, Emits.value hr hop, trivial, ?_⟩
  have := c.has_push ty
  rwa [Ctx.next, hr.next] at this

theorem emit {op : Ir.Op} {ty : Ir.Ty} (hop : op.Typed P declared c.Has (some ty)) :
    Lowers P declared (emit op ty) st c fun v c' => v.Held c' ∧ v.ty = ty :=
  .lead hr (emitReg hr hop) fun _ _ _ _ _ h => .pure ⟨h, rfl⟩

/-- A name that is found stands for something that can be used. -/
theorem lookup {id : Ident} :
    Lowers P declared (lookup id) st c fun h c' => h.Sound declared c st.current.id ∧ c' = c := by
  refine Adds.lookup.mono ?_
  rintro _ _ ⟨⟨b, hb, rfl⟩, rfl⟩
  exact ⟨hr.handles b (ScopeTable.mem_visible_of_find? hb), rfl⟩

end Lowers

section Helpers

variable {v : Operand} {s : Span} {ty : Ir.Ty} {op : BinaryOp}

/-- A conversion between number types of different widths goes the way its name says. -/
theorem conversion?_typed (hv : v.Held c) {target : Ir.Ty} (hne : v.ty ≠ target) {op : Ir.Op}
    (hop : conversion? v target = some op) : op.Typed P declared c.Has (some target) := by
  have hwidth : ∀ m n, v.ty.bits? = some m → target.bits? = some n →
      (v.ty.isInt ∧ target.isInt ∨ v.ty.isFloat ∧ target.isFloat) → ¬ m < n → n < m := by
    intro m n hm hn hcls hlt
    cases hs : v.ty <;> cases ht : target <;> simp_all [Ir.Ty.bits?, Ir.Ty.isInt, Ir.Ty.isFloat] <;>
      omega
  have hbits : ∀ ty : Ir.Ty, ty.isInt ∨ ty.isFloat → ∃ n, ty.bits? = some n := by
    intro ty hty
    cases ty <;> simp_all [Ir.Ty.bits?, Ir.Ty.isInt, Ir.Ty.isFloat]
  unfold conversion? at hop
  extract_lets narrower at hop
  split at hop
  · rename_i h
    obtain rfl := Option.some.inj hop
    exact .zext (h.1 ▸ hv) h.2
  split at hop
  · rename_i _ h
    obtain rfl := Option.some.inj hop
    obtain ⟨m, hm⟩ := hbits _ (.inl h.1)
    obtain ⟨n, hn⟩ := hbits _ (.inl h.2)
    by_cases hlt : m < n
    · simpa [narrower, hm, hn, hlt] using .sext hv h.1 h.2 hm hn hlt
    · simpa [narrower, hm, hn, hlt] using .trunc hv h.1 h.2 hm hn (hwidth m n hm hn (.inl h) hlt)
  split at hop
  · rename_i _ _ h
    obtain rfl := Option.some.inj hop
    exact .sitofp hv h.1 h.2
  split at hop
  · rename_i _ _ _ h
    obtain rfl := Option.some.inj hop
    exact .fptosi hv h.1 h.2
  split at hop
  · rename_i _ _ _ _ h
    obtain rfl := Option.some.inj hop
    obtain ⟨m, hm⟩ := hbits _ (.inr h.1)
    obtain ⟨n, hn⟩ := hbits _ (.inr h.2)
    by_cases hlt : m < n
    · simpa [narrower, hm, hn, hlt] using .fpext hv h.1 h.2 hm hn hlt
    · simpa [narrower, hm, hn, hlt] using .fptrunc hv h.1 h.2 hm hn (hwidth m n hm hn (.inr h) hlt)
  split at hop
  · rename_i h
    obtain rfl := Option.some.inj hop
    have hty : v.ty = .ptr target := by
      cases ht : v.ty <;> simp_all [Ir.Ty.pointee?]
    exact .load (hty ▸ hv)
  · simp at hop

/-- A pointer to a struct, as the test for one has it. -/
theorem pointee?_aggregate (h : (ty.pointee?.map (·.isAggregate)).getD false = true) :
    ∃ s, ty = .ptr s ∧ s.isAggregate := by
  cases ty <;> simp_all [Ir.Ty.pointee?]

/-- The register holds the address of a struct. -/
def HoldsStruct (r : Ir.Reg) (c : Ctx) : Prop := ∃ ty, c.Has r (.ptr ty) ∧ ty.isAggregate

theorem floatOp?_onFloats {o : Ir.BinOp} (h : floatOp? op = some o) : o.onFloats := by
  cases op <;> simp_all [floatOp?] <;> subst h <;> rfl

theorem intOp?_onFloats {o : Ir.BinOp} (h : intOp? op = some o) : o.onFloats = false := by
  cases op <;> simp_all [intOp?] <;> subst h <;> rfl

theorem binaryOp_typed {l r : Ir.Reg} (hl : c.Has l ty) (hr : c.Has r ty) {o : Ir.Op} {t : Ir.Ty}
    (h : binaryOp op ty l r = .ok (o, t)) : o.Typed P declared c.Has (some t) := by
  have hbits : (ty.isInt || decide (ty = .bool)) = ty.isBits := rfl
  simp only [binaryOp, hbits] at h
  split at h
  · split at h
    · obtain ⟨rfl, rfl⟩ := Prod.mk.inj (Except.ok.inj h)
      exact .fcmp ‹_› hl hr
    split at h
    · rename_i hty
      obtain ⟨rfl, rfl⟩ := Prod.mk.inj (Except.ok.inj h)
      exact .icmp (by simpa using hty) hl hr
    · simp at h
  split at h
  · simp at h
  split at h
  · split at h
    · rename_i ho
      obtain ⟨rfl, rfl⟩ := Prod.mk.inj (Except.ok.inj h)
      exact .floats (floatOp?_onFloats ho) ‹_› hl hr
    · simp at h
  split at h
  · split at h
    · simp at h
    split at h
    · rename_i ho
      obtain ⟨rfl, rfl⟩ := Prod.mk.inj (Except.ok.inj h)
      exact .bits (intOp?_onFloats ho) ‹_› hl hr
    · simp at h
  · simp at h

/-- What is called has the parameter and return types it is called with. -/
def CallTarget.Sound (declared : String → List Ir.Ty → Ir.Ty → Prop) (t : CallTarget) (c : Ctx) :
    Prop :=
  match t.callee with
  | .named f => declared f t.params t.ret
  | .pointer r => c.Has r (.fn t.params t.ret)

theorem CallTarget.Sound.typed {t : CallTarget} (ht : t.Sound declared c) {c' : Ctx} (hle : c.Le c')
    {regs : List Ir.Reg} (hregs : Ir.ArgsTyped c'.Has t.params regs) :
    (t.callee.op regs).Typed P declared c'.Has (Ir.callResult t.ret) := by
  obtain ⟨callee, params, ret, variadic⟩ := t
  cases callee with
  | named f => exact .call ht hregs
  | pointer r => exact .callPtr (hle.has ht) hregs

theorem pointedTo_lowers (hv : v.Held c) :
    Lowers P declared (pointedTo v s) st c (CallTarget.Sound declared) := by
  unfold pointedTo
  split
  · rename_i hty
    rw [Operand.Held, hty] at hv
    exact .pure hv
  · exact .unsupported

theorem structPointer_lowers (hv : v.Held c) :
    Lowers P declared (structPointer v s) st c HoldsStruct := by
  unfold structPointer
  split
  · rename_i hty
    obtain ⟨ty, hty, hagg⟩ := pointee?_aggregate hty
    exact .pure ⟨ty, hty ▸ hv, hagg⟩
  · exact .unsupported

section

variable (hr : Ready declared st c)

include hr

theorem read_lowers {ptr : Ir.Reg} (hp : c.Has ptr (.ptr ty)) :
    Lowers P declared (read ptr ty) st c Operand.Held := by
  unfold read
  split
  · exact .pure hp
  · exact (Lowers.emit hr (.load hp)).mono fun _ _ h => h.1

theorem truthy_lowers (hv : v.Held c) :
    Lowers P declared (truthy v s) st c fun v' c' => v'.Held c' ∧ v'.ty = .bool := by
  unfold truthy
  split
  · rename_i hty
    exact .pure ⟨hv, hty⟩
  split
  · rename_i hty
    refine .lead hr (Lowers.emit hr (.const (P.zero _ hty))) fun zero st₁ c₁ he hr₁ hz => ?_
    refine Lowers.emit hr₁ (.icmp (.inl ?_) (he.le.has hv) (hz.2 ▸ hz.1))
    simp [Ir.Ty.isBits, hty]
  split
  · rename_i hty
    refine .lead hr (Lowers.emit hr (.const (P.floatZero _ hty))) fun zero st₁ c₁ he hr₁ hz => ?_
    exact Lowers.emit hr₁ (.fcmp hty (he.le.has hv) (hz.2 ▸ hz.1))
  · exact .unsupported

theorem convert_lowers (hv : v.Held c) (target : Ir.Ty) :
    Lowers P declared (convert v target s) st c fun v' c' => v'.Held c' ∧ v'.ty = target := by
  unfold convert
  split
  · rename_i hty
    exact .pure ⟨hv, hty⟩
  split
  · rename_i hbool
    exact (truthy_lowers hr hv).mono fun _ _ h => ⟨h.1, h.2.trans hbool.1.symm⟩
  split
  · rename_i hne _ _ _ hop
    exact Lowers.emit hr (conversion?_typed hv hne hop)
  · exact .unsupported

theorem ident_lowers {id : Ident} : Lowers P declared (ident id) st c Operand.Held := by
  refine .lead hr (Lowers.lookup hr) fun h st₁ c₁ he hr₁ hh => ?_
  obtain ⟨hs, rfl⟩ := hh
  have hid : st₁.current.id = st.current.id := he.current_id
  cases h with
  | slot ptr ty owner =>
    refine .lead hr₁ .ownedHere fun _ st₂ c₂ _ hr₂ ho => ?_
    obtain ⟨ho, rfl⟩ := ho
    exact read_lowers hr₂ (hs (ho.trans hid))
  | param reg ty owner =>
    refine .lead hr₁ .ownedHere fun _ st₂ c₂ _ hr₂ ho => ?_
    obtain ⟨ho, rfl⟩ := ho
    exact .pure (hs (ho.trans hid))
  | func name params ret variadic => exact (Lowers.emit hr₁ (.funcRef hs)).mono fun _ _ h => h.1
  | struct ty => exact .unsupported
  | member => exact .unsupported
  | marker => exact .unsupported

theorem identAddress_lowers {id : Ident} :
    Lowers P declared (identAddress id) st c HoldsStruct := by
  refine .lead hr (Lowers.lookup hr) fun h st₁ c₁ he hr₁ hh => ?_
  obtain ⟨hs, rfl⟩ := hh
  have hid : st₁.current.id = st.current.id := he.current_id
  cases h with
  | slot ptr ty owner =>
    dsimp only
    split
    · rename_i hty
      refine .lead hr₁ .ownedHere fun _ st₂ c₂ _ hr₂ ho => ?_
      obtain ⟨ho, rfl⟩ := ho
      exact .pure ⟨ty, hs (ho.trans hid), hty⟩
    · exact .unsupported
  | param reg ty owner =>
    dsimp only
    split
    · rename_i hty
      obtain ⟨s, hs', hagg⟩ := pointee?_aggregate hty
      refine .lead hr₁ .ownedHere fun _ st₂ c₂ _ hr₂ ho => ?_
      obtain ⟨ho, rfl⟩ := ho
      exact .pure ⟨s, hs' ▸ hs (ho.trans hid), hagg⟩
    · exact .unsupported
  | func name params ret variadic => exact .unsupported
  | struct ty => exact .unsupported
  | member => exact .unsupported
  | marker => exact .unsupported

theorem unary_lowers (hv : v.Held c) {op : UnaryOp} :
    Lowers P declared (unary op v s) st c Operand.Held := by
  cases op with
  | not =>
    refine .lead hr (truthy_lowers hr hv) fun bit st₁ c₁ _ hr₁ hbit => ?_
    obtain ⟨hbit, hty⟩ := hbit
    rw [Operand.Held, hty] at hbit
    exact (Lowers.emit hr₁ (.not rfl hbit)).mono fun _ _ h => h.1
  | neg =>
    dsimp only [unary]
    split
    · exact (Lowers.emit hr (.fneg ‹_› hv)).mono fun _ _ h => h.1
    split
    · exact (Lowers.emit hr (.neg ‹_› hv)).mono fun _ _ h => h.1
    · exact .unsupported
  | bitNot =>
    dsimp only [unary]
    split
    · rename_i hty
      exact (Lowers.emit hr (.not (by simpa [Ir.Ty.isBits] using hty) hv)).mono fun _ _ h => h.1
    · exact .unsupported
  | addressOf =>
    dsimp only [unary]
    split
    · exact (Lowers.emit hr (.inttoptr hv ‹_›)).mono fun _ _ h => h.1
    · exact .unsupported
  | deref =>
    dsimp only [unary]
    split
    · rename_i ty hty
      split
      · have hptr : v.ty = .ptr ty := by
          cases ht : v.ty <;> simp_all [Ir.Ty.pointee?]
        exact (Lowers.emit hr (.ptrtoint (hptr ▸ hv) ‹_›)).mono fun _ _ h => h.1
      · exact .unsupported
    · exact .unsupported

theorem apply_lowers {l r : Ir.Reg} (hl : c.Has l ty) (hr' : c.Has r ty) :
    Lowers P declared (apply op ty l r s) st c Operand.Held := by
  unfold apply
  split
  · rename_i hop
    exact (Lowers.emit hr (binaryOp_typed hl hr' hop)).mono fun _ _ h => h.1
  · exact .unsupported

theorem named?_lowers (callee : Expr) :
    Lowers P declared (named? callee) st c fun target c' =>
      ∀ t : CallTarget, target = some t → t.Sound declared c' := by
  cases callee with
  | ident id =>
    refine .lead hr (Lowers.lookup hr) fun h st₁ c₁ _ _ hh => ?_
    obtain ⟨hs, rfl⟩ := hh
    cases h with
    | func name params ret variadic =>
      refine .pure ?_
      rintro _ ⟨⟩
      exact hs
    | _ => exact .pure (by simp)
  | _ => exact .pure (by simp)

theorem callTarget_lowers (callee : Expr) {value : LowerM Operand}
    (hvalue : ∀ st₁ c₁, Ready declared st₁ c₁ → Lowers P declared value st₁ c₁ Operand.Held) :
    Lowers P declared (callTarget callee value) st c (CallTarget.Sound declared) := by
  refine .lead hr (named?_lowers hr callee) fun target st₁ c₁ _ hr₁ ht => ?_
  cases target with
  | some t => exact .pure (ht t rfl)
  | none => exact .lead hr₁ (hvalue st₁ c₁ hr₁) fun f st₂ c₂ _ _ hf => pointedTo_lowers hf

theorem call_lowers (callee : Expr) {value : LowerM Operand}
    {args : List Ir.Ty → Bool → LowerM (List Ir.Reg)}
    (hvalue : ∀ st₁ c₁, Ready declared st₁ c₁ → Lowers P declared value st₁ c₁ Operand.Held)
    (hargs : ∀ params variadic st₁ c₁, Ready declared st₁ c₁ →
      Lowers P declared (args params variadic) st₁ c₁ fun regs c' =>
      Ir.ArgsTyped c'.Has params regs) :
    Lowers P declared (call callee value args) st c fun v c' => ∀ w, v = some w → w.Held c' := by
  refine .lead hr (callTarget_lowers hr callee hvalue) fun t st₁ c₁ _ hr₁ ht => ?_
  refine .lead hr₁ (hargs t.params t.variadic st₁ c₁ hr₁) fun regs st₂ c₂ he₂ hr₂ hregs => ?_
  have hop := ht.typed (P := P) he₂.le hregs
  dsimp only
  split
  · rename_i hvoid
    rw [hvoid, Ir.callResult, if_pos rfl] at hop
    exact .lead hr₂ (Lowers.emitVoid hop) fun _ _ _ _ _ _ => .pure (by simp)
  · rename_i hret
    rw [Ir.callResult, if_neg hret] at hop
    refine .lead hr₂ (Lowers.emit hr₂ hop) fun w _ _ _ _ hw => .pure ?_
    rintro _ ⟨⟩
    exact hw.1

theorem argument_lowers (hv : v.Held c) (param : Option Ir.Ty) (variadic : Bool) :
    Lowers P declared (argument param variadic v s) st c fun v' c' =>
      v'.Held c' ∧ ∀ ty, param = some ty → v'.ty = ty := by
  cases param with
  | some ty =>
    refine (convert_lowers hr hv ty).mono fun _ _ h => ⟨h.1, ?_⟩
    rintro _ ⟨⟩
    exact h.2
  | none =>
    dsimp only [argument]
    split
    · exact (convert_lowers hr hv .f64).mono fun _ _ h => ⟨h.1, by simp⟩
    · exact .pure ⟨hv, by simp⟩

end

/-- The address of a member may be taken for a pointer to anything that its type tells. -/
theorem memberAddress_lowers (as : Ir.Ty → Ir.Ty) (hr : Ready declared st c) (whole : Expr)
    (arrow : Bool) {value : LowerM Operand} {address : LowerM Ir.Reg}
    (hvalue : Lowers P declared value st c Operand.Held)
    (haddress : Lowers P declared address st c HoldsStruct) :
    Lowers P declared (memberAddress whole arrow value address) st c fun p c' =>
      c'.Has p.1 (.ptr (as p.2)) := by
  have hptr : Lowers P declared (bif arrow then value >>= (structPointer · whole.span) else address)
      st c HoldsStruct := by
    cases arrow with
    | true => exact .lead hr hvalue fun v _ _ _ _ hv => structPointer_lowers hv
    | false => exact haddress
  refine .lead hr hptr fun ptr st₁ c₁ _ hr₁ hp => ?_
  obtain ⟨s, hp, hagg⟩ := hp
  refine .lead hr₁ .infer fun ty st₂ c₂ _ hr₂ h => ?_
  obtain ⟨_, rfl⟩ := h
  refine .lead hr₂ .lowerType fun t st₃ c₃ _ hr₃ h => ?_
  obtain ⟨_, rfl⟩ := h
  exact .lead hr₃ (Lowers.emitReg hr₃ (Ir.Op.Typed.fieldPtr hp hagg : Ir.Op.Typed P declared _ _
    (some (.ptr (as t))))) fun _ _ _ _ _ h => .pure h

end Helpers

mutual

theorem value_lowers (e : Expr) (he : e.Obeys P.literal) (st : State) (c : Ctx)
    (hr : Ready declared st c) : Lowers P declared (value e) st c Operand.Held := by
  cases e with
  | literal v ty s =>
    unfold value
    refine .lead hr .lowerType fun t st₁ c₁ _ hr₁ h => ?_
    obtain ⟨ht, rfl⟩ := h
    exact (Lowers.emit hr₁ (.const (he _ t ht))).mono fun _ _ h => h.1
  | ident id =>
    unfold value
    exact ident_lowers hr
  | paren inner s =>
    unfold value
    exact value_lowers inner he st c hr
  | unary op operand s =>
    unfold value
    exact .lead hr (value_lowers operand he st c hr) fun v st₁ c₁ _ hr₁ hv => unary_lowers hr₁ hv
  | binary op lhs rhs s =>
    unfold value
    split
    · refine .lead hr (value_lowers lhs he.1 st c hr) fun l st₁ c₁ _ hr₁ hl => ?_
      refine .lead hr₁ (truthy_lowers hr₁ hl) fun l st₂ c₂ _ hr₂ hl => ?_
      refine .lead hr₂ (value_lowers rhs he.2 st₂ c₂ hr₂) fun r st₃ c₃ he₃ hr₃ hr' => ?_
      refine .lead hr₃ (truthy_lowers hr₃ hr') fun r st₄ c₄ he₄ hr₄ hr' => ?_
      have hlbit : c₄.Has l.reg .bool := (he₃.le.trans he₄.le).has (hl.2 ▸ hl.1)
      refine (Lowers.emit hr₄ (.bits ?_ rfl hlbit (hr'.2 ▸ hr'.1))).mono fun _ _ h => h.1
      split <;> rfl
    · refine .lead hr .infer fun lty st₁ c₁ _ hr₁ h => ?_
      obtain ⟨_, rfl⟩ := h
      refine .lead hr₁ .infer fun rty st₂ c₂ _ hr₂ h => ?_
      obtain ⟨_, rfl⟩ := h
      refine .lead hr₂ .joined fun ty st₃ c₃ _ hr₃ h => ?_
      obtain ⟨_, rfl⟩ := h
      refine .lead hr₃ .lowerType fun t st₄ c₄ _ hr₄ h => ?_
      obtain ⟨_, rfl⟩ := h
      refine .lead hr₄ (value_lowers lhs he.1 st₄ _ hr₄) fun l st₅ c₅ _ hr₅ hl => ?_
      refine .lead hr₅ (convert_lowers hr₅ hl t) fun l st₆ c₆ _ hr₆ hl => ?_
      refine .lead hr₆ (value_lowers rhs he.2 st₆ c₆ hr₆) fun r st₇ c₇ he₇ hr₇ hr' => ?_
      refine .lead hr₇ (convert_lowers hr₇ hr' t) fun r st₈ c₈ he₈ hr₈ hr' => ?_
      exact apply_lowers hr₈ ((he₇.le.trans he₈.le).has (hl.2 ▸ hl.1)) (hr'.2 ▸ hr'.1)
  | cast operand ty s =>
    unfold value
    refine .lead hr .lowerType fun t st₁ c₁ _ hr₁ h => ?_
    obtain ⟨_, rfl⟩ := h
    refine .lead hr₁ (value_lowers operand he st₁ _ hr₁) fun v st₂ c₂ _ hr₂ hv => ?_
    exact (convert_lowers hr₂ hv t).mono fun _ _ h => h.1
  | call callee args s =>
    unfold value
    have hcall := call_lowers hr callee (value_lowers callee he.1)
      (arguments_lowers args he.2)
    refine .lead hr hcall fun v st₁ c₁ _ _ hv => ?_
    split
    · exact .pure (hv _ rfl)
    · exact .unsupported
  | member object field arrow s =>
    unfold value
    have haddr := memberAddress_lowers id hr (.member object field arrow s) arrow
      (value_lowers object he st c hr) (address_lowers object he st c hr)
    exact .lead hr haddr fun p st₁ c₁ _ hr₁ hp => read_lowers hr₁ hp

theorem arguments_lowers (es : List Expr) (he : Expr.AllObey P.literal es) (params : List Ir.Ty)
    (variadic : Bool) (st : State) (c : Ctx) (hr : Ready declared st c) :
    Lowers P declared (arguments params variadic es) st c fun regs c' =>
      Ir.ArgsTyped c'.Has params regs := by
  cases es with
  | nil =>
    unfold arguments
    exact .pure (by cases params <;> trivial)
  | cons e es =>
    unfold arguments
    refine .lead hr (value_lowers e he.1 st c hr) fun v st₁ c₁ _ hr₁ hv => ?_
    refine .lead hr₁ (argument_lowers hr₁ hv params.head? variadic) fun v st₂ c₂ _ hr₂ hv => ?_
    refine .lead hr₂ (arguments_lowers es he.2 params.tail variadic st₂ c₂ hr₂)
      fun regs st₃ c₃ he₃ _ hregs => .pure ?_
    cases params with
    | nil => exact ⟨⟨v.ty, he₃.le.has hv.1⟩, hregs⟩
    | cons ty tys => exact ⟨he₃.le.has (hv.2 ty rfl ▸ hv.1), hregs⟩

theorem address_lowers (e : Expr) (he : e.Obeys P.literal) (st : State) (c : Ctx)
    (hr : Ready declared st c) : Lowers P declared (address e) st c HoldsStruct := by
  cases e with
  | paren inner s =>
    unfold address
    exact address_lowers inner he st c hr
  | member object field arrow s =>
    unfold address
    have haddr := memberAddress_lowers (fun _ => .struct []) hr (.member object field arrow s) arrow
      (value_lowers object he st c hr) (address_lowers object he st c hr)
    exact .lead hr haddr fun p st₁ c₁ _ _ hp => .pure ⟨_, hp, rfl⟩
  | ident id =>
    unfold address
    exact identAddress_lowers hr
  | _ =>
    unfold address
    exact .unsupported

end

theorem valueAs_lowers (he : e.Obeys P.literal) (target : Ir.Ty) (hr : Ready declared st c) :
    Lowers P declared (valueAs target e) st c fun v c' => v.Held c' ∧ v.ty = target :=
  .lead hr (value_lowers e he st c hr) fun _ _ _ _ hr₁ hv => convert_lowers hr₁ hv target

theorem storeAs_lowers (he : e.Obeys P.literal) {ptr : Ir.Reg} {ty : Ir.Ty}
    (hr : Ready declared st c)
    (hp : c.Has ptr (.ptr ty)) : Lowers P declared (storeAs ptr ty e) st c fun _ _ => True := by
  refine .lead hr (valueAs_lowers he ty hr) fun v st₁ c₁ he₁ hr₁ hv => ?_
  exact (Lowers.emitVoid (.store (he₁.le.has hp) (hv.2 ▸ hv.1))).mono fun _ _ _ => trivial

theorem effect_lowers (he : e.Obeys P.literal) (hr : Ready declared st c) :
    Lowers P declared (effect e) st c fun _ _ => True := by
  cases e with
  | call callee args s =>
    exact .lead hr (call_lowers hr callee (value_lowers callee he.1) (arguments_lowers args he.2))
      fun _ _ _ _ _ _ => .pure trivial
  | _ => exact .lead hr (value_lowers _ he st c hr) fun _ _ _ _ _ _ => .pure trivial

theorem assign_lowers {target : Ident} (he : e.Obeys P.literal) (hr : Ready declared st c) :
    Lowers P declared (assign target e) st c fun _ _ => True := by
  refine .lead hr (Lowers.lookup hr) fun h st₁ c₁ he₁ hr₁ hh => ?_
  obtain ⟨hs, rfl⟩ := hh
  cases h with
  | slot ptr ty owner =>
    refine .lead hr₁ .ownedHere fun _ st₂ c₂ _ hr₂ ho => ?_
    obtain ⟨ho, rfl⟩ := ho
    exact storeAs_lowers he hr₂ (hs (ho.trans he₁.current_id))
  | _ => exact .unsupported

theorem assignMember_lowers {target : Expr} (ht : target.Obeys P.literal) (he : e.Obeys P.literal)
    (hr : Ready declared st c) :
    Lowers P declared (assignMember target e) st c fun _ _ => True := by
  cases target with
  | member object field arrow s =>
    have haddr := memberAddress_lowers id hr (.member object field arrow s) arrow
      (value_lowers object ht st c hr) (address_lowers object ht st c hr)
    exact .lead hr haddr fun p _ _ _ hr₁ hp => storeAs_lowers he hr₁ hp
  | _ => exact .unsupported

end Lowering

end Frontend
