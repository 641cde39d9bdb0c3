import Frontend.Proofs.Solid

/-!
What lowering an expression loads. Its junctions account for it: a value that is as deep as what is
expected costs no load but that of a struct, and one that is one pointer deeper is loaded through.
Where nothing in sight is of type `void`, nothing of that type is loaded either: an operator gives a
number or an address, and what returns nothing is not a value.
-/
namespace Frontend

open List (Forall₂)

/-- What a name of type `ty` stands for in the function at hand, and `r` if it is a function. -/
def Handle.Suits (b : Ir.Builder) (ty : Ty) (r : Option Routine) : Handle → Prop
  | .slot ptr t owner => r = none ∧ ty.LowersTo t ∧ (owner = b.id → ⟨some ptr, .alloca t⟩ ∈ b.code)
  | .param reg t owner => r = none ∧ ty.PassedAs t ∧ (owner = b.id → reg ∈ b.params.map Prod.fst)
  | .func _ params ret _ => ∃ f, r = some f ∧ ty = .fn f.ret 0 ∧
    Forall₂ Ty.PassedAs f.params params ∧ f.ret.LowersTo ret
  | .struct t => r = none ∧ t.isAggregate
  | .marker | .member => r = none

section Handles

variable {b b' : Ir.Builder} {ty : Ty} {r : Option Routine} {h : Handle}

theorem Handle.Suits.mono (hs : h.Suits b ty r) (hid : b'.id = b.id)
    (hparams : b'.params = b.params) (hcode : b.code ⊆ b'.code) : h.Suits b' ty r := by
  cases h with
  | slot ptr t owner => exact ⟨hs.1, hs.2.1, fun ho => hcode (hs.2.2 (ho.trans hid))⟩
  | param reg t owner => exact ⟨hs.1, hs.2.1, fun ho => hparams ▸ hs.2.2 (ho.trans hid)⟩
  | _ => exact hs

/-- In a function of its own, nothing of the functions around it is at hand. -/
theorem Handle.Suits.inner (hs : h.Suits b ty r) (ho : h.OwnedBelow b'.id) : h.Suits b' ty r := by
  cases h with
  | slot ptr t owner => exact ⟨hs.1, hs.2.1, fun h => absurd h (Nat.ne_of_lt ho)⟩
  | param reg t owner => exact ⟨hs.1, hs.2.1, fun h => absurd h (Nat.ne_of_lt ho)⟩
  | _ => exact hs

end Handles

/-- What the source tells of the type of a register with the value of an expression. -/
structure Expr.Renders (w : Vantage) (e : Expr) (t : Ir.Ty) : Prop where
  type : ∃ ty, e.typeIn? w.sight = some ty ∧ ty.CarriedAs t
  params : ∀ params ret, t = .fn params ret → Forall₂ Ty.PassedAs (e.parameters w.outlook) params

namespace Expr.Renders

variable {w : Vantage} {e : Expr} {ty : Ty} {t : Ir.Ty}

/-- What has no name has no parameters. -/
theorem flat (hty : e.typeIn? w.sight = some ty) (hp : e.parameters w.outlook = [])
    (h : ty.CarriedAs t) (ht : t.Flat) : e.Renders w t := by
  refine ⟨⟨ty, hty, h⟩, ?_⟩
  rintro params ret rfl
  obtain ⟨rfl, -⟩ := ht
  rw [hp]
  exact .nil

theorem lowered (hty : e.typeIn? w.sight = some ty) (hp : e.parameters w.outlook = [])
    (h : ty.LowersTo t) : e.Renders w t :=
  flat hty hp (.lowered h) h.flat

theorem passed (hty : e.typeIn? w.sight = some ty) (hp : e.parameters w.outlook = [])
    (h : ty.PassedAs t) : e.Renders w t :=
  flat hty hp (.passed h) h.flat

theorem carried (h : e.Renders w t) (hty : e.typeIn? w.sight = some ty) : ty.CarriedAs t := by
  obtain ⟨ty', hty', hcarried⟩ := h.type
  obtain rfl := Option.some.inj (hty.symm.trans hty')
  exact hcarried

end Expr.Renders

namespace Lowering

/-- The value was computed. The address of a struct may be any. -/
def Operand.Derived (b : Ir.Builder) (v : Operand) : Prop :=
  (∃ t, v.ty = .ptr t ∧ t.isAggregate) ∨ Ir.Derived b.params b.code v.reg

/-- The names in sight are what the place tells, in a function that returns `ret`. -/
structure State.Stocked (ret : Ty) (w : Vantage) (st : State) : Prop where
  shows : st.names.Shows w.sight
  suits : Forall₂ (fun e b => b.name = e.1 ∧ b.value.Suits st.current b.ty e.2 ∧
    b.value.OwnedBelow st.nextId) w.outlook st.names.visible
  here : st.current.id < st.nextId
  returns : ret.LowersTo st.current.ret

theorem State.code_subset (st : State) (code : List Ir.Instr) :
    st.current.code ⊆ (st.extend code).current.code := by
  rw [State.extend_current, Ir.Builder.code_extend]
  exact List.subset_append_left _ _

theorem State.mem_code (st : State) {code : List Ir.Instr} {i : Ir.Instr} (h : i ∈ code) :
    i ∈ (st.extend code).current.code := by
  rw [State.extend_current, Ir.Builder.code_extend]
  exact List.mem_append_right _ h

section Stock

variable {ret : Ty} {w : Vantage} {st : State}

theorem State.Stocked.laidOut (h : st.Stocked ret w) : st.names.LaidOut := by
  intro b hb t ht
  obtain ⟨⟨i, hi⟩, rfl⟩ := List.get_of_mem hb
  obtain ⟨-, hs, -⟩ := h.suits.get (h.suits.length_eq ▸ hi) hi
  rw [ht] at hs
  exact hs.2

theorem State.Stocked.lookup (h : st.Stocked ret w) {id : Ident} {b : Binding Handle}
    (hb : st.names.find? id.name = some b) :
    b.value.Suits st.current b.ty (w.outlook.routine? (.ident id)) ∧
      (Expr.ident id).typeIn? w.sight = some b.ty := by
  have hsuits := routine?_of_find?
    (R := fun r b => b.value.Suits st.current b.ty r ∧ b.value.OwnedBelow st.nextId) h.suits hb
  refine ⟨hsuits.1, ?_⟩
  obtain ⟨x, hx, hdesc⟩ := h.shows.lookup hb
  exact Option.map_eq_some_iff.mpr ⟨x, hx, hdesc.ty.symm⟩

theorem State.Stocked.extend (h : st.Stocked ret w) (code : List Ir.Instr) :
    (st.extend code).Stocked ret w where
  shows := h.shows
  suits := h.suits.imp fun _ _ hb => ⟨hb.1, hb.2.1.mono rfl rfl (st.code_subset code), hb.2.2⟩
  here := h.here
  returns := h.returns

end Stock

section Steps

variable {α : Type} {o : Operand} {st' : State} {op : BinaryOp} {t : Ir.Ty} {l r : Ir.Reg}

/-- Code is read to see that it loads nothing. -/
def loadless : Marking Empty where
  ready _ := True
  shows code _ := ∀ i ∈ code, i.op.isLoad = false
  nil := nofun
  append := fun his hjs i hi => (List.mem_append.mp hi).elim (his i) (hjs i)

/-- Runs of `act` add code that loads nothing. -/
abbrev Loadless (act : LowerM α) : Prop := Writes loadless _ act []

/-- Besides, what they give is a value that the code computes. -/
def Derives (act : LowerM Operand) : Prop :=
  ∀ st o st', Runs act st o st' → ∃ code, st' = st.extend code ∧ (∀ i ∈ code, i.op.isLoad = false) ∧
    ∃ i ∈ code, i.result = some o.reg ∧ i.op.isAddress = false

theorem Loadless.emitVoid {op : Ir.Op} (h : op.isLoad = false) : Loadless (emitVoid op) :=
  Writes.emitVoid (List.forall_mem_singleton.mpr h)

namespace Derives

theorem loadless {act : LowerM Operand} (h : Derives act) : Loadless act := by
  intro st _ o st' hrun
  obtain ⟨code, hst, hcode, -⟩ := h _ _ _ hrun
  exact ⟨code, (), hst, trivial, hcode, trivial⟩

theorem unsupported {s : Span} {what : Unsupported} : Derives (unsupported s what) :=
  fun _ _ _ hrun => absurd hrun not_runs_unsupported

theorem emit {op : Ir.Op} {ty : Ir.Ty} (hload : op.isLoad = false) (haddr : op.isAddress = false) :
    Derives (emit op ty) := by
  intro st o st' hrun
  obtain ⟨rfl, rfl⟩ := runs_emit.mp hrun
  exact ⟨_, rfl, by simpa using hload, _, List.mem_cons_self, rfl, haddr⟩

theorem after {act : LowerM α} {f : α → LowerM Operand} (hx : Loadless act)
    (hf : ∀ a, Derives (f a)) : Derives (act >>= f) := by
  intro st b st' hrun
  obtain ⟨a, st₁, h₁, h₂⟩ := runs_bind.mp hrun
  obtain ⟨is, _, rfl, -, his, -⟩ := hx _ trivial _ _ h₁
  obtain ⟨js, rfl, hjs, i, hi, hres⟩ := hf a _ _ _ h₂
  exact ⟨is ++ js, by simp, fun i hi => (List.mem_append.mp hi).elim (his i) (hjs i), i,
    List.mem_append_right _ hi, hres⟩

end Derives

variable {v : Operand} {s : Span}

/-- What is not a bit yet is compared with zero. -/
theorem truthy_derives (h : v.ty ≠ .bool) : Derives (truthy v s) := by
  unfold truthy
  rw [if_neg h]
  split
  · exact .after (Derives.emit rfl rfl).loadless fun _ => .emit rfl rfl
  split
  · exact .after (Derives.emit rfl rfl).loadless fun _ => .emit rfl rfl
  · exact .unsupported

theorem truthy_loadless : Loadless (truthy v s) := by
  by_cases h : v.ty = .bool
  · unfold truthy
    rw [if_pos h]
    exact Writes.sequenced.pure _
  · exact (truthy_derives h).loadless

variable {st st' : State}

theorem truthy_ty (h : Runs (truthy v s) st o st') : o.ty = .bool := by
  unfold truthy at h
  split at h
  · rename_i hty
    rw [(runs_pure.mp h).1, hty]
  split at h
  · obtain ⟨zero, st₁, -, h₁⟩ := runs_bind.mp h
    rw [(runs_emit.mp h₁).1]
  split at h
  · obtain ⟨zero, st₁, -, h₁⟩ := runs_bind.mp h
    rw [(runs_emit.mp h₁).1]
  · exact absurd h not_runs_unsupported

theorem unary_derives {op : UnaryOp} : Derives (unary op v s) := by
  cases op with
  | not => exact .after truthy_loadless fun _ => .emit rfl rfl
  | neg =>
    dsimp only [unary]
    split
    · exact .emit rfl rfl
    split
    · exact .emit rfl rfl
    · exact .unsupported
  | bitNot | addressOf =>
    dsimp only [unary]
    split
    · exact .emit rfl rfl
    · exact .unsupported
  | deref =>
    dsimp only [unary]
    split
    · split
      · exact .emit rfl rfl
      · exact .unsupported
    · exact .unsupported

theorem binaryOp_derives {u : Ir.Ty} {o : Ir.Op} (h : binaryOp op t l r = .ok (o, u)) :
    o.isLoad = false ∧ o.isAddress = false ∧ t.isAggregate = false := by
  unfold binaryOp at h
  extract_lets isInt at h
  repeat' split at h
  all_goals first
    | (obtain ⟨rfl, rfl⟩ := Prod.mk.inj (Except.ok.inj h)
       refine ⟨rfl, rfl, ?_⟩
       cases t <;> simp_all [isInt, Ir.Ty.isFloat, Ir.Ty.isInt, Ir.Ty.isPtr, Ir.Ty.isAggregate])
    | cases h

theorem apply_derives : Derives (apply op t l r s) := by
  unfold apply
  split
  · rename_i hop
    obtain ⟨hload, haddr, -⟩ := binaryOp_derives hop
    exact .emit hload haddr
  · exact .unsupported

/-- No operator takes structs. -/
theorem apply_scalar (h : Runs (apply op t l r s) st o st') : t.isAggregate = false := by
  unfold apply at h
  split at h
  · rename_i hop
    exact (binaryOp_derives hop).2.2
  · exact absurd h not_runs_unsupported

/-- A conversion turns a number into another, or it loads what is behind a pointer. -/
theorem conversion?_cases {op : Ir.Op} (h : conversion? v t = some op) :
    op.isLoad = false ∧ op.isAddress = false ∧ v.ty.isNumber ∧ t.isNumber ∨
      op = .load v.reg t ∧ v.ty = .ptr t := by
  unfold conversion? at h
  extract_lets at h
  repeat' split at h
  all_goals first
    | (obtain rfl := Option.some.inj h
       refine .inl ⟨rfl, rfl, ?_⟩
       simp_all [Ir.Ty.isNumber, Ir.Ty.isBits, Ir.Ty.isInt])
    | (obtain rfl := Option.some.inj h
       refine .inr ⟨rfl, ?_⟩
       cases hv : v.ty <;> simp_all [Ir.Ty.pointee?])
    | simp at h

/-- What is converted is there already, is a number that is turned into another, or is loaded. -/
theorem convert_inv (h : Runs (convert v t s) st o st') :
    o.ty = t ∧ (o = v ∧ st' = st ∨
      v.ty.isNumber ∧ t.isNumber ∧ (∃ code, st' = st.extend code ∧
        (∀ i ∈ code, i.op.isLoad = false) ∧
        ∃ i ∈ code, i.result = some o.reg ∧ i.op.isAddress = false) ∨
      v.ty = .ptr t ∧ st' = st.extend [⟨some o.reg, .load v.reg t⟩]) := by
  unfold convert at h
  split at h
  · rename_i hty
    obtain ⟨rfl, rfl⟩ := runs_pure.mp h
    exact ⟨hty, .inl ⟨rfl, rfl⟩⟩
  split at h
  · rename_i hne hbool
    obtain ⟨rfl, hnumber⟩ := hbool
    refine ⟨truthy_ty h, .inr (.inl ⟨?_, rfl, truthy_derives hne _ _ _ h⟩)⟩
    rcases hnumber with hn | hn <;> simp [Ir.Ty.isNumber, Ir.Ty.isBits, hn]
  split at h
  · rename_i op hop
    rcases conversion?_cases hop with ⟨hload, haddr, hv, ht⟩ | ⟨rfl, hptr⟩
    · exact ⟨by rw [(runs_emit.mp h).1], .inr (.inl ⟨hv, ht, Derives.emit hload haddr _ _ _ h⟩)⟩
    · obtain ⟨rfl, rfl⟩ := runs_emit.mp h
      exact ⟨rfl, .inr (.inr ⟨hptr, rfl⟩)⟩
  · exact absurd h not_runs_unsupported

end Steps

/-- Code is read for what it loads, in a function that returns `ret` and in which the place is `w`.
The junctions account for it. Where all is `solid`, nothing of type `void` is loaded. -/
def loading (ret : Ty) (w : Vantage) (solid : Prop) : CodeReading Ir.Builder Junction where
  ready st b := st.Stocked ret w ∧ b = st.current
  leads b code b' := b' = b.extend code
  shows b code js := b.Accounts code [] js ∧ (solid → ∀ i ∈ code, i.op.loadsNoVoid)
  nil b := ⟨by simp, .nil (List.forall_mem_nil _) (List.forall_mem_nil _),
    fun _ => List.forall_mem_nil _⟩
  append := by
    rintro b _ _ is is' js js' rfl ⟨his, hfirst⟩ rfl ⟨his', hrest⟩
    have hsub : (b.extend is).code ⊆ ((b.extend is).extend is').code := by
      rw [Ir.Builder.code_extend _ is']
      exact List.subset_append_left _ _
    refine ⟨by simp, (his.mono hsub rfl).append his', fun h i hi => ?_⟩
    exact (List.mem_append.mp hi).elim (hfirst h i) (hrest h i)
  extend := by
    rintro st _ _ code ⟨hs, rfl⟩ rfl
    exact ⟨hs.extend code, rfl⟩

/-- Runs of `act` add code whose loads the junctions `js` account for. What they give satisfies `Q`
after it. -/
abbrev AddsLoads (ret : Ty) (w : Vantage) (solid : Prop) (act : LowerM α) (st : State)
    (js : List Junction) (Q : α → Ir.Builder → Prop) : Prop :=
  Adds (loading ret w solid) act st st.current js Q

/-- The operand has the value of the expression, as the source tells. -/
structure Operand.HasValue (w : Vantage) (solid : Prop) (e : Expr) (b : Ir.Builder) (o : Operand) :
    Prop where
  derived : o.Derived b
  renders : e.Renders w o.ty
  ne_void : solid → o.ty ≠ .void

section Expressions

variable {ret : Ty} {w : Vantage} {solid : Prop} {st : State} {js js' : List Junction} {t : Ir.Ty}
  {v o : Operand} {s s' : Span}

/-- Code that loads nothing needs no junctions. -/
theorem loading_shows {b : Ir.Builder} {code : List Ir.Instr}
    (hcode : ∀ i ∈ code, i.op.isLoad = false) : (loading ret w solid).shows b code [] :=
  ⟨.nil (fun i hi => Ir.Op.inPlace_of_isLoad (hcode i hi)) nofun,
    fun _ i hi => Ir.Op.loadsNoVoid_of_isLoad (hcode i hi)⟩

namespace AddsLoads

variable {act : LowerM α} {f : α → LowerM β} {Q : α → Ir.Builder → Prop} {R : β → Ir.Builder → Prop}

theorem ofLoadless (h : Loadless act) : AddsLoads ret w solid act st [] fun _ _ => True := by
  intro a st' hrun
  obtain ⟨code, _, rfl, -, hcode, -⟩ := h _ trivial _ _ hrun
  exact ⟨code, _, rfl, rfl, loading_shows hcode, trivial⟩

theorem ofDerives {act : LowerM Operand} (h : Derives act) :
    AddsLoads ret w solid act st [] fun o b => o.Derived b := by
  intro o st' hrun
  obtain ⟨code, rfl, hcode, i, hi, hres⟩ := h _ _ _ hrun
  exact ⟨code, _, rfl, rfl, loading_shows hcode, .inr (.inr ⟨i, st.mem_code hi, hres⟩)⟩

theorem bind (hs : st.Stocked ret w) (hx : AddsLoads ret w solid act st js Q)
    (hf : ∀ a st₁, st₁.Stocked ret w → Q a st₁.current → AddsLoads ret w solid (f a) st₁ js' R) :
    AddsLoads ret w solid (act >>= f) st (js ++ js') R := by
  refine Adds.bind ⟨hs, rfl⟩ hx fun a st₁ b _ hr hq => ?_
  obtain ⟨hs₁, rfl⟩ := hr
  exact hf a st₁ hs₁ hq

/-- After a step that needs no junctions. -/
theorem lead (hs : st.Stocked ret w) (hx : AddsLoads ret w solid act st [] Q)
    (hf : ∀ a st₁, st₁.Stocked ret w → Q a st₁.current → AddsLoads ret w solid (f a) st₁ js R) :
    AddsLoads ret w solid (act >>= f) st js R :=
  bind hs hx hf

/-- Before a step that needs no junctions. -/
theorem trail (hs : st.Stocked ret w) (hx : AddsLoads ret w solid act st js Q)
    (hf : ∀ a st₁, st₁.Stocked ret w → Q a st₁.current → AddsLoads ret w solid (f a) st₁ [] R) :
    AddsLoads ret w solid (act >>= f) st js R := by
  simpa using bind hs hx hf

/-- The code there is stays. -/
theorem keeping (h : AddsLoads ret w solid act st js Q) :
    AddsLoads ret w solid act st js fun a b => Q a b ∧ st.current.code ⊆ b.code := by
  intro a st' hrun
  obtain ⟨code, b, rfl, rfl, hcode, ha⟩ := h a st' hrun
  exact ⟨code, _, rfl, rfl, hcode, ha, st.code_subset code⟩

theorem level {j : Junction} (h : AddsLoads ret w solid act st [j] Q) (hj : j.isLevel) :
    AddsLoads ret w solid act st [] Q := by
  intro a st' hrun
  obtain ⟨code, b, hst, hleads, hcode, ha⟩ := h a st' hrun
  exact ⟨code, b, hst, hleads, ⟨hcode.1.drop hj, hcode.2⟩, ha⟩

theorem emitReg {op : Ir.Op} (h : op.isLoad = false) :
    AddsLoads ret w solid (emitReg op) st [] fun r b => ⟨some r, op⟩ ∈ b.code := by
  intro r st' hrun
  obtain ⟨rfl, rfl⟩ := runs_emitReg.mp hrun
  exact ⟨_, _, rfl, rfl, loading_shows (List.forall_mem_singleton.mpr h),
    st.mem_code List.mem_cons_self⟩

theorem lowerType (hs : st.Stocked ret w) {ty : Ty} {s : Span} :
    AddsLoads ret w solid (lowerType ty s) st [] fun t _ => ty.LowersTo t :=
  Adds.lowerType.mono fun _ _ ⟨ht, _⟩ => ⟨st.names, hs.laidOut, ht⟩

theorem infer (hs : st.Stocked ret w) {e : Expr} :
    AddsLoads ret w solid (infer e) st [] fun ty _ => e.typeIn? w.sight = some ty :=
  Adds.infer.mono fun _ _ ⟨hty, _⟩ => hs.shows.infer_eq_ok.mp hty

end AddsLoads

/-- What is read of where it is kept is in place. -/
theorem read_addsLoads {ptr : Ir.Reg}
    (h : ∃ i ∈ st.current.code, i.result = some ptr ∧ i.op.locates t) (ht : solid → t ≠ .void) :
    AddsLoads ret w solid (read ptr t) st [] fun o b => o.Derived b := by
  unfold read
  split
  · rename_i hagg
    exact .pure (.inl ⟨t, rfl, hagg⟩)
  · intro o st' hrun
    obtain ⟨rfl, rfl⟩ := runs_emit.mp hrun
    obtain ⟨i, hi, hres, hloc⟩ := h
    refine ⟨_, _, rfl, rfl, ⟨.nil (fun j hj => ?_) nofun, fun hsolid => ?_⟩,
      .inr (.inr ⟨_, st.mem_code List.mem_cons_self, rfl, rfl⟩)⟩
    · obtain rfl := List.mem_singleton.mp hj
      exact Bool.or_eq_true_iff.mpr (.inr (List.any_eq_true.mpr ⟨i, st.code_subset _ hi,
        Bool.and_eq_true_iff.mpr ⟨decide_eq_true hres, hloc⟩⟩))
    · exact List.forall_mem_singleton.mpr (decide_eq_true (ht hsolid))

theorem read_ne_void {ptr : Ir.Reg} {st' : State} (ht : t ≠ .void)
    (hrun : Runs (read ptr t) st o st') : o.ty ≠ .void := by
  rw [read_ty hrun]
  split
  · exact nofun
  · exact ht

/-- A value meets the type that it is converted to. -/
theorem convert_addsLoads {j : Junction} (hv : v.Derived st.current)
    (hgiven : j.given.CarriedAs v.ty) (hexpected : t.isAggregate = false →
      t.depth = j.expected.rank)
    (hrank : j.checked ∨ t.isAggregate → j.isLevel) (ht : solid → t ≠ .void) :
    AddsLoads ret w solid (convert v t s) st [j] fun o b => o.ty = t ∧ o.Derived b := by
  intro o st' hrun
  obtain ⟨hty, hcase⟩ := convert_inv hrun
  -- unless it is a struct that is expected, the types of the registers tell the ranks
  have hlevel : (t.isAggregate = false → v.ty.isAggregate = false ∧ v.ty.depth = t.depth) →
      j.isLevel := by
    intro h
    cases hagg : t.isAggregate with
    | true => exact hrank (.inr hagg)
    | false =>
      obtain ⟨hvagg, hdepth⟩ := h hagg
      exact decide_eq_true (by rw [← hgiven.depth hvagg, hdepth, hexpected hagg])
  rcases hcase with ⟨rfl, rfl⟩ | ⟨hvn, htn, code, rfl, hcode, i, hi, hres⟩ | ⟨hptr, rfl⟩
  · have hj := hlevel fun hagg => ⟨hty ▸ hagg, by rw [hty]⟩
    exact ⟨[], _, by simp, by simp [loading], ⟨.ofLevel (by simp) hj, fun _ => nofun⟩, hty, hv⟩
  · obtain ⟨hvdepth, hvagg⟩ := Ir.Ty.depth_of_isNumber hvn
    have hj := hlevel fun _ => ⟨hvagg, by rw [hvdepth, (Ir.Ty.depth_of_isNumber htn).1]⟩
    exact ⟨code, _, rfl, rfl, ⟨.ofLevel (fun i hi => Ir.Op.inPlace_of_isLoad (hcode i hi)) hj,
      fun _ i hi => Ir.Op.loadsNoVoid_of_isLoad (hcode i hi)⟩, hty,
      .inr (.inr ⟨i, st.mem_code hi, hres⟩)⟩
  · refine ⟨_, _, rfl, rfl, ⟨?_, fun hsolid => ?_⟩, hty,
      .inr (.inr ⟨_, st.mem_code List.mem_cons_self, rfl, rfl⟩)⟩
    · cases hagg : t.isAggregate with
      | true =>
        refine .ofLevel (fun i hi => ?_) (hrank (.inr hagg))
        obtain rfl := List.mem_singleton.mp hi
        exact Bool.or_eq_true_iff.mpr (.inl hagg)
      | false =>
        have hdeep : j.given.rank = j.expected.rank + 1 := by
          rw [← hexpected hagg, ← hgiven.depth (by rw [hptr]; rfl), hptr]
          rfl
        have hunchecked : j.checked = false := by
          cases hc : j.checked with
          | false => rfl
          | true =>
            have hl : j.given.rank = j.expected.rank := of_decide_eq_true (hrank (.inl hc))
            omega
        have hreg : Ir.Derived st.current.params st.current.code v.reg := by
          refine hv.resolve_left ?_
          rintro ⟨t', ht', hagg'⟩
          obtain rfl := Ir.Ty.ptr.inj (hptr.symm.trans ht')
          simp [hagg] at hagg'
        exact Ir.Builder.Accounts.ofDeep (b := (st.extend _).current)
          (hreg.mono (st.code_subset _)) hagg hunchecked (decide_eq_true hdeep)
    · exact List.forall_mem_singleton.mpr (decide_eq_true (ht hsolid))

theorem ident_addsLoads (hs : st.Stocked ret w) (hw : solid → w.Solid) (id : Ident) :
    AddsLoads ret w solid (ident id) st [] fun o b => o.HasValue w solid (.ident id) b := by
  intro o st' hrun
  obtain ⟨h, st₁, hlook, hrest⟩ := runs_bind.mp hrun
  obtain ⟨b, hb, rfl, rfl⟩ := runs_lookup.mp hlook
  obtain ⟨hsuits, htype⟩ := hs.lookup hb
  have hsolid : solid → b.ty.isHollow = false := fun h => (hw h).ident htype
  cases hval : b.value with
  | slot ptr t owner =>
    rw [hval] at hsuits hrest
    obtain ⟨hroutine, hlow, hcell⟩ := hsuits
    obtain ⟨_, st₂, howned, hread⟩ := runs_bind.mp hrest
    obtain ⟨hhere, rfl⟩ := runs_ownedHere.mp howned
    have hpassed : b.ty.PassedAs o.ty := ⟨t, hlow, read_ty hread⟩
    obtain ⟨code, b', hst, hleads, hcode, ho⟩ := read_addsLoads
      ⟨_, hcell hhere, rfl, decide_eq_true rfl⟩ (fun h => hlow.ne_void (hsolid h)) o st' hread
    exact ⟨code, b', hst, hleads, hcode, ho,
      .passed htype (by simp [Expr.parameters, hroutine]) hpassed,
      fun h => hpassed.ne_void (hsolid h)⟩
  | param reg t owner =>
    rw [hval] at hsuits hrest
    obtain ⟨hroutine, hpassed, hparam⟩ := hsuits
    obtain ⟨_, st₂, howned, hpure⟩ := runs_bind.mp hrest
    obtain ⟨hhere, rfl⟩ := runs_ownedHere.mp howned
    exact Adds.pure (Q := fun o b => o.HasValue w solid (.ident id) b) ⟨.inr (.inl (hparam hhere)),
      .passed htype (by simp [Expr.parameters, hroutine]) hpassed,
      fun h => hpassed.ne_void (hsolid h)⟩ _ _ hpure
  | func name params ret variadic =>
    rw [hval] at hsuits hrest
    obtain ⟨f, hroutine, hfn, hparams, hret⟩ := hsuits
    obtain ⟨code, b', hst, hleads, hcode, ho⟩ := AddsLoads.ofDerives (.emit rfl rfl) o st' hrest
    obtain ⟨rfl, -⟩ := runs_emit.mp hrest
    refine ⟨code, b', hst, hleads, hcode, ho, ⟨⟨b.ty, htype, .function hfn hret rfl⟩, ?_⟩, ?_⟩
    · rintro _ _ ⟨⟩
      simpa [Expr.parameters, hroutine] using hparams
    · rintro _ ⟨⟩
  | struct t | member | marker =>
    rw [hval] at hrest
    exact absurd hrest not_runs_unsupported

theorem identAddress_loadless (id : Ident) : Loadless (identAddress id) := by
  refine (Writes.sequenced.lookup _).lead fun h => ?_
  have howned : ∀ owner s, Loadless (ownedHere owner s) :=
    fun _ _ => .reading fun _ _ _ hrun => (runs_ownedHere.mp hrun).2
  cases h with
  | slot ptr t owner | param ptr t owner =>
    dsimp only
    split
    · exact (howned _ _).lead fun _ => Writes.sequenced.pure _
    · exact .unsupported _ _ _
  | func | struct | member | marker => exact .unsupported _ _ _

/-- What the source tells of the types of a function that is called. -/
structure CallTarget.Of (w : Vantage) (callee : Expr) (target : CallTarget) : Prop where
  params : Forall₂ Ty.PassedAs (callee.parameters w.outlook) target.params
  ret : ∀ f rty, callee.typeIn? w.sight = some f → f.return? = some rty → rty.LowersTo target.ret

theorem named?_addsLoads (hs : st.Stocked ret w) (callee : Expr) :
    AddsLoads ret w solid (named? callee) st [] fun r _ => ∀ target ∈ r,
      callee.junctions w = [] ∧ target.Of w callee := by
  refine (Adds.reading (p := fun r => ∀ target ∈ r, callee.junctions w = [] ∧ target.Of w callee)
    fun r st' hrun => ?_).mono fun _ _ => And.left
  unfold named? at hrun
  split at hrun
  · rename_i id
    obtain ⟨h, st₁, hlook, hrest⟩ := runs_bind.mp hrun
    obtain ⟨b, hb, rfl, rfl⟩ := runs_lookup.mp hlook
    obtain ⟨hsuits, htype⟩ := hs.lookup hb
    cases hval : b.value with
    | func name params ret variadic =>
      rw [hval] at hsuits hrest
      obtain ⟨rfl, rfl⟩ := runs_pure.mp hrest
      obtain ⟨f, hroutine, hfn, hparams, hret⟩ := hsuits
      refine ⟨?_, rfl⟩
      rintro _ ⟨⟩
      refine ⟨rfl, by simpa [Expr.parameters, hroutine] using hparams, fun g rty hg hrty => ?_⟩
      obtain rfl := Option.some.inj (htype.symm.trans hg)
      rw [hfn] at hrty
      obtain rfl := Option.some.inj hrty
      exact hret
    | slot | param | struct | member | marker =>
      rw [hval] at hrest
      obtain ⟨rfl, rfl⟩ := runs_pure.mp hrest
      exact ⟨fun _ h => absurd h (Option.not_mem_none _), rfl⟩
  · obtain ⟨rfl, rfl⟩ := runs_pure.mp hrun
    exact ⟨fun _ h => absurd h (Option.not_mem_none _), rfl⟩

theorem callTarget_addsLoads (hs : st.Stocked ret w) {callee : Expr} {value : LowerM Operand}
    (hv : ∀ st₁, st₁.Stocked ret w → AddsLoads ret w solid value st₁ (callee.junctions w)
      fun o b => o.HasValue w solid callee b) :
    AddsLoads ret w solid (callTarget callee value) st (callee.junctions w)
      fun target _ => target.Of w callee := by
  refine .lead hs (named?_addsLoads hs callee) fun r st₁ hs₁ hr => ?_
  cases r with
  | some target =>
    obtain ⟨hjs, htarget⟩ := hr target rfl
    rw [hjs]
    exact .pure htarget
  | none =>
    refine .trail hs₁ (hv st₁ hs₁) fun v st₂ hs₂ ⟨_, hrenders, _⟩ => ?_
    unfold pointedTo
    split
    · rename_i params ret hfn
      rw [hfn] at hrenders
      exact .pure ⟨hrenders.params params ret rfl, fun f rty hf => (hrenders.carried hf).returns⟩
    · exact .unsupported

/-- The call itself comes after all that it needs. -/
theorem call_addsLoads (hs : st.Stocked ret w) (hw : solid → w.Solid) {callee : Expr}
    {args : List Expr} (htyped : ∃ ty, (Expr.call callee args s).typeIn? w.sight = some ty)
    {value : LowerM Operand} {lowerArgs : List Ir.Ty → Bool → LowerM (List Ir.Reg)}
    (hv : ∀ st₁, st₁.Stocked ret w → AddsLoads ret w solid value st₁ (callee.junctions w)
      fun o b => o.HasValue w solid callee b)
    (ha : ∀ params variadic, Forall₂ Ty.PassedAs (callee.parameters w.outlook) params →
      (solid → ∀ t ∈ params, t ≠ .void) → ∀ st₁, st₁.Stocked ret w →
      AddsLoads ret w solid (lowerArgs params variadic) st₁
        (Expr.allJunctions w (callee.parameters w.outlook) args) fun _ _ => True) :
    AddsLoads ret w solid (call callee value lowerArgs) st ((Expr.call callee args s).junctions w)
      fun r b => ∀ o ∈ r, o.HasValue w solid (.call callee args s) b := by
  rw [Expr.junctions]
  refine .bind hs (callTarget_addsLoads hs hv) fun target st₁ hs₁ htarget => ?_
  have hparams : solid → ∀ t ∈ target.params, t ≠ .void :=
    fun h => (hw h).params callee htarget.params
  refine .trail hs₁ (ha _ _ htarget.params hparams st₁ hs₁) fun regs st₂ hs₂ _ => ?_
  have hop : (target.callee.op regs).isLoad = false ∧
      (target.callee.op regs).isAddress = false := by
    cases target.callee <;> exact ⟨rfl, rfl⟩
  split
  · exact .lead hs₂ (.ofLoadless (.emitVoid hop.1)) fun _ st₃ hs₃ _ => .pure nofun
  · rename_i hret
    refine .lead hs₂ ((AddsLoads.ofDerives (.emit hop.1 hop.2)).noting
      fun o st' hrun => congrArg Operand.ty (runs_emit.mp hrun).1)
      fun o st₃ hs₃ ⟨ho, hty⟩ => .pure ?_
    rintro _ ⟨⟩
    obtain ⟨ty, htype⟩ := htyped
    obtain ⟨f, hf, hrty⟩ := Option.bind_eq_some_iff.mp htype
    have hne : o.ty ≠ .void := hty ▸ hret
    exact ⟨ho, .lowered htype rfl (hty ▸ htarget.ret f ty hf hrty), fun _ => hne⟩

/-- A member is at the address of a field, whatever leads to it. -/
theorem memberAddress_addsLoads (hs : st.Stocked ret w) {whole : Expr} {arrow : Bool}
    {value : LowerM Operand} {address : LowerM Ir.Reg} {Q : Operand → Ir.Builder → Prop}
    (hv : AddsLoads ret w solid value st js Q)
    (ha : AddsLoads ret w solid address st js fun _ _ => True) :
    AddsLoads ret w solid (memberAddress whole arrow value address) st js fun p b =>
      (∃ q, ⟨some p.1, .fieldPtr q 0⟩ ∈ b.code) ∧
        ∃ ty, whole.typeIn? w.sight = some ty ∧ ty.LowersTo p.2 := by
  have hptr : AddsLoads ret w solid
      (bif arrow then value >>= (structPointer · whole.span) else address) st js
      fun _ _ => True := by
    cases arrow with
    | true =>
      refine .trail hs hv fun v st₁ hs₁ _ => ?_
      unfold structPointer
      split
      · exact .pure trivial
      · exact .unsupported
    | false => exact ha
  exact .trail hs hptr fun ptr st₁ hs₁ _ => .lead hs₁ (.infer hs₁) fun ty st₂ hs₂ hty =>
    .lead hs₂ (.lowerType hs₂) fun t st₃ hs₃ ht => .lead hs₃ (.emitReg rfl) fun r st₄ hs₄ hr =>
      .pure ⟨⟨ptr, hr⟩, ty, hty, ht⟩

/-- The type that an operator gives, by the source and by the lowered type. -/
theorem unary_renders {op : UnaryOp} {operand : Expr} {ty₀ ty : Ty} {st' : State}
    (hrun : Runs (unary op v s) st o st') (hv : ty₀.CarriedAs v.ty) (hg : ty₀.Grounded)
      (hty₀ : operand.typeIn? w.sight = some ty₀)
    (hty : (Expr.unary op operand s').typeIn? w.sight = some ty) :
    (Expr.unary op operand s').Renders w o.ty := by
  have hgives := unary_ty hrun
  have hop : (op.infer ty₀).toOption = some ty := by simpa [Expr.typeIn?, hty₀] using hty
  refine ⟨⟨ty, hty, ?_⟩, fun params ret hfn => absurd hfn hgives.not_fn⟩
  cases op with
  | not =>
    obtain rfl := Option.some.inj hop
    rw [show o.ty = .bool from hgives]
    exact .lowered (.prim rfl)
  | neg | bitNot =>
    obtain rfl := Option.some.inj hop
    exact hgives.1 ▸ hv
  | addressOf =>
    obtain rfl := Option.some.inj hop
    exact hgives.2 ▸ .lowered ((hv.integer hgives.1 (.inl rfl)).addressed hgives.1 hg)
  | deref =>
    simp only [UnaryOp.infer] at hop
    split at hop
    · simp [Except.toOption] at hop
    · rename_i hlevels
      obtain rfl := Option.some.inj hop
      have hptr : ty₀.LowersTo (.ptr o.ty) := hgives.2 ▸ hv.integer hgives.1 (.inr hgives.2)
      exact .lowered (hptr.deref hgives.1 (Int.not_lt.mp hlevels))

theorem apply_renders {op : BinaryOp} {lhs rhs : Expr} {lty rty ty : Ty} {l r : Ir.Reg}
    {st' : State} (hrun : Runs (apply op t l r s) st o st') (hlogical : op.isLogical = false)
    (hl : lhs.typeIn? w.sight = some lty) (hr : rhs.typeIn? w.sight = some rty)
    (hjoin : lty.join rty = .ok ty) (ht : ty.LowersTo t) :
    (Expr.binary op lhs rhs s').Renders w o.ty := by
  have hty := apply_ty hrun
  refine ⟨?_, fun params ret hfn => absurd hfn (apply_not_fn hrun)⟩
  split at hty <;> rename_i hcmp
  · refine ⟨.bool, ?_, hty ▸ .lowered (.prim rfl)⟩
    simp [Expr.typeIn?, hl, hr, BinaryOp.infer, BinaryOp.yieldsBool, hcmp, Except.toOption]
  · refine ⟨ty, ?_, hty.1 ▸ .lowered ht⟩
    simp [Expr.typeIn?, hl, hr, BinaryOp.infer, BinaryOp.yieldsBool, hcmp, hlogical, hjoin,
      Except.mapError, Except.toOption]

theorem unary_ne_void {op : UnaryOp} {st' : State} (hv : v.ty ≠ .void)
    (hrun : Runs (unary op v s) st o st') : o.ty ≠ .void := by
  intro hvoid
  have hgives := unary_ty hrun
  rw [hvoid] at hgives
  cases op <;> simp_all [Gives, Ir.Ty.isInt]

/-- Operators are for values. -/
theorem apply_ne_void {op : BinaryOp} {l r : Ir.Reg} {st' : State}
    (hrun : Runs (apply op t l r s) st o st') : t ≠ .void ∧ o.ty ≠ .void := by
  have hty := apply_ty hrun
  unfold apply at hrun
  split at hrun
  · rename_i hop
    have ht : t ≠ .void := by
      rintro rfl
      simp [binaryOp, Ir.Ty.isFloat, Ir.Ty.isInt, Ir.Ty.isPtr] at hop
      split_ifs at hop
    refine ⟨ht, ?_⟩
    split at hty
    · simp [hty]
    · exact hty.1 ▸ ht
  · exact absurd hrun not_runs_unsupported

/-- The right operand meets the type that the left one has, or is a number with it. What has no
value is given up in the end, as structs are. -/
theorem operation_addsLoads (hs : st.Stocked ret w) {op : BinaryOp} (hop : op.isLogical = false)
    {lhs rhs : Expr} {left right : LowerM Operand}
    (hl : ∀ st₁, st₁.Stocked ret w → AddsLoads ret w solid left st₁ (lhs.junctions w)
      fun o b => o.HasValue w solid lhs b)
    (hr : ∀ st₁, st₁.Stocked ret w → AddsLoads ret w solid right st₁ (rhs.junctions w)
      fun o b => o.HasValue w solid rhs b) :
    AddsLoads ret w solid (do
      let lhsTy ← infer lhs
      let rhsTy ← infer rhs
      let ty ← lowerType (← joined lhsTy rhsTy s) s
      let l ← convert (← left) ty lhs.span
      let r ← convert (← right) ty rhs.span
      apply op ty l.reg r.reg s) st
      (lhs.junctions w ++ (rhs.junctions w ++
        Junction.between false (lhs.typeIn? w.sight) (rhs.typeIn? w.sight)))
      fun o b => o.HasValue w solid (.binary op lhs rhs s) b := by
  refine .lead hs (.infer hs) fun lty st₁ hs₁ hlty => .lead hs₁ (.infer hs₁) fun rty st₂ hs₂ hrty =>
    .lead hs₂ .joined fun ty st₃ hs₃ ⟨hjoin, _⟩ => .lead hs₃ (.lowerType hs₃) fun t st₄ hs₄ ht => ?_
  rw [hlty, hrty]
  by_cases hscalar : t.isAggregate = false ∧ t ≠ .void
  · obtain ⟨hagg, hvoid⟩ := hscalar
    have hrank : t.depth = lty.rank := (ht.depth hagg).trans (Ty.rank_join hjoin)
    refine .bind hs₄ (hl st₄ hs₄) fun v st₅ hs₅ hv => .lead hs₅ (Q := fun _ _ => True) ?_
      fun l st₆ hs₆ _ => .bind hs₆ (hr st₆ hs₆) fun v' st₇ hs₇ hv' =>
        .trail hs₇ (Q := fun _ _ => True) ?_ fun r st₈ hs₈ _ => ?_
    · have hlevel : (Junction.mk lty lty true).isLevel := decide_eq_true rfl
      exact ((convert_addsLoads hv.derived (hv.renders.carried hlty) (fun _ => hrank)
        (fun _ => hlevel) fun _ => hvoid).level hlevel).mono fun _ _ _ => trivial
    · have hlevel : ((Junction.mk lty rty false).checked ∨ t.isAggregate) →
          (Junction.mk lty rty false).isLevel := by simp [hagg]
      exact (convert_addsLoads hv'.derived (hv'.renders.carried hrty) (fun _ => hrank) hlevel
        fun _ => hvoid).mono fun _ _ _ => trivial
    · have hgives : ∀ o st', Runs (apply op t l.reg r.reg s) st₈ o st' →
          (Expr.binary op lhs rhs s).Renders w o.ty ∧ o.ty ≠ .void := fun o st' hrun =>
        ⟨apply_renders hrun hop hlty hrty hjoin ht, (apply_ne_void hrun).2⟩
      exact ((AddsLoads.ofDerives apply_derives).noting hgives).mono
        fun o b ⟨ho, hrenders, hne⟩ => ⟨ho, hrenders, fun _ => hne⟩
  · -- it does not matter what was loaded
    intro o st' hrun
    obtain ⟨_, _, -, hrun⟩ := runs_bind.mp hrun
    obtain ⟨_, _, -, hrun⟩ := runs_bind.mp hrun
    obtain ⟨_, _, -, hrun⟩ := runs_bind.mp hrun
    obtain ⟨_, _, -, hrun⟩ := runs_bind.mp hrun
    exact absurd ⟨apply_scalar hrun, (apply_ne_void hrun).1⟩ hscalar

/-- Beyond the parameters, no more is done than to make a short float long. -/
theorem argument_loadless {variadic : Bool} : Loadless (argument none variadic v s) := by
  intro st _ o st' hrun
  dsimp only [argument] at hrun
  split at hrun
  · rename_i hf32
    obtain ⟨-, ⟨rfl, rfl⟩ | ⟨-, -, code, hst, hcode, -⟩ | ⟨hptr, -⟩⟩ := convert_inv hrun
    · exact ⟨[], (), by simp, trivial, List.forall_mem_nil _, trivial⟩
    · exact ⟨code, (), hst, trivial, hcode, trivial⟩
    · simp [hf32.2] at hptr
  · exact Writes.sequenced.pure _ _ trivial _ _ hrun

/-- An argument meets the type of its parameter. -/
theorem argument_addsLoads {e : Expr} {tys : List Ty} {params : List Ir.Ty}
    (hp : Forall₂ Ty.PassedAs tys params) (hne : solid → ∀ t ∈ params, t ≠ .void)
    (hv : v.HasValue w solid e st.current) {variadic : Bool} :
    AddsLoads ret w solid (argument params.head? variadic v s) st
      (Junction.between false tys.head? (e.typeIn? w.sight)) fun _ _ => True := by
  obtain ⟨ty, hty, hcarried⟩ := hv.renders.type
  rw [hty]
  cases hp with
  | nil => exact .ofLoadless argument_loadless
  | @cons pty t _ _ hpt _ =>
    have hscalar : ((Junction.mk pty ty false).checked ∨ t.isAggregate) →
        (Junction.mk pty ty false).isLevel := by simp [hpt.isAggregate]
    exact (convert_addsLoads hv.derived hcarried (fun _ => hpt.depth) hscalar
      fun h => hne h t List.mem_cons_self).mono fun _ _ _ => trivial

end Expressions

section Walk

variable {ret ty : Ty} {w : Vantage} {solid : Prop} {u : ScopeTable Unit} {e : Expr} {t : Ir.Ty}

-- A call inside the mutual block passes these on unseen.
set_option linter.unusedSectionVars false

variable (hu : u.Shows w.sight) (hg : w.sight.Grounded) (hw : solid → w.Solid)

include hu hg hw

mutual

/-- The value of an expression is computed, and its junctions account for what is loaded on the
way. -/
theorem value_addsLoads (e : Expr) (he : e.Checked u) {st : State} (hs : st.Stocked ret w) :
    AddsLoads ret w solid (value e) st (e.junctions w) fun o b => o.HasValue w solid e b := by
  have htyped := he.typeIn? hu
  match e with
  | .literal v ty s =>
    have hmatches : v.Matches ty := he.fitted
    unfold value Expr.junctions
    refine .lead hs (.lowerType hs) fun t st₁ hs₁ ht => ?_
    refine ((AddsLoads.ofDerives (.emit rfl rfl)).noting fun o st' hrun =>
      congrArg Operand.ty (runs_emit.mp hrun).1).mono fun o b ⟨ho, hty⟩ => ?_
    have hlow : ty.LowersTo o.ty := hty ▸ ht
    exact ⟨ho, .lowered rfl rfl hlow, fun _ => hlow.ne_void hmatches.not_isHollow⟩
  | .ident id =>
    unfold value Expr.junctions
    exact ident_addsLoads hs hw id
  | .paren inner s =>
    unfold value Expr.junctions
    exact (value_addsLoads inner he.paren hs).mono fun o b ⟨ho, hr, hne⟩ =>
      ⟨ho, ⟨hr.type, hr.params⟩, hne⟩
  | .unary op operand s =>
    obtain ⟨ty, hty⟩ := htyped
    unfold value Expr.junctions
    refine .trail hs (value_addsLoads operand he.unary hs) fun v st₁ hs₁ ⟨_, hr, hne⟩ => ?_
    obtain ⟨ty₀, hty₀, hcarried⟩ := hr.type
    have hgives : ∀ o st', Runs (unary op v operand.span) st₁ o st' →
        (Expr.unary op operand s).Renders w o.ty ∧ (solid → o.ty ≠ .void) := fun o st' hrun =>
      ⟨unary_renders hrun hcarried (he.unary.grounded hu hg operand hty₀) hty₀ hty,
        fun h => unary_ne_void (hne h) hrun⟩
    exact ((AddsLoads.ofDerives unary_derives).noting hgives).mono
      fun o b ⟨ho, hrenders, hvoid⟩ => ⟨ho, hrenders, hvoid⟩
  | .binary op lhs rhs s =>
    have hl := fun (st₁ : State) (hs₁ : st₁.Stocked ret w) => value_addsLoads lhs he.lhs hs₁
    have hr := fun (st₁ : State) (hs₁ : st₁.Stocked ret w) => value_addsLoads rhs he.rhs hs₁
    unfold value Expr.junctions
    split
    · rename_i hop
      obtain ⟨ty, hty⟩ := htyped
      have hbool : ty = .bool := by
        obtain ⟨l, -, hty⟩ := Option.bind_eq_some_iff.mp hty
        obtain ⟨r, -, hty⟩ := Option.bind_eq_some_iff.mp hty
        simpa [BinaryOp.infer, BinaryOp.yieldsBool, hop, Except.toOption, eq_comm] using hty
      refine .bind hs (hl st hs) fun v st₁ hs₁ _ => .lead hs₁ (.ofLoadless truthy_loadless)
        fun l st₂ hs₂ _ => .bind hs₂ (hr st₂ hs₂) fun v' st₃ hs₃ _ =>
          .lead hs₃ (.ofLoadless truthy_loadless) fun r st₄ hs₄ _ => ?_
      refine ((AddsLoads.ofDerives (.emit rfl rfl)).noting fun o st' hrun =>
        congrArg Operand.ty (runs_emit.mp hrun).1).mono fun o b ⟨ho, hbit⟩ => ?_
      exact ⟨ho, hbit ▸ .lowered (hbool ▸ hty) rfl (.prim rfl), fun _ => by rw [hbit]; nofun⟩
    · rename_i hop
      exact operation_addsLoads hs (by simpa using hop) hl hr
  | .cast operand ty s =>
    obtain ⟨actual, hactual, hcast⟩ := he.typed.castType
    have hactual := hu.infer_eq_ok.mp hactual
    -- a cast keeps the type, or turns a number into another
    have hlevel : (Junction.mk ty actual true).isLevel := by
      refine decide_eq_true ?_
      rcases hcast with rfl | hcast
      · rfl
      · obtain ⟨hty, hactual⟩ := Bool.and_eq_true_iff.mp hcast
        exact (Ty.rank_of_isNumeric hactual).trans (Ty.rank_of_isNumeric hty).symm
    unfold value Expr.junctions
    rw [hactual]
    refine .lead hs (.lowerType hs) fun t st₁ hs₁ ht =>
      .bind hs₁ (value_addsLoads operand he.cast hs₁) fun v st₂ hs₂ ⟨hv, hr, hne⟩ => ?_
    -- a cast to what has no value keeps the type, and then there was none to cast
    have hvoid : solid → t ≠ .void := by
      intro hsolid
      refine ht.ne_void ?_
      rcases hcast with rfl | hcast
      · exact Bool.eq_false_iff.mpr fun hty => hne hsolid ((hr.carried hactual).eq_void hty)
      · exact Ty.not_isHollow_of_isNumeric (Bool.and_eq_true_iff.mp hcast).1
    refine (convert_addsLoads hv (hr.carried hactual) ht.depth (fun _ => hlevel) hvoid).mono
      fun o b ⟨hty, ho⟩ => ?_
    exact ⟨ho, .lowered rfl rfl (hty ▸ ht), hty ▸ hvoid⟩
  | .call callee args s =>
    have hcall := call_addsLoads (s := s) hs hw htyped
      (fun st₁ hs₁ => value_addsLoads callee he.callee hs₁) fun params variadic hp hne st₁ hs₁ =>
        arguments_addsLoads params variadic hp hne args (fun a ha => he.argument ha) hs₁
    unfold value
    refine .trail hs hcall fun r st₁ hs₁ hr => ?_
    cases r with
    | some v => exact .pure (hr v rfl)
    | none => exact .unsupported
  | .member object field arrow s =>
    unfold value Expr.junctions
    have hv := value_addsLoads object he.member hs
    have ha := address_addsLoads object he.member hs
    refine .trail hs (memberAddress_addsLoads hs hv ha) fun p st₁ hs₁ ⟨⟨q, hq⟩, ty, hty, ht⟩ => ?_
    have hvoid : solid → p.2 ≠ .void := fun h => ht.ne_void ((hw h).member hty)
    refine ((read_addsLoads ⟨_, hq, rfl, rfl⟩ hvoid).noting fun o st' hrun => And.intro
      (read_ty hrun) fun h => read_ne_void (hvoid h) hrun).mono fun o b ⟨ho, hread, hne⟩ => ?_
    exact ⟨ho, .passed hty rfl ⟨_, ht, hread⟩, hne⟩

theorem arguments_addsLoads (params : List Ir.Ty) (variadic : Bool) {tys : List Ty}
    (hp : Forall₂ Ty.PassedAs tys params) (hne : solid → ∀ t ∈ params, t ≠ .void) (es : List Expr)
    (hes : ∀ e ∈ es, e.Checked u) {st : State} (hs : st.Stocked ret w) :
    AddsLoads ret w solid (arguments params variadic es) st (Expr.allJunctions w tys es)
      fun _ _ => True := by
  match es with
  | [] =>
    unfold arguments Expr.allJunctions
    exact .pure trivial
  | e :: es =>
    have he := hes e List.mem_cons_self
    have hrest := fun a ha => hes a (List.mem_cons_of_mem e ha)
    have htail := fun h t (ht : t ∈ params.tail) => hne h t (List.mem_of_mem_tail ht)
    unfold arguments Expr.allJunctions
    refine .bind hs (value_addsLoads e he hs) fun v st₁ hs₁ hv =>
      .bind hs₁ (argument_addsLoads hp hne hv) fun o st₂ hs₂ _ =>
        .trail hs₂ (arguments_addsLoads params.tail variadic ?_ htail es hrest hs₂)
          fun _ st₃ hs₃ _ => .pure trivial
    cases hp with
    | nil => exact .nil
    | cons _ hrest => exact hrest

theorem address_addsLoads (e : Expr) (he : e.Checked u) {st : State} (hs : st.Stocked ret w) :
    AddsLoads ret w solid (address e) st (e.junctions w) fun _ _ => True := by
  match e with
  | .paren inner s =>
    unfold address Expr.junctions
    exact address_addsLoads inner he.paren hs
  | .member object field arrow s =>
    unfold address Expr.junctions
    have hv := value_addsLoads object he.member hs
    have ha := address_addsLoads object he.member hs
    exact .trail hs (memberAddress_addsLoads hs hv ha) fun p st₁ hs₁ _ => .pure trivial
  | .ident id =>
    unfold address Expr.junctions
    exact .ofLoadless (identAddress_loadless id)
  | .literal .. | .unary .. | .binary .. | .cast .. | .call .. =>
    unfold address
    exact .unsupported

end

variable {st : State}

variable (hs : st.Stocked ret w)

include hs

/-- A value of its own type may only be a struct that is loaded. -/
theorem valueAs_addsLoads (he : e.Checked u) (hty : e.typeIn? w.sight = some ty)
    (ht : ty.LowersTo t) (hne : solid → ty.isHollow = false) :
    AddsLoads ret w solid (valueAs t e) st (e.junctionsAs w ty) fun _ _ => True := by
  have hlevel : (Junction.mk ty ty true).isLevel := decide_eq_true rfl
  unfold Expr.junctionsAs
  rw [hty]
  refine .bind hs (value_addsLoads hu hg hw e he hs) fun v st₁ hs₁ hv => ?_
  exact (convert_addsLoads hv.derived (hv.renders.carried hty) ht.depth (fun _ => hlevel)
    fun h => ht.ne_void (hne h)).mono fun _ _ _ => trivial

theorem storeAs_addsLoads (he : e.Checked u) (hty : e.typeIn? w.sight = some ty)
    (ht : ty.LowersTo t) (hne : solid → ty.isHollow = false) (ptr : Ir.Reg) :
    AddsLoads ret w solid (storeAs ptr t e) st (e.junctionsAs w ty) fun _ _ => True :=
  .trail hs (valueAs_addsLoads hu hg hw hs he hty ht hne) fun _ _ _ _ => .ofLoadless (.emitVoid rfl)

theorem newCell_addsLoads {init : Option Expr}
    (hinit : ∀ e ∈ init, e.Checked u ∧ e.typeIn? w.sight = some ty) (ht : ty.LowersTo t)
    (hne : solid → ty.isHollow = false) :
    AddsLoads ret w solid (newCell t init) st (init.elim [] (·.junctionsAs w ty)) fun ptr b =>
      ⟨some ptr, .alloca t⟩ ∈ b.code := by
  refine .lead hs (.emitReg rfl) fun ptr st₁ hs₁ hptr => ?_
  have hstore : AddsLoads ret w solid (init.forM (storeAs ptr t)) st₁
      (init.elim [] (·.junctionsAs w ty)) fun _ _ => True := by
    cases init with
    | none => exact .pure trivial
    | some e =>
      obtain ⟨he, hty⟩ := hinit e rfl
      exact storeAs_addsLoads hu hg hw hs₁ he hty ht hne ptr
  exact .trail hs₁ hstore.keeping fun _ st₂ hs₂ ⟨_, hsub⟩ => .pure (hsub hptr)

theorem assign_addsLoads {target : Ident} (he : e.Checked u)
    (hty : e.typeIn? w.sight = (Expr.ident target).typeIn? w.sight) :
    AddsLoads ret w solid (assign target e) st
      (e.junctionsAs w ((Expr.ident target).typeIn? w.sight)) fun _ _ => True := by
  intro r st' hrun
  obtain ⟨h, st₁, hlook, hrest⟩ := runs_bind.mp hrun
  obtain ⟨b, hb, rfl, rfl⟩ := runs_lookup.mp hlook
  obtain ⟨hsuits, htype⟩ := hs.lookup hb
  rw [htype] at hty ⊢
  cases hval : b.value with
  | slot ptr t owner =>
    rw [hval] at hsuits hrest
    obtain ⟨_, st₂, howned, hstore⟩ := runs_bind.mp hrest
    obtain ⟨-, rfl⟩ := runs_ownedHere.mp howned
    exact storeAs_addsLoads hu hg hw hs he hty hsuits.2.1 (fun h => (hw h).ident htype) ptr r st'
      hstore
  | param | func | struct | member | marker =>
    rw [hval] at hrest
    exact absurd hrest not_runs_unsupported

theorem assignMember_addsLoads {target : Expr} (ht : target.Checked u) (he : e.Checked u)
    (hty : e.typeIn? w.sight = target.typeIn? w.sight) :
    AddsLoads ret w solid (assignMember target e) st
      (target.junctions w ++ e.junctionsAs w (target.typeIn? w.sight)) fun _ _ => True := by
  unfold assignMember
  split
  · rename_i object field arrow s
    have hv := value_addsLoads hu hg hw object ht.member hs
    have ha := address_addsLoads hu hg hw object ht.member hs
    rw [Expr.junctions]
    refine .bind hs (memberAddress_addsLoads hs hv ha) fun p st₁ hs₁ ⟨_, ty, htype, hlow⟩ => ?_
    rw [htype] at hty ⊢
    exact storeAs_addsLoads hu hg hw hs₁ he hty hlow (fun h => (hw h).member htype) p.1
  · exact .unsupported

theorem effect_addsLoads (he : e.Checked u) :
    AddsLoads ret w solid (effect e) st (e.junctions w) fun _ _ => True := by
  unfold effect
  split
  · exact .trail hs (call_addsLoads hs hw (he.typeIn? hu)
      (fun _ hs₁ => value_addsLoads hu hg hw _ he.callee hs₁) fun params variadic hp hne _ hs₁ =>
        arguments_addsLoads hu hg hw params variadic hp hne _ (fun _ ha => he.argument ha) hs₁)
      fun _ _ _ _ => .pure trivial
  · exact .trail hs (value_addsLoads hu hg hw e he hs) fun _ _ _ _ => .pure trivial

theorem returned_addsLoads {e : Option Expr}
    (he : ∀ a ∈ e, a.Checked u ∧ a.typeIn? w.sight = some ret)
    (hret : e.isSome → ret.isHollow = false) :
    AddsLoads ret w solid (returned e) st (e.elim [] (·.junctionsAs w ret)) fun _ _ => True := by
  cases e with
  | none => exact .pure trivial
  | some e =>
    obtain ⟨he, hty⟩ := he e rfl
    have hget : AddsLoads ret w solid (get : LowerM State) st [] fun st₀ _ => st₀ = st :=
      (Adds.reading fun _ _ hrun => runs_get.mp hrun).mono fun _ _ => And.left
    refine .lead hs hget fun st₀ st₁ hs₁ hst => ?_
    subst hst
    exact .trail hs₁ (valueAs_addsLoads hu hg hw hs₁ he hty hs.returns fun _ => hret rfl)
      fun _ _ _ _ => .pure trivial

end Walk

end Lowering

end Frontend
