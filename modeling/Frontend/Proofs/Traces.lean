import Frontend.Proofs.SourceFacts

/-!
What becomes of the sites of an expression. Of the instructions that lowering adds, those that are
no plain ones stand for its sites, in this order. A call passes as many arguments as are written, to
a function that takes as many as the source tells. If no struct hides another, the address of a
field is taken of a struct with the layout it was defined to have, and has the type that this gives
the member.
-/
namespace Frontend.Lowering

open List (Forall₂)
open Ir (Ctx Straight Policy marked)

section Types

variable {a o : Operand} {s s' : Span} {st st' : State} {tidy : Prop} {v : Sight} {ty t ret : Ir.Ty}
  {op : UnaryOp} {params : List Ir.Ty} {l r : Ir.Reg}

theorem read_ty {ptr : Ir.Reg} (h : Runs (read ptr ty) st o st') :
    o.ty = if ty.isAggregate then .ptr ty else ty := by
  unfold read at h
  split at h <;> rename_i hagg
  · rw [(runs_pure.mp h).1, if_pos hagg]
  · rw [(runs_emit.mp h).1, if_neg hagg]

/-- What a unary operator gives, by the type `t` of its operand. -/
def Gives (t u : Ir.Ty) : UnaryOp → Prop
  | .not => u = .bool
  | .neg | .bitNot => u = t ∧ (t.isFloat ∨ t.isBits)
  | .addressOf => t.isInt ∧ u = .ptr t
  | .deref => u.isInt ∧ t = .ptr u

theorem unary_ty (h : Runs (unary op a s) st o st') : Gives a.ty o.ty op := by
  cases op with
  | not =>
    obtain ⟨bit, st₁, -, h₁⟩ := runs_bind.mp h
    exact congrArg Operand.ty (runs_emit.mp h₁).1
  | neg =>
    dsimp only [unary] at h
    split at h
    · rename_i hty
      exact (runs_emit.mp h).1 ▸ ⟨rfl, .inl hty⟩
    split at h
    · rename_i hty
      exact (runs_emit.mp h).1 ▸ ⟨rfl, .inr (by simp [Ir.Ty.isBits, hty])⟩
    · exact absurd h not_runs_unsupported
  | bitNot =>
    dsimp only [unary] at h
    split at h
    · rename_i hty
      exact (runs_emit.mp h).1 ▸ ⟨rfl, .inr (by simpa [Ir.Ty.isBits] using hty)⟩
    · exact absurd h not_runs_unsupported
  | addressOf =>
    dsimp only [unary] at h
    split at h
    · rename_i hty
      exact (runs_emit.mp h).1 ▸ ⟨hty, rfl⟩
    · exact absurd h not_runs_unsupported
  | deref =>
    dsimp only [unary] at h
    split at h
    · rename_i ty hty
      split at h
      · rename_i hint
        have hptr : a.ty = .ptr ty := by
          cases ht : a.ty <;> simp_all [Ir.Ty.pointee?]
        exact (runs_emit.mp h).1 ▸ ⟨hint, hptr⟩
      · exact absurd h not_runs_unsupported
    · exact absurd h not_runs_unsupported

theorem not_fn (h : t.isFloat ∨ t.isBits ∨ t.isPtr) : t ≠ .fn params ret := by
  rintro rfl
  simp [Ir.Ty.isFloat, Ir.Ty.isBits, Ir.Ty.isInt, Ir.Ty.isPtr] at h

/-- Functions are not computed. -/
theorem Gives.not_fn {u : Ir.Ty} (h : Gives t u op) : u ≠ .fn params ret := by
  refine Lowering.not_fn ?_
  cases op with
  | not => exact .inr (.inl (by rw [show u = .bool from h]; rfl))
  | neg | bitNot => exact h.1 ▸ h.2.imp_right .inl
  | addressOf => exact .inr (.inr (by rw [h.2]; rfl))
  | deref => exact .inr (.inl (by simp [Ir.Ty.isBits, h.1]))

theorem unary_yields {operand : Expr} (h : Runs (unary op a s) st o st')
    (ha : operand.Yields tidy v a.ty) : (Expr.unary op operand s').Yields tidy v o.ty := by
  have hty := unary_ty h
  refine ⟨fun params ret hfn => absurd hfn hty.not_fn, fun htidy ty htype => ?_⟩
  obtain ⟨ty₀, hty₀, hop⟩ := Option.bind_eq_some_iff.mp htype
  have hheld := ha.type htidy ty₀ hty₀
  cases op with
  | not =>
    obtain rfl := Option.some.inj hop
    trivial
  | neg | bitNot =>
    obtain rfl := Option.some.inj hop
    exact hty.1 ▸ hheld
  | addressOf =>
    obtain rfl := Option.some.inj hop
    exact hheld.integer hty.1 (.inl rfl) _ _
  | deref =>
    simp only [UnaryOp.infer] at hop
    split at hop
    · simp [Except.toOption] at hop
    · obtain rfl := Option.some.inj hop
      exact hheld.integer hty.1 (.inr hty.2) _ _

/-- The type of what an operator gives. -/
theorem apply_ty {op : BinaryOp} (h : Runs (apply op ty l r s) st o st') :
    if op.isComparison then o.ty = .bool else o.ty = ty ∧ (ty.isFloat ∨ ty.isBits) := by
  unfold apply at h
  split at h
  · rename_i op' t hop
    rw [(runs_emit.mp h).1]
    have hbits : (ty.isInt || decide (ty = .bool)) = ty.isBits := rfl
    simp only [binaryOp, hbits] at hop
    cases hf : floatOp? op <;> cases hi : intOp? op <;> simp only [hf, hi] at hop <;>
      split_ifs at hop <;> cases hop <;> simp_all
  · exact absurd h not_runs_unsupported

theorem apply_not_fn {op : BinaryOp} (h : Runs (apply op ty l r s) st o st') :
    o.ty ≠ .fn params ret := by
  have hty := apply_ty h
  refine not_fn ?_
  split at hty
  · exact .inr (.inl (by rw [hty]; rfl))
  · exact hty.1 ▸ hty.2.imp_right .inl

theorem apply_yields {op : BinaryOp} {lhs rhs : Expr} {lty rty ty : Ty}
    (h : Runs (apply op t l r s) st o st') (hlogical : op.isLogical = false)
      (hl : lhs.typeIn? v = some lty)
    (hr : rhs.typeIn? v = some rty) (hjoin : lty.join rty = .ok ty)
      (ht : tidy → ty.lowerIn? v = some t) :
    (Expr.binary op lhs rhs s').Yields tidy v o.ty := by
  have hty := apply_ty h
  refine ⟨fun params ret hfn => absurd hfn (apply_not_fn h), fun htidy ty' htype => ?_⟩
  have hinfer : (op.infer lty rty).toOption = some ty' := by
    simpa [Expr.typeIn?, hl, hr] using htype
  split at hty <;> rename_i hcmp
  · simp only [BinaryOp.infer, BinaryOp.yieldsBool, hcmp, Bool.true_or, if_pos] at hinfer
    obtain rfl := Option.some.inj hinfer
    trivial
  · simp only [BinaryOp.infer, BinaryOp.yieldsBool, hcmp, hlogical, hjoin] at hinfer
    obtain rfl := Option.some.inj hinfer
    exact hty.1 ▸ .lowered (ht htidy)

end Types

variable {K : SourceFacts} {P : Policy} {declared : String → List Ir.Ty → Ir.Ty → Prop} {v : Sight}
  {st st' : State} {c : Ctx}

/-- The names in sight can be used where `c` holds, and are as the source tells. -/
structure Poised (K : SourceFacts) (declared : String → List Ir.Ty → Ir.Ty → Prop) (v : Sight)
    (st : State) (c : Ctx) : Prop where
  ready : Ready declared st c
  aware : Aware K v st.names

theorem Poised.laidOut (h : Poised K declared v st c) : st.names.LaidOut := by
  intro b hb ty hty
  have hs := h.ready.handles b hb
  rwa [hty] at hs

theorem Poised.emits {c' : Ctx} (h : Poised K declared v st c)
    (he : Emits (Straight P declared) st c st' c') : Poised K declared v st' c' :=
  ⟨he.ready h.ready, he.names ▸ h.aware⟩

/-- Code is typed, and the marked instructions in it stand for sites. -/
def siteReading (K : SourceFacts) (P : Policy) (declared : String → List Ir.Ty → Ir.Ty → Prop)
    (v : Sight) : CodeReading Ctx Site where
  ready := Poised K declared v
  leads := Straight P declared
  shows c code sites := Forall₂ (Ir.Instr.Serves K c.Has) (marked code) sites
  nil _ := ⟨.nil, .nil⟩
  append his hxs hjs hys := by
    refine ⟨his.append hjs, ?_⟩
    rw [Ir.marked_append]
    have hkept := hxs.imp fun _ _ h => h.mono (fun _ _ _ => id) fun _ _ => hjs.le.has
    exact List.rel_append hkept hys
  extend hp h := hp.emits ⟨_, rfl, h⟩

/-- `act` only adds typed instructions, and those that are marked stand for `sites`. What it
gives satisfies `Q` after them. -/
abbrev AddsSites (K : SourceFacts) (P : Policy) (declared : String → List Ir.Ty → Ir.Ty → Prop)
    (v : Sight) (act : LowerM α) (st : State) (c : Ctx) (sites : List Site)
    (Q : α → Ctx → Prop) : Prop :=
  Adds (siteReading K P declared v) act st c sites Q

namespace AddsSites

variable {Q : α → Ctx → Prop} {act : LowerM α} {op : Ir.Op} {s : Site}

/-- Steps that mark no instruction leave nothing. -/
theorem unmarked
    (hact : ∀ a st', Runs act st a st' → ∃ code, st' = st.extend code ∧ marked code = [])
    (h : Lowers P declared act st c Q) : AddsSites K P declared v act st c [] Q := by
  intro a st' hrun
  obtain ⟨code, c', rfl, hcode, -, hq⟩ := h a st' hrun
  obtain ⟨code', heq, hnone⟩ := hact a _ hrun
  obtain rfl : code = code' := by
    have hinstrs := congrArg (fun st => st.current.block.instrs) heq
    exact List.append_cancel_left hinstrs
  refine ⟨code, c', rfl, hcode, ?_, hq⟩
  show Forall₂ _ (marked code) []
  rw [hnone]
  exact .nil

theorem ofPlain (hplain : Plain act) (h : Lowers P declared act st c Q) :
    AddsSites K P declared v act st c [] Q := by
  refine unmarked (fun a st' hrun => ?_) h
  obtain ⟨code, hst, hall⟩ := hplain.runs hrun
  exact ⟨code, hst, Ir.marked_plain hall⟩

theorem siteVoid (hop : op.isMarked) (htyped : op.Typed P declared c.Has none)
    (hs : Ir.Instr.Serves K c.Has ⟨none, op⟩ s) :
    AddsSites K P declared v (emitVoid op) st c [s] fun _ c' => c' = c := by
  intro _ st' hrun
  obtain rfl := runs_emitVoid.mp hrun
  refine ⟨_, c, rfl, .effect htyped .nil, ?_, rfl⟩
  show Forall₂ _ (marked _) _
  rw [marked, List.filter_cons_of_pos (by simp [hop])]
  exact .cons hs .nil

variable (hp : Poised K declared v st c)

include hp

/-- An instruction that stands for a site. -/
theorem site (hop : op.isMarked) {ty : Ir.Ty} (htyped : op.Typed P declared c.Has (some ty))
    (hs : ∀ r c', c.Le c' → c'.Has r ty → Ir.Instr.Serves K c'.Has ⟨some r, op⟩ s) :
    AddsSites K P declared v (emitReg op) st c [s] fun r c' => c'.Has r ty := by
  intro r st' hrun
  obtain ⟨rfl, rfl⟩ := runs_emitReg.mp hrun
  have hhas := c.has_push ty
  rw [Ctx.next, hp.ready.next] at hhas
  refine ⟨_, c.push ty, rfl, Emits.value hp.ready htyped, ?_, hhas⟩
  show Forall₂ _ (marked _) _
  rw [marked, List.filter_cons_of_pos (by simp [hop])]
  exact .cons (hs _ _ (c.le_push ty) hhas) .nil

theorem siteValue (hop : op.isMarked) {ty : Ir.Ty} (htyped : op.Typed P declared c.Has (some ty))
    (hs : ∀ r c', c.Le c' → c'.Has r ty → Ir.Instr.Serves K c'.Has ⟨some r, op⟩ s) :
    AddsSites K P declared v (emit op ty) st c [s] fun o c' => o.Held c' ∧ o.ty = ty :=
  .trail hp (site hp hop htyped hs) fun _ _ _ _ _ hr => .pure ⟨hr, rfl⟩

end AddsSites

/-- The operand holds a value of its type, as the source tells of the expression. -/
def Operand.Renders (tidy : Prop) (v : Sight) (e : Expr) (o : Operand) (c : Ctx) : Prop :=
  o.Held c ∧ e.Yields tidy v o.ty

section

variable (hp : Poised K declared v st c)

include hp

/-- What the name of a value stands for. -/
theorem ident_addsSites (id : Ident) :
    AddsSites K P declared v (ident id) st c [] (Operand.Renders K.tidy v (.ident id)) := by
  refine .lead hp .lookup fun h st₁ c₁ he₁ hp₁ hfound => ?_
  obtain ⟨⟨b, hb, rfl⟩, rfl⟩ := hfound
  obtain ⟨x, hx, hxb, hstands⟩ := hp.aware.lookup hb
  have hfits : Handle.Fits x b.value := hxb.fits
  have hsound := hp.ready.handles b (ScopeTable.mem_visible_of_find? hb)
  rw [← he₁.current_id] at hsound
  have htype : ∀ ty, (Expr.ident id).typeIn? v = some ty → ty = x.ty := by
    intro ty hty
    simpa [Expr.typeIn?, hx, eq_comm] using hty
  have htakes : (Expr.ident id).takes v = x.arity.getD 0 := by simp [Expr.takes, hx]
  generalize b.value = h at hfits hstands hsound
  cases h with
  | slot ptr ty owner =>
    obtain ⟨hflat, hlow⟩ := hstands
    refine .lead hp₁ .ownedHere fun _ st₂ c₂ _ hp₂ ho => ?_
    obtain ⟨ho, rfl⟩ := ho
    refine ((AddsSites.ofPlain (computing_plain.read _ _)
      (read_lowers hp₂.ready (hsound ho))).noting fun _ _ => read_ty).mono fun o c' ho => ⟨ho.1, ?_⟩
    rw [ho.2]
    refine .flat ?_ (by simp [htakes, hfits.2]) fun htidy ty hty => htype ty hty ▸
      .passed (hlow htidy)
    split
    · trivial
    · exact hflat
  | param reg ty owner =>
    obtain ⟨hflat, hlow⟩ := hstands
    refine .lead hp₁ .ownedHere fun _ st₂ c₂ _ hp₂ ho => ?_
    obtain ⟨ho, rfl⟩ := ho
    refine .pure ⟨hsound ho, .flat hflat (by simp [htakes, hfits.2]) fun htidy ty' hty => ?_⟩
    obtain ⟨t, ht, rfl⟩ := hlow htidy
    exact htype ty' hty ▸ .passed ht
  | func name params ret variadic =>
    obtain ⟨hret, -, hlow⟩ := hstands
    have hunmarked : ∀ o st', Runs (emit (.funcRef name) (.fn params ret)) st₁ o st' →
        ∃ code, st' = st₁.extend code ∧ marked code = [] :=
      fun _ _ hrun => ⟨_, (runs_emit.mp hrun).2, rfl⟩
    refine (AddsSites.unmarked hunmarked (Lowers.emit hp₁.ready (.funcRef hsound))).mono
      fun o c' ho => ⟨ho.1, ?_, fun htidy ty hty => ?_⟩
    · intro params' ret' hfn
      obtain ⟨rfl, rfl⟩ := Ir.Ty.fn.inj (ho.2.symm.trans hfn)
      exact ⟨by simp [htakes, hfits.2.1], hret⟩
    · obtain ⟨r, hr, hlow⟩ := hlow htidy
      rw [htype ty hty, hr, ho.2]
      exact ⟨params, ret, hlow, rfl⟩
  | struct | member | marker => exact .unsupported

/-- The register has the address of a struct; that of the expression, if this is one. -/
def Addresses (K : SourceFacts) (v : Sight) (e : Expr) (r : Ir.Reg) (c : Ctx) : Prop :=
  ∃ t, c.Has r (.ptr t) ∧ t.isAggregate ∧ (K.tidy → ∀ s, e.typeIn? v = some (.inst s 0) →
    ∃ l, v.layout? s = some l ∧ t = l.ty)

theorem identAddress_addsSites (id : Ident) :
    AddsSites K P declared v (identAddress id) st c [] (Addresses K v (.ident id)) := by
  refine .lead hp .lookup fun h st₁ c₁ he₁ hp₁ hfound => ?_
  obtain ⟨⟨b, hb, rfl⟩, rfl⟩ := hfound
  obtain ⟨x, hx, -, hstands⟩ := hp.aware.lookup hb
  have hsound := hp.ready.handles b (ScopeTable.mem_visible_of_find? hb)
  rw [← he₁.current_id] at hsound
  have hlayout : ∀ s t, (Expr.ident id).typeIn? v = some (.inst s 0) → x.ty.lowerIn? v = some t →
      ∃ l, v.layout? s = some l ∧ t = l.ty := by
    intro s t hs ht
    have hty : x.ty = .inst s 0 := by simpa [Expr.typeIn?, hx] using hs
    rw [hty] at ht
    obtain ⟨l, hl, rfl⟩ := Option.map_eq_some_iff.mp ht
    exact ⟨l, hl, rfl⟩
  generalize b.value = h at hstands hsound
  cases h with
  | slot ptr ty owner =>
    dsimp only
    split
    · rename_i hagg
      refine .lead hp₁ .ownedHere fun _ st₂ c₂ _ hp₂ ho => ?_
      obtain ⟨ho, rfl⟩ := ho
      exact .pure ⟨ty, hsound ho, hagg, fun htidy s hs => hlayout s ty hs (hstands.2 htidy)⟩
    · exact .unsupported
  | param reg ty owner =>
    dsimp only
    split
    · rename_i hptr
      obtain ⟨t, rfl, hagg⟩ := pointee?_aggregate hptr
      refine .lead hp₁ .ownedHere fun _ st₂ c₂ _ hp₂ ho => ?_
      obtain ⟨ho, rfl⟩ := ho
      refine .pure ⟨t, hsound ho, hagg, fun htidy s hs => ?_⟩
      obtain ⟨t', ht', heq⟩ := hstands.2 htidy
      obtain ⟨l, hl, rfl⟩ := hlayout s t' hs ht'
      exact ⟨l, hl, Ir.Ty.ptr.inj heq⟩
    · exact .unsupported
  | func | struct | member | marker => exact .unsupported

/-- What a call goes to takes what the source tells. -/
structure CallTarget.Renders (K : SourceFacts) (v : Sight) (callee : Expr) (t : CallTarget) :
    Prop where
  takes : match t.callee with
    | .named f => K.knows f (callee.takes v) (callee.variadic v)
    | .pointer _ => callee.variadic v = false ∧ t.params.length = callee.takes v
  flat : t.ret.Flat
  type : K.tidy → ∀ ty, (callee.typeIn? v).bind Ty.return? = some ty → ty.lowerIn? v = some t.ret

theorem named?_addsSites (callee : Expr) :
    AddsSites K P declared v (named? callee) st c [] fun target c' =>
      (∀ t : CallTarget, target = some t →
        t.Sound declared c' ∧ t.Renders K v callee ∧ callee.sites v = []) ∧
      (target = none → callee.variadic v = false) := by
  cases callee with
  | ident id =>
    refine .lead hp .lookup fun h st₁ c₁ he₁ hp₁ hfound => ?_
    obtain ⟨⟨b, hb, rfl⟩, rfl⟩ := hfound
    obtain ⟨x, hx, hxb, hstands⟩ := hp.aware.lookup hb
    have hfits : Handle.Fits x b.value := hxb.fits
    have hsound := hp.ready.handles b (ScopeTable.mem_visible_of_find? hb)
    generalize b.value = h at hfits hstands hsound
    cases h with
    | func name params ret variadic =>
      obtain ⟨hret, hknows, hlow⟩ := hstands
      obtain ⟨-, harity, -⟩ := hfits
      refine .pure ⟨?_, by simp⟩
      rintro _ ⟨⟩
      refine ⟨hsound, ⟨?_, hret, fun htidy ty hty => ?_⟩, by simp [Expr.sites]⟩
      · simpa [Expr.takes, Expr.variadic, hx, harity] using hknows
      · obtain ⟨r, hr, hlow⟩ := hlow htidy
        obtain rfl : r = ty := by simpa [Expr.typeIn?, hx, hr, Ty.return?] using hty
        exact hlow
    | _ =>
      refine .pure ⟨by simp, fun _ => ?_⟩
      simp [Expr.variadic, hx, show x.arity = none from hfits.2]
  | _ => exact .pure ⟨by simp, fun _ => rfl⟩

theorem callTarget_addsSites (callee : Expr)
    (hvalue : ∀ st₁ c₁, Poised K declared v st₁ c₁ → AddsSites K P declared v (value callee) st₁ c₁
      (callee.sites v) (Operand.Renders K.tidy v callee)) :
    AddsSites K P declared v (callTarget callee (value callee)) st c (callee.sites v)
      fun t c' => t.Sound declared c' ∧ t.Renders K v callee := by
  refine .lead hp (named?_addsSites hp callee) fun target st₁ c₁ _ hp₁ ht => ?_
  cases target with
  | some t =>
    obtain ⟨hsound, hrenders, hsites⟩ := ht.1 t rfl
    rw [hsites]
    exact .pure ⟨hsound, hrenders⟩
  | none =>
    refine .trail hp₁ (hvalue st₁ c₁ hp₁) fun f st₂ c₂ _ hp₂ hf => ?_
    unfold pointedTo
    split
    · rename_i params ret hty
      obtain ⟨hheld, hyields⟩ := hf
      rw [Operand.Held, hty] at hheld
      rw [hty] at hyields
      obtain ⟨htakes, hret⟩ := hyields.function params ret rfl
      refine .pure ⟨hheld, ⟨ht.2 rfl, htakes⟩, hret, fun htidy ty htype => ?_⟩
      obtain ⟨fty, hfty, hreturn⟩ := Option.bind_eq_some_iff.mp htype
      have hheldAs := hyields.type htidy fty hfty
      cases fty with
      | fn r n =>
        obtain rfl := Option.some.inj hreturn
        obtain ⟨params', ret', hlow, heq⟩ := hheldAs
        cases hn : n.toNat with
        | zero =>
          rw [hn] at heq
          exact (Ir.Ty.fn.inj heq).2 ▸ hlow
        | succ k => simp [hn, Ir.Ty.ptrs] at heq
      | _ => simp [Ty.return?] at hreturn
    · exact .unsupported

/-- The call itself comes after what its callee and its arguments leave. -/
theorem call_addsSites (callee : Expr) (args : List Expr) (s : Span)
    (hvalue : ∀ st₁ c₁, Poised K declared v st₁ c₁ → AddsSites K P declared v (value callee) st₁ c₁
      (callee.sites v) (Operand.Renders K.tidy v callee))
    (hargs : ∀ params variadic st₁ c₁, Poised K declared v st₁ c₁ →
      AddsSites K P declared v (arguments params variadic args) st₁ c₁ (Expr.allSites v args)
        fun regs c' => Ir.ArgsTyped c'.Has params regs ∧ regs.length = args.length) :
    AddsSites K P declared v
      (call callee (value callee) fun params variadic => arguments params variadic args) st c
      ((Expr.call callee args s).sites v)
      fun o c' => ∀ w, o = some w → w.Renders K.tidy v (.call callee args s) c' := by
  rw [Expr.sites]
  refine .bind hp (callTarget_addsSites hp callee hvalue) fun t st₁ c₁ _ hp₁ ht => ?_
  obtain ⟨hsound, hrenders⟩ := ht
  refine .bind hp₁ (hargs t.params t.variadic st₁ c₁ hp₁) fun regs st₂ c₂ he₂ hp₂ hregs => ?_
  have hop := hsound.typed (P := P) he₂.le hregs.1
  have hmarked : (t.callee.op regs).isMarked := by cases t.callee <;> rfl
  have hserves : ∀ res c', c₂.Le c' → Ir.Instr.Serves K c'.Has ⟨res, t.callee.op regs⟩
      (.call ⟨callee.takes v, args.length, callee.variadic v⟩) := by
    intro res c' hle
    have htakes := hrenders.takes
    rw [CallTarget.Sound] at hsound
    cases ht : t.callee with
    | named f =>
      rw [ht] at htakes
      exact .named hregs.2 htakes
    | pointer r =>
      rw [ht] at htakes hsound
      exact .pointer hregs.2 htakes.1 ((he₂.le.trans hle).has hsound) htakes.2
  dsimp only
  split
  · rename_i hvoid
    rw [hvoid, Ir.callResult, if_pos rfl] at hop
    refine .trail hp₂ (AddsSites.siteVoid hmarked hop (hserves none c₂ (.refl c₂)))
      fun _ _ _ _ _ _ => ?_
    exact .pure nofun
  · rename_i hret
    rw [Ir.callResult, if_neg hret] at hop
    refine .trail hp₂ (AddsSites.siteValue hp₂ hmarked hop fun r c' hle _ =>
      hserves (some r) c' hle) fun o _ c₃ _ _ ho => .pure ?_
    rintro _ ⟨⟩
    refine ⟨ho.1, .flat (ho.2 ▸ hrenders.flat) rfl fun htidy ty htype => ?_⟩
    exact ho.2 ▸ .lowered (hrenders.type htidy ty htype)

/-- The address of a member is that of the field of its name. -/
theorem memberAddress_addsSites (object : Expr) (field : Ident) (arrow : Bool) (s : Span)
    (hvalue : AddsSites K P declared v (value object) st c (object.sites v)
      (Operand.Renders K.tidy v object))
    (haddress : (∃ name, object.typeIn? v = some (.inst name 0)) →
      AddsSites K P declared v (address object) st c (object.sites v) (Addresses K v object)) :
    AddsSites K P declared v
      (memberAddress (.member object field arrow s) arrow (value object) (address object)) st c
      ((Expr.member object field arrow s).sites v)
      fun p c' => c'.Has p.1 (.ptr p.2) ∧ ∃ ty,
        (Expr.member object field arrow s).typeIn? v = some ty ∧ ty.lower st.names = .ok p.2 := by
  intro p st' hrun
  obtain ⟨ptr, st₁, hptr, hrest⟩ := runs_bind.mp hrun
  obtain ⟨ty, st₂, hinfer, -⟩ := runs_bind.mp hrest
  obtain ⟨hty, -⟩ := runs_infer.mp hinfer
  -- the type of the whole is looked up after the object was lowered, but in the same table
  have hnames : st₁.names = st.names := by
    have hext : Extending (bif arrow then value object >>=
        (structPointer · s) else address object) := by
      cases arrow with
      | true =>
        exact emitting_extending.bind (emitting_extending.tallying.value object) fun _ =>
          emitting_extending.computing.structPointer
      | false => exact emitting_extending.tallying.address object
    obtain ⟨code, rfl⟩ := hext _ _ _ hptr
    rfl
  rw [hnames, hp.aware.shows.infer_eq_ok] at hty
  obtain ⟨oty, hoty, hstruct⟩ := Option.bind_eq_some_iff.mp hty
  obtain ⟨⟨name, members⟩, hs, hfield⟩ := Option.bind_eq_some_iff.mp hstruct
  obtain ⟨rfl, x, hx, hmembers⟩ := Sight.struct?_eq_some hs
  have hobject : AddsSites K P declared v
      (bif arrow then value object >>= (structPointer · s) else address object) st c
      (object.sites v)
      fun r c' => ∃ t, c'.Has r (.ptr t) ∧ t.isAggregate ∧
        (K.tidy → ∃ l, v.layout? name = some l ∧ t = l.ty) := by
    cases arrow with
    | true =>
      refine .trail hp hvalue fun o st₁ c₁ _ _ ho => ?_
      unfold structPointer
      split
      · rename_i hptr
        obtain ⟨t, ht, hagg⟩ := pointee?_aggregate hptr
        refine .pure ⟨t, ht ▸ ho.1, hagg, fun htidy => ?_⟩
        obtain ⟨l, hl, heq | ⟨hzero, -⟩⟩ := ho.2.type htidy _ hoty
        · exact ⟨l, hl, Ir.Ty.ptr.inj (ht.symm.trans heq)⟩
        · simp at hzero
      · exact .unsupported
    | false =>
      refine (haddress ⟨name, hoty⟩).mono fun r c' hr => ?_
      obtain ⟨t, hhas, hagg, hlayout⟩ := hr
      exact ⟨t, hhas, hagg, fun htidy => hlayout htidy name hoty⟩
  have hall : AddsSites K P declared v
      (memberAddress (.member object field arrow s) arrow (value object) (address object)) st c
      ((Expr.member object field arrow s).sites v)
      fun p c' => c'.Has p.1 (.ptr p.2) ∧ ty.lower st.names = .ok p.2 := by
    rw [Expr.sites]
    refine .bind hp hobject fun ptr st₁ c₁ he₁ hp₁ hptr => ?_
    obtain ⟨t₀, hhas, hagg, hlayout⟩ := hptr
    refine .lead hp₁ .infer fun ty' st₂ c₂ he₂ hp₂ hinfer => ?_
    obtain ⟨hinfer, rfl⟩ := hinfer
    obtain rfl : ty = ty' :=
      Option.some.inj (hty.symm.trans (hp₁.aware.shows.infer_eq_ok.mp hinfer))
    refine .lead hp₂ .lowerType fun t st₃ c₃ _ hp₃ hlow => ?_
    obtain ⟨hlow, rfl⟩ := hlow
    have hop : (Ir.Op.fieldPtr ptr 0).Typed P declared c₃.Has (some (.ptr t)) := .fieldPtr hhas hagg
    refine .trail hp₃ (AddsSites.site hp₃ rfl hop fun r c' hle hr => .field fun htidy => ?_)
      fun r _ _ _ _ hr => .pure ⟨hr, ?_⟩
    · obtain ⟨l, hl, rfl⟩ := hlayout htidy
      obtain ⟨t', ht', hlow'⟩ := (hp.aware.tidy htidy).field? hx hmembers hl hfield
      obtain rfl : t = t' :=
        Option.some.inj ((hp₂.aware.lower htidy ty hlow).symm.trans hlow')
      exact ⟨l, t, by simp [hoty, hs, hl], ht', hle.has hhas, hr⟩
    · rw [← he₁.names, ← he₂.names]
      exact hlow
  obtain ⟨code, c', hst, hcode, hsites, hhas, hlow⟩ := hall p st' hrun
  exact ⟨code, c', hst, hcode, hsites, hhas, ty, hty, hlow⟩

end

mutual

theorem value_addsSites (e : Expr) (he : e.Obeys P.literal) (st : State) (c : Ctx)
    (hp : Poised K declared v st c) :
    AddsSites K P declared v (value e) st c (e.sites v) (Operand.Renders K.tidy v e) := by
  match e with
  | .literal lit ty s =>
    rw [value, Expr.sites]
    refine .lead hp .lowerType fun t st₁ c₁ _ hp₁ ht => ?_
    obtain ⟨ht, rfl⟩ := ht
    refine (AddsSites.ofPlain (.emit rfl) (Lowers.emit hp₁.ready (.const (he _ t ht)))).mono
      fun o c' ho => ⟨ho.1, .flat (ho.2 ▸ Ty.lower_flat hp.laidOut ty ht) rfl ?_⟩
    rintro htidy _ ⟨⟩
    exact ho.2 ▸ .lowered (hp.aware.lower htidy ty ht)
  | .ident id =>
    rw [value, Expr.sites]
    exact ident_addsSites hp id
  | .paren inner s =>
    rw [value, Expr.sites]
    exact (value_addsSites inner he st c hp).mono fun o c' ho => ⟨ho.1, ho.2.function, ho.2.type⟩
  | .unary op operand s =>
    rw [value, Expr.sites]
    exact .trail hp (value_addsSites operand he st c hp) fun a st₁ c₁ _ hp₁ ha =>
      (AddsSites.ofPlain (computing_plain.unary _) (unary_lowers hp₁.ready ha.1)).noting
        fun _ _ hrun => unary_yields hrun ha.2
  | .binary op lhs rhs s =>
    rw [value, Expr.sites]
    split
    · rename_i hlogical
      refine .bind hp (value_addsSites lhs he.1 st c hp) fun l st₁ c₁ _ hp₁ hl => ?_
      refine .lead hp₁ (AddsSites.ofPlain computing_plain.truthy (truthy_lowers hp₁.ready hl.1))
        fun l st₂ c₂ _ hp₂ hl => ?_
      refine .trail hp₂ (value_addsSites rhs he.2 st₂ c₂ hp₂) fun r st₃ c₃ he₃ hp₃ hr => ?_
      refine .lead hp₃ (AddsSites.ofPlain computing_plain.truthy (truthy_lowers hp₃.ready hr.1))
        fun r st₄ c₄ he₄ hp₄ hr => ?_
      have hlbit : c₄.Has l.reg .bool := (he₃.le.trans he₄.le).has (hl.2 ▸ hl.1)
      have hop : (Ir.Op.binary (if op = .and then .and else .or) l.reg r.reg).Typed P
          declared c₄.Has (some .bool) := .bits (by split <;> rfl) rfl hlbit (hr.2 ▸ hr.1)
      refine (AddsSites.ofPlain (.emit rfl) (Lowers.emit hp₄.ready hop)).mono fun o c' ho =>
        ⟨ho.1, ?_⟩
      refine .flat (ho.2 ▸ trivial) rfl fun htidy ty hty => ?_
      obtain ⟨lty, -, hrest⟩ := Option.bind_eq_some_iff.mp hty
      obtain ⟨rty, -, hinfer⟩ := Option.bind_eq_some_iff.mp hrest
      simp only [BinaryOp.infer, BinaryOp.yieldsBool, hlogical, Bool.or_true, if_pos] at hinfer
      obtain rfl := Option.some.inj hinfer
      trivial
    · rename_i hlogical
      refine .lead hp .infer fun lty st₁ c₁ he₁ hp₁ hlty => ?_
      obtain ⟨hlty, rfl⟩ := hlty
      refine .lead hp₁ .infer fun rty st₂ c₂ he₂ hp₂ hrty => ?_
      obtain ⟨hrty, rfl⟩ := hrty
      refine .lead hp₂ .joined fun ty st₃ c₃ he₃ hp₃ hjoin => ?_
      obtain ⟨hjoin, rfl⟩ := hjoin
      refine .lead hp₃ .lowerType fun t st₄ c₄ he₄ hp₄ ht => ?_
      obtain ⟨ht, rfl⟩ := ht
      refine .bind hp₄ (value_addsSites lhs he.1 st₄ _ hp₄) fun l st₅ c₅ _ hp₅ hl => ?_
      refine .lead hp₅ (AddsSites.ofPlain (computing_plain.convert _)
        (convert_lowers hp₅.ready hl.1 t)) fun l st₆ c₆ _ hp₆ hl => ?_
      refine .trail hp₆ (value_addsSites rhs he.2 st₆ c₆ hp₆) fun r st₇ c₇ he₇ hp₇ hr => ?_
      refine .lead hp₇ (AddsSites.ofPlain (computing_plain.convert _)
        (convert_lowers hp₇.ready hr.1 t)) fun r st₈ c₈ he₈ hp₈ hr => ?_
      have hlreg : c₈.Has l.reg t := (he₇.le.trans he₈.le).has (hl.2 ▸ hl.1)
      exact (AddsSites.ofPlain (computing_plain.apply _ _ _ _)
        (apply_lowers hp₈.ready hlreg (hr.2 ▸ hr.1))).noting
        fun _ _ hrun => apply_yields hrun (by simpa using hlogical)
          (hp.aware.shows.infer_eq_ok.mp hlty) (hp₁.aware.shows.infer_eq_ok.mp hrty) hjoin
          fun htidy => hp₃.aware.lower htidy ty ht
  | .cast operand ty s =>
    rw [value, Expr.sites]
    refine .lead hp .lowerType fun t st₁ c₁ _ hp₁ ht => ?_
    obtain ⟨ht, rfl⟩ := ht
    refine .trail hp₁ (value_addsSites operand he st₁ _ hp₁) fun a st₂ c₂ _ hp₂ ha => ?_
    refine (AddsSites.ofPlain (computing_plain.convert _) (convert_lowers hp₂.ready ha.1 t)).mono
      fun o c' ho => ⟨ho.1, .flat (ho.2 ▸ Ty.lower_flat hp.laidOut ty ht) rfl ?_⟩
    rintro htidy _ ⟨⟩
    exact ho.2 ▸ .lowered (hp.aware.lower htidy ty ht)
  | .call callee args s =>
    rw [value]
    refine .trail hp (call_addsSites hp callee args s (value_addsSites callee he.1)
      (arguments_addsSites args he.2)) fun o st₁ c₁ _ _ ho => ?_
    split
    · exact .pure (ho _ rfl)
    · exact .unsupported
  | .member object field arrow s =>
    rw [value]
    refine .trail hp (memberAddress_addsSites hp object field arrow s
      (value_addsSites object he st c hp)
      (address_addsSites object he st c hp)) fun p st₁ c₁ _ hp₁ hhas => ?_
    obtain ⟨hhas, ty, hty, hlow⟩ := hhas
    refine ((AddsSites.ofPlain (computing_plain.read _ _) (read_lowers hp₁.ready hhas)).noting
      fun _ _ => read_ty).mono fun o c' ho => ⟨ho.1, ?_⟩
    rw [ho.2]
    refine .flat ?_ rfl fun htidy ty' hty' => ?_
    · split
      · trivial
      · exact Ty.lower_flat hp.laidOut ty hlow
    · obtain rfl := Option.some.inj (hty.symm.trans hty')
      exact .passed (hp.aware.lower htidy ty hlow)

theorem arguments_addsSites (es : List Expr) (he : Expr.AllObey P.literal es) (params : List Ir.Ty)
    (variadic : Bool) (st : State) (c : Ctx) (hp : Poised K declared v st c) :
    AddsSites K P declared v (arguments params variadic es) st c (Expr.allSites v es)
      fun regs c' => Ir.ArgsTyped c'.Has params regs ∧ regs.length = es.length := by
  match es with
  | [] =>
    rw [arguments, Expr.allSites]
    exact .pure ⟨by cases params <;> trivial, rfl⟩
  | e :: es =>
    rw [arguments, Expr.allSites]
    refine .bind hp (value_addsSites e he.1 st c hp) fun a st₁ c₁ _ hp₁ ha => ?_
    refine .lead hp₁ (AddsSites.ofPlain (computing_plain.argument _ _)
      (argument_lowers hp₁.ready ha.1 params.head? variadic)) fun a st₂ c₂ _ hp₂ ha => ?_
    refine .trail hp₂ (arguments_addsSites es he.2 params.tail variadic st₂ c₂ hp₂)
      fun regs st₃ c₃ he₃ _ hregs => .pure ⟨?_, by simp [hregs.2]⟩
    cases params with
    | nil => exact ⟨⟨a.ty, he₃.le.has ha.1⟩, hregs.1⟩
    | cons ty tys => exact ⟨he₃.le.has (ha.2 ty rfl ▸ ha.1), hregs.1⟩

theorem address_addsSites (e : Expr) (he : e.Obeys P.literal) (st : State) (c : Ctx)
    (hp : Poised K declared v st c) (htype : ∃ name, e.typeIn? v = some (.inst name 0)) :
    AddsSites K P declared v (address e) st c (e.sites v) (Addresses K v e) := by
  match e with
  | .paren inner s =>
    rw [address, Expr.sites]
    exact address_addsSites inner he st c hp htype
  | .member object field arrow s =>
    rw [address]
    refine .trail hp (memberAddress_addsSites hp object field arrow s
      (value_addsSites object he st c hp)
      (address_addsSites object he st c hp)) fun p st₁ c₁ _ _ hhas => ?_
    obtain ⟨hhas, ty, hty, hlow⟩ := hhas
    obtain ⟨name, hname⟩ := htype
    obtain rfl := Option.some.inj (hname.symm.trans hty)
    have hagg : p.2.isAggregate := by
      simp only [Ty.lower] at hlow
      split at hlow
      · rename_i hlayout
        exact Except.ok.inj hlow ▸ hp.laidOut.isAggregate hlayout
      · simp at hlow
    refine .pure ⟨p.2, hhas, hagg, fun htidy s hs => ?_⟩
    obtain ⟨rfl, -⟩ := Ty.inst.inj (Option.some.inj (hname.symm.trans hs))
    obtain ⟨l, hl, heq⟩ := Option.map_eq_some_iff.mp (hp.aware.lower htidy _ hlow)
    exact ⟨l, hl, heq.symm⟩
  | .ident id =>
    rw [address, Expr.sites]
    exact identAddress_addsSites hp id
  | .literal .. | .unary .. | .binary .. | .cast .. | .call .. =>
    unfold address
    exact .unsupported

end

variable {e : Expr}

theorem valueAs_addsSites (he : e.Obeys P.literal) (target : Ir.Ty)
    (hp : Poised K declared v st c) : AddsSites K P declared v (valueAs target e) st c (e.sites v)
      fun o c' => o.Held c' ∧ o.ty = target :=
  .trail hp (value_addsSites e he st c hp) fun _ _ _ _ hp₁ ho =>
    AddsSites.ofPlain (computing_plain.convert _) (convert_lowers hp₁.ready ho.1 target)

theorem AddsSites.store {ptr r : Ir.Reg} {ty : Ir.Ty} (hptr : c.Has ptr (.ptr ty))
    (hr : c.Has r ty) :
    AddsSites K P declared v (emitVoid (.store ptr r)) st c [] fun _ _ => True := by
  intro _ st' hrun
  obtain rfl := runs_emitVoid.mp hrun
  exact ⟨_, c, rfl, .effect (.store hptr hr) .nil, .nil, trivial⟩

theorem storeAs_addsSites (he : e.Obeys P.literal) {ptr : Ir.Reg} {ty : Ir.Ty}
    (hp : Poised K declared v st c) (hptr : c.Has ptr (.ptr ty)) :
    AddsSites K P declared v (storeAs ptr ty e) st c (e.sites v) fun _ _ => True :=
  .trail hp (valueAs_addsSites he ty hp) fun _ _ _ he₁ _ ho =>
    AddsSites.store (he₁.le.has hptr) (ho.2 ▸ ho.1)

theorem newCell_addsSites {t : Ir.Ty} {init : Option Expr} (hinit : ∀ e ∈ init, e.Obeys P.literal)
    (hp : Poised K declared v st c) : AddsSites K P declared v (newCell t init) st c
      (init.elim [] (·.sites v)) fun ptr c' => c'.Has ptr (.ptr t) := by
  refine .lead hp (AddsSites.ofPlain (.emitReg rfl) (Lowers.emitReg hp.ready .alloca))
    fun ptr st₁ c₁ _ hp₁ hptr => ?_
  cases init with
  | none => exact .pure hptr
  | some e =>
    refine .trail hp₁ (storeAs_addsSites (hinit e rfl) hp₁ hptr) fun _ _ _ he₂ _ _ => .pure ?_
    exact he₂.le.has hptr

theorem effect_addsSites (he : e.Obeys P.literal) (hp : Poised K declared v st c) :
    AddsSites K P declared v (effect e) st c (e.sites v) fun _ _ => True := by
  cases e with
  | call callee args s =>
    exact .trail hp (call_addsSites hp callee args s (value_addsSites callee he.1)
      (arguments_addsSites args he.2)) fun _ _ _ _ _ _ => .pure trivial
  | _ => exact .trail hp (value_addsSites _ he st c hp) fun _ _ _ _ _ _ => .pure trivial

theorem assign_addsSites {target : Ident} (he : e.Obeys P.literal) (hp : Poised K declared v st c) :
    AddsSites K P declared v (assign target e) st c (e.sites v) fun _ _ => True := by
  refine .lead hp .lookup fun h st₁ c₁ he₁ hp₁ hfound => ?_
  obtain ⟨⟨b, hb, rfl⟩, rfl⟩ := hfound
  have hsound := hp.ready.handles b (ScopeTable.mem_visible_of_find? hb)
  rw [← he₁.current_id] at hsound
  generalize b.value = h at hsound
  cases h with
  | slot ptr ty owner =>
    refine .lead hp₁ .ownedHere fun _ st₂ c₂ _ hp₂ ho => ?_
    obtain ⟨ho, rfl⟩ := ho
    exact storeAs_addsSites he hp₂ (hsound ho)
  | _ => exact .unsupported

theorem assignMember_addsSites {target : Expr} (ht : target.Obeys P.literal)
    (he : e.Obeys P.literal)
    (hp : Poised K declared v st c) : AddsSites K P declared v (assignMember target e) st c
      (target.sites v ++ e.sites v) fun _ _ => True := by
  cases target with
  | member object field arrow s =>
    exact .bind hp (memberAddress_addsSites hp object field arrow s
      (value_addsSites object ht st c hp)
      (address_addsSites object ht st c hp)) fun _ _ _ _ hp₁ hptr => storeAs_addsSites he hp₁ hptr.1
  | _ => exact .unsupported

/-- What is returned is of the return type of the function at hand. -/
theorem returned_addsSites {e : Option Expr} (he : ∀ e' ∈ e, e'.Obeys P.literal)
    (hp : Poised K declared v st c) :
    AddsSites K P declared v (returned e) st c (e.elim [] (·.sites v)) fun r c' =>
      r.isSome = e.isSome ∧ ∀ reg ∈ r, c'.Has reg st.current.ret := by
  cases e with
  | none => exact .pure ⟨rfl, nofun⟩
  | some e =>
    intro r st' hrun
    obtain ⟨o, st₁, ho, hpure⟩ := runs_bind.mp (runs_get_bind.mp hrun)
    obtain ⟨rfl, rfl⟩ := runs_pure.mp hpure
    obtain ⟨code, c', hst, hcode, hsites, hheld, hty⟩ :=
      valueAs_addsSites (he e rfl) st.current.ret hp o _ ho
    refine ⟨code, c', hst, hcode, hsites, rfl, ?_⟩
    rintro _ ⟨⟩
    exact hty ▸ hheld

end Frontend.Lowering
