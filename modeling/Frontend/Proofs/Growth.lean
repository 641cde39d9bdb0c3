import Frontend.Proofs.Balance
import Frontend.Proofs.Evaluation
import Frontend.Proofs.Plain

/-!
How far a step of lowering reaches, whatever the state. An expression adds instructions to the
current block and touches nothing else. A statement leaves the functions around it alone, adds
functions to the module under names that can be told in advance, and never returns to a block that
is done.
-/
namespace Frontend

namespace Ir

theorem Block.terminate_of_isSome {b : Block} (h : b.terminator.isSome = true) (t : Terminator) :
    b.terminate t = b := by
  obtain ⟨id, label, instrs, terminator⟩ := b
  cases terminator with
  | none => cases h
  | some t' => rfl

/-- An open block may be filled further; one that is done stays as it is. -/
structure Block.Becomes (b b' : Block) : Prop where
  id : b'.id = b.id
  instrs : b.instrs <+: b'.instrs
  done : b.terminator.isSome = true → b' = b

theorem Block.Becomes.refl (b : Block) : b.Becomes b := ⟨rfl, List.prefix_rfl, fun _ => rfl⟩

theorem Block.Becomes.trans {b b' b'' : Block} (h : b.Becomes b') (h' : b'.Becomes b'') :
    b.Becomes b'' where
  id := h'.id.trans h.id
  instrs := h.instrs.trans h'.instrs
  done := fun hd => by
    have hb := h.done hd
    subst hb
    exact h'.done hd

namespace Builder

/-- Every block of `b` is still there in `b'`, and no register is given out again. -/
structure Grows (b b' : Builder) : Prop where
  nextReg : b.nextReg ≤ b'.nextReg
  earlier : b.earlier ⊆ b'.earlier
  block : ∃ b₁ ∈ b'.blocks, b.block.Becomes b₁

namespace Grows

theorem ofBlock {b b' : Builder} (hn : b.nextReg ≤ b'.nextReg) (he : b.earlier ⊆ b'.earlier)
    (hb : b.block.Becomes b'.block) : b.Grows b' :=
  ⟨hn, he, b'.block, mem_blocks.mpr (.inr rfl), hb⟩

theorem refl (b : Builder) : b.Grows b := ofBlock (Nat.le_refl _) (List.Subset.refl _) (.refl _)

theorem trans {b b' b'' : Builder} (h : b.Grows b') (h' : b'.Grows b'') : b.Grows b'' := by
  refine ⟨Nat.le_trans h.nextReg h'.nextReg, List.Subset.trans h.earlier h'.earlier, ?_⟩
  obtain ⟨b₁, hb₁, h₁⟩ := h.block
  rcases mem_blocks.mp hb₁ with hb₁ | rfl
  · exact ⟨b₁, mem_blocks.mpr (.inl (h'.earlier hb₁)), h₁⟩
  · obtain ⟨b₂, hb₂, h₂⟩ := h'.block
    exact ⟨b₂, hb₂, h₁.trans h₂⟩

/-- Instructions are added to an open block only. -/
theorem extend {b : Builder} (ho : b.isTerminated = false) (code : List Instr) :
    b.Grows (b.extend code) := by
  have hopen : ¬ b.block.terminator.isSome = true := by simpa [isTerminated] using ho
  exact ofBlock (Nat.le_add_right _ _) (List.Subset.refl _)
    ⟨rfl, List.prefix_append _ _, fun hd => absurd hd hopen⟩

theorem freshBlock (b : Builder) : b.Grows b.freshBlock.2 :=
  ofBlock (Nat.le_refl _) (List.Subset.refl _) (.refl _)

theorem startBlock (b : Builder) (id : BlockId) (label : String) :
    b.Grows (b.startBlock id label) :=
  ⟨Nat.le_refl _, List.subset_append_left _ _, b.block,
    mem_blocks.mpr (.inl (mem_blocks.mpr (.inr rfl))), .refl _⟩

theorem terminate (b : Builder) (t : Terminator) : b.Grows (b.terminate t) :=
  ofBlock (Nat.le_refl _) (List.Subset.refl _)
    ⟨rfl, List.prefix_rfl, fun hd => Block.terminate_of_isSome hd t⟩

end Grows

/-- The current block is left by `t` and another one is started, after blocks up to `n` were
reserved. -/
def branch (b : Builder) (t : Terminator) (n : Nat) (id : BlockId) (label : String) : Builder :=
  ({ b with nextBlock := n }.terminate t).startBlock id label

theorem Grows.branch (b : Builder) (t : Terminator) (n : Nat) (id : BlockId) (label : String) :
    (b.terminate t).Grows (b.branch t n id label) :=
  (Grows.startBlock (b.terminate t) id label).trans
    (.ofBlock (Nat.le_refl _) (List.Subset.refl _) (.refl _))

end Builder

end Ir

namespace Lowering

variable {st st₁ st' : State}

/-- `act` adds instructions to the current block and touches nothing else. -/
def Extending (act : LowerM α) : Prop :=
  ∀ st a st', Runs act st a st' → ∃ code, st' = st.extend code

/-- Expressions extend the current block. -/
theorem emitting_extending : Emitting fun _ act _ => Extending act where
  pure a st b st' h := ⟨[], by simp [(runs_pure.mp h).2]⟩
  fail _ _ _ _ _ h := absurd h not_runs_fail
  chain hact hf st b st' h := by
    obtain ⟨a, st₁, h₁, h₂⟩ := runs_bind.mp h
    obtain ⟨is, rfl⟩ := hact st a st₁ h₁
    obtain ⟨js, rfl⟩ := hf a _ b st' h₂
    exact ⟨is ++ js, by simp⟩
  mono h _ := h
  asking _ hf st a st' h := hf st st a st' (runs_get_bind.mp h)
  ask _ hf st a st' h := hf st st a st' (runs_get_bind.mp h)
  emitReg _ _ _ _ h := ⟨_, (runs_emitReg.mp h).2⟩
  emitVoid _ _ _ _ h := ⟨_, runs_emitVoid.mp h⟩

/-- The functions of the module and those under construction go by these names, besides that of the
top-level statements. -/
def State.Named (st : State) (links : List String) : Prop :=
  st.functionNames.Perm (initName :: links)

/-- One more function. -/
theorem State.Named.push {links : List String} (h : st.Named links) {name : String}
    (hperm : st'.functionNames.Perm (name :: st.functionNames)) : st'.Named (links ++ [name]) := by
  have hswap : (name :: initName :: links).Perm (initName :: (links ++ [name])) :=
    (List.Perm.swap _ _ _).trans ((List.perm_append_singleton _ _).symm.cons _)
  exact (hperm.trans (h.cons name)).trans hswap

/-- A free name depends on which names are taken, not on their order. -/
theorem freeName_perm {taken taken' : List String} (h : taken.Perm taken') (base : String) :
    freeName taken base = freeName taken' base := by
  simp [freeName, h.length_eq, h.mem_iff]

theorem LoweredSig.Of.link {sig : Signature} {low : LoweredSig} (hlow : low.Of sig st)
    {links : List String} (h : st.Named links) : low.name = sig.link links := by
  rw [hlow.name, freeName_perm h]
  rfl

/-- How a step may get from one state to another: with `new` names, and with functions that make
`links` into `links'`. -/
structure Passes (links links' : List String) (new : List (Binding Handle)) (st st' : State) :
    Prop where
  id : st'.current.id = st.current.id
  name : st'.current.name = st.current.name
  params : st'.current.params = st.current.params
  ret : st'.current.ret = st.current.ret
  enclosing : st'.enclosing = st.enclosing
  nextId : st.nextId ≤ st'.nextId
  funcs : st.module.funcs <+: st'.module.funcs
  names : st.names.Extends st'.names new
  named : st.Named links → st'.Named links'

section Passing

variable {links links₁ links' : List String} {new new₁ : List (Binding Handle)} {label : String}
  {s : Span} {u : Unit} {name : Ident} {sig : Signature} {low : LoweredSig} {join no : Ir.BlockId}
  {cond : Expr}

theorem Passes.refl (links : List String) (st : State) : Passes links links [] st st where
  id := rfl
  name := rfl
  params := rfl
  ret := rfl
  enclosing := rfl
  nextId := Nat.le_refl _
  funcs := List.prefix_rfl
  names := .refl _
  named := fun h => h

theorem Passes.trans (h : Passes links links₁ new st st₁) (h' : Passes links₁ links' new₁ st₁ st') :
    Passes links links' (new₁ ++ new) st st' where
  id := h'.id.trans h.id
  name := h'.name.trans h.name
  params := h'.params.trans h.params
  ret := h'.ret.trans h.ret
  enclosing := h'.enclosing.trans h.enclosing
  nextId := Nat.le_trans h.nextId h'.nextId
  funcs := h.funcs.trans h'.funcs
  names := h.names.trans h'.names
  named := fun hn => h'.named (h.named hn)

theorem Passes.ofBuilder {b : Ir.Builder} (hid : b.id = st.current.id)
    (hname : b.name = st.current.name) (hparams : b.params = st.current.params)
    (hret : b.ret = st.current.ret) : Passes links links [] st { st with current := b } :=
  { Passes.refl links st with
    id := hid
    name := hname
    params := hparams
    ret := hret
    named := fun h => by simpa [State.Named, State.functionNames, hname] using h }

theorem Extending.passes {act : LowerM α} (h : Extending act) {a : α} (hrun : Runs act st a st') :
    Passes links links [] st st' ∧
      (st.current.isTerminated = false → st.current.Grows st'.current) := by
  obtain ⟨code, rfl⟩ := h st a st' hrun
  exact ⟨.ofBuilder rfl rfl rfl rfl, fun ho => .extend ho code⟩

theorem terminate_passes {t : Ir.Terminator} (h : Runs (terminate t) st () st') :
    Passes links links [] st st' ∧ st.current.Grows st'.current := by
  obtain rfl := runs_terminate.mp h
  exact ⟨.ofBuilder rfl rfl rfl rfl, .terminate _ _⟩

theorem startBlock_passes {id : Ir.BlockId} (h : Runs (startBlock id label) st () st') :
    Passes links links [] st st' ∧ st.current.Grows st'.current := by
  obtain rfl := runs_startBlock.mp h
  exact ⟨.ofBuilder rfl rfl rfl rfl, .startBlock _ _ _⟩

theorem Passes.leave (h : Passes links links' new { st with names := st.names.enter } st₁)
    {outer : ScopeTable Handle} (hleave : st₁.names.leave? = some outer) :
    Passes links links' [] st { st₁ with names := outer } :=
  { h with names := h.names.leave hleave, named := fun hn => h.named hn }

theorem Passes.bindAll (links : List String) (st : State) (bs : List (Binding Handle)) :
    Passes links links bs.reverse st { st with names := st.names.addAll bs } :=
  { Passes.refl links st with names := .addAll _ _, named := fun hn => hn }

/-- Every run of `act` passes and keeps the blocks there are. -/
def Advances (links links' : List String) (act : LowerM Unit) : Prop :=
  ∀ st st', Runs act st () st' →
    ∃ new, Passes links links' new st st' ∧ st.current.Grows st'.current

theorem Advances.inScope {act : LowerM Unit} (h : Advances links links' act)
    (hrun : Runs (inScope s act) st () st') :
    Passes links links' [] st st' ∧ st.current.Grows st'.current := by
  obtain ⟨st₁, outer, hact, hleave, rfl⟩ := within_inv hrun
  obtain ⟨new, hp, hg⟩ := h _ _ hact
  exact ⟨hp.leave hleave, hg⟩

theorem reopen_inv (h : Runs reopen st u st') :
    st.current.isTerminated = true ∧ st' = { st with
      current := st.current.freshBlock.2.startBlock st.current.freshBlock.1 "dead" } ∨
    st.current.isTerminated = false ∧ st' = st := by
  have hif := runs_get_bind.mp h
  split at hif
  · rename_i hterm
    obtain ⟨id, st₁, hfresh, hstart⟩ := runs_bind.mp hif
    obtain ⟨rfl, rfl⟩ := runs_freshBlock.mp hfresh
    exact .inl ⟨hterm, runs_startBlock.mp hstart⟩
  · rename_i hterm
    exact .inr ⟨by simpa using hterm, (runs_pure.mp hif).2⟩

theorem reopen_advances (hrun : Runs reopen st () st') :
    Passes links links [] st st' ∧ st.current.Grows st'.current ∧
      st'.current.isTerminated = false := by
  obtain ⟨-, rfl⟩ | ⟨hopen, rfl⟩ := reopen_inv hrun
  · exact ⟨.ofBuilder rfl rfl rfl rfl, (Ir.Builder.Grows.freshBlock _).trans (.startBlock _ _ _),
      rfl⟩
  · exact ⟨.refl _ _, .refl _, hopen⟩

/-- A cell with a first value. -/
def newCell (t : Ir.Ty) (init : Option Expr) : LowerM Ir.Reg := do
  let ptr ← emitReg (.alloca t)
  init.forM (storeAs ptr t)
  return ptr

theorem newCell_extending (t : Ir.Ty) (init : Option Expr) : Extending (newCell t init) := by
  have h := emitting_extending
  refine h.bind (h.emitReg _) fun ptr => h.bind ?_ fun _ => h.pure _
  cases init with
  | none => exact h.pure _
  | some e => exact h.tallying.storeAs ptr t e

theorem variable_inv {ty : Ty} {init : Option Expr} (h : Runs (variable_ name ty init) st u st') :
    ∃ t ptr st₁, ty.lower st.names = .ok t ∧ Runs (newCell t init) st ptr st₁ ∧
      st' = { st₁ with
        names := st₁.names.add (.plain name.name ty (.slot ptr t st₁.current.id)) } := by
  obtain ⟨t, st₁, hty, h₁⟩ := runs_bind.mp h
  obtain ⟨hty, rfl⟩ := runs_lowerType.mp hty
  obtain ⟨ptr, st₂, hptr, h₂⟩ := runs_bind.mp h₁
  obtain ⟨_, st₃, hstore, h₃⟩ := runs_bind.mp h₂
  have hcell : Runs (newCell t init) st₁ ptr st₃ :=
    runs_bind.mpr ⟨ptr, st₂, hptr, runs_bind.mpr ⟨(), st₃, hstore, runs_pure.mpr ⟨rfl, rfl⟩⟩⟩
  exact ⟨t, ptr, st₃, hty, hcell, runs_bindName.mp (runs_get_bind.mp h₃)⟩

theorem variable_names {ty : Ty} {init : Option Expr}
    (h : Runs (variable_ name ty init) st () st') :
    ∃ ptr t, Passes links links [.plain name.name ty (.slot ptr t st.current.id)] st st' ∧
      (st.current.isTerminated = false → st.current.Grows st'.current) := by
  obtain ⟨t, ptr, st₁, -, hcell, rfl⟩ := variable_inv h
  obtain ⟨code, rfl⟩ := newCell_extending t init _ _ _ hcell
  exact ⟨ptr, t, { Passes.ofBuilder rfl rfl rfl rfl with names := .add _ _ },
    fun ho => .extend ho _⟩

theorem return_inv {e : Option Expr} (h : Runs (return_ e) st u st') :
    ∃ r st₁, Runs (returned e) st r st₁ ∧
      st' = { st₁ with current := st₁.current.terminate (.ret r) } := by
  obtain ⟨r, st₁, hr, hterm⟩ := runs_bind.mp h
  exact ⟨r, st₁, hr, runs_terminate.mp hterm⟩

theorem return_passes {e : Option Expr} (h : Runs (return_ e) st () st') :
    Passes links links [] st st' ∧
      (st.current.isTerminated = false → st.current.Grows st'.current) := by
  obtain ⟨r, st₁, hr, rfl⟩ := return_inv h
  obtain ⟨code, rfl⟩ := emitting_extending.tallying.returned e _ _ _ hr
  exact ⟨.ofBuilder rfl rfl rfl rfl,
    fun ho => (Ir.Builder.Grows.extend ho code).trans (.terminate _ _)⟩

/-- A struct binds its own name over that of the scope of its members. -/
theorem struct_names {members : List Param} (h : Runs (struct_ name members s) st () st') :
    ∃ fields, List.Forall₂ (fun m f => f.1 = m.name.name ∧ m.ty.lower st.names = .ok f.2)
        members fields ∧
      Passes links links
        [⟨name.name, .struct name.name 0, .none, some st.names.size,
            .struct (Ir.Layout.mk name.name fields).ty⟩,
          ⟨membersMarker name.name, .prim .scope 0, .none, some st.names.size, .marker⟩] st st' ∧
      st'.current = st.current ∧ st'.module.funcs = st.module.funcs := by
  obtain ⟨fields, outer, hfields, hleave, rfl⟩ := struct_inv h
  have hext := (ScopeTable.Extends.add st.names _).trans ((ScopeTable.Extends.addAll
    (st.names.enterMarked (membersMarker name.name) .marker) _).leave hleave)
  exact ⟨fields, hfields,
    { Passes.refl links st with names := hext.trans (.add _ _), named := fun hn => hn }, rfl, rfl⟩

/-- A function of its own takes the next name. -/
theorem State.Named.enterFunction (h : st.Named links) (hlow : low.Of sig st) :
    (st.enterFunction sig low).Named (links ++ [sig.link links]) := by
  rw [← hlow.link h]
  exact h.push List.perm_middle

/-- It gives the name back with those of the functions in it. -/
theorem Passes.leaveFunction (hlow : low.Of sig st)
    (h : Passes (links ++ [sig.link links]) links' [] (st.enterFunction sig low) st₁) :
    Passes links links' [low.binding sig false] st (st.leaveFunction st₁) where
  id := rfl
  name := rfl
  params := rfl
  ret := rfl
  enclosing := rfl
  nextId := Nat.le_of_succ_le h.nextId
  funcs := h.funcs.trans (List.prefix_append _ _)
  names := (ScopeTable.Extends.add st.names _).trans h.names
  named := by
    intro hn
    refine List.Perm.trans ?_ (h.named (hn.enterFunction hlow))
    simp only [State.functionNames, State.leaveFunction, Ir.Module.addFunc, h.enclosing,
      State.enterFunction, List.map_append, List.map_cons, List.map_nil, List.append_assoc]
    rfl

/-- The state in which the statements of a body are lowered. -/
def State.enterBody (st : State) (sig : Signature) (low : LoweredSig) : State :=
  { st.enterFunction sig low with
    names := (st.enterFunction sig low).names.enter.addAll
      (paramBindings sig.params low.params st.nextId) }

theorem State.visible_enterBody (hin : st.names.current < st.names.size) :
    (st.enterBody sig low).names.visible =
      (paramBindings sig.params low.params st.nextId).reverse ++
        low.binding sig false :: st.names.visible := by
  have hparams : (st.enterBody sig low).names.visible = _ :=
    (ScopeTable.Extends.addAll _ _).visible (by simp)
  have henter : (st.enterFunction sig low).names.enter.visible = _ :=
    ScopeTable.visible_enter _ (by simpa [State.enterFunction] using hin)
  have hadd : (st.enterFunction sig low).names.visible = _ := ScopeTable.visible_add _ _ hin
  rw [hparams, henter, hadd]

theorem State.enterBody_inside :
    (st.enterBody sig low).names.current < (st.enterBody sig low).names.size :=
  (ScopeTable.Extends.addAll _ _).current_lt (by simp)

/-- A body is lowered as a function of its own, with its parameters bound. -/
theorem fnDef_body {body : List Stmt}
    (hbody : Advances (links ++ [sig.link links]) links' (stmts body))
    (h : Runs (stmt (.fnDef sig body s)) st () st') :
    ∃ (low : LoweredSig) (st₁ : State) (outer : ScopeTable Handle), low.Of sig st ∧
      Runs (stmts body) (st.enterBody sig low) () st₁ ∧
      Passes (links ++ [sig.link links]) links' [] (st.enterFunction sig low)
        { st₁ with names := outer } ∧
      st' = st.leaveFunction { st₁ with names := outer } := by
  obtain ⟨low, st₁, outer, hlow, hrun, hleave, rfl⟩ := fnDef_inv h
  obtain ⟨new, hp, -⟩ := hbody _ _ hrun
  have hparams := Passes.bindAll (links ++ [sig.link links])
    { st.enterFunction sig low with names := (st.enterFunction sig low).names.enter }
    (paramBindings sig.params low.params st.nextId)
  exact ⟨low, st₁, outer, hlow, hrun, (hparams.trans hp).leave hleave, rfl⟩

theorem fnDecl_names (h : Runs (stmt (.fnDecl sig s)) st () st') :
    ∃ low : LoweredSig, low.Of sig st ∧
      Passes links (links ++ [sig.link links]) [low.binding sig true] st st' ∧
      st'.current = st.current ∧ st'.module.funcs =
        st.module.funcs ++ [.external low.name low.params low.ret sig.variadic] := by
  obtain ⟨low, hlow, rfl⟩ := fnDecl_inv h
  refine ⟨low, hlow, { Passes.refl links st with
    funcs := List.prefix_append _ _, names := .add _ _, named := fun hn => ?_ }, rfl, rfl⟩
  rw [← hlow.link hn]
  refine hn.push ?_
  simp only [State.functionNames, Ir.Module.addFunc, Ir.Func.external, List.map_append,
    List.map_cons, List.map_nil, List.append_assoc]
  exact List.perm_middle

theorem openIf_inv (h : Runs openIf st join st') :
    ∃ first n, st' = { st with current := st.current.branch (.br first) n first "if.cond" } := by
  obtain ⟨id, st₁, hjoin, h₁⟩ := runs_bind.mp h
  obtain ⟨-, rfl⟩ := runs_freshBlock.mp hjoin
  obtain ⟨first, st₂, hfirst, h₂⟩ := runs_bind.mp h₁
  obtain ⟨-, rfl⟩ := runs_freshBlock.mp hfirst
  obtain ⟨_, st₃, hterm, h₃⟩ := runs_bind.mp h₂
  obtain rfl := runs_terminate.mp hterm
  obtain ⟨_, st₄, hstart, h₄⟩ := runs_bind.mp h₃
  obtain rfl := runs_startBlock.mp hstart
  obtain ⟨-, rfl⟩ := runs_pure.mp h₄
  exact ⟨first, _, rfl⟩

theorem openArm_inv {more : Bool} (h : Runs (openArm join label cond more) st no st') :
    ∃ v st₁ c st₂ yes n, Runs (value cond) st v st₁ ∧ Runs (truthy v cond.span) st₁ c st₂ ∧
      (more = false → no = join) ∧
      st' = { st₂ with current := st₂.current.branch (.condBr c.reg yes no) n yes label } := by
  obtain ⟨v, st₁, hv, h₁⟩ := runs_bind.mp h
  obtain ⟨c, st₂, hc, h₂⟩ := runs_bind.mp h₁
  obtain ⟨yes, st₃, hyes, h₃⟩ := runs_bind.mp h₂
  obtain ⟨-, rfl⟩ := runs_freshBlock.mp hyes
  obtain ⟨no', st₄, hno, h₄⟩ := runs_bind.mp h₃
  obtain ⟨_, st₅, hterm, h₅⟩ := runs_bind.mp h₄
  obtain rfl := runs_terminate.mp hterm
  obtain ⟨_, st₆, hstart, h₆⟩ := runs_bind.mp h₅
  obtain rfl := runs_startBlock.mp hstart
  obtain ⟨rfl, rfl⟩ := runs_pure.mp h₆
  cases more with
  | false =>
    obtain ⟨rfl, rfl⟩ := runs_pure.mp hno
    exact ⟨v, st₁, c, st₂, yes, _, hv, hc, fun _ => rfl, rfl⟩
  | true =>
    obtain ⟨-, rfl⟩ := runs_freshBlock.mp hno
    exact ⟨v, st₁, c, st₂, yes, _, hv, hc, nofun, rfl⟩

theorem Passes.branch (t : Ir.Terminator) (n : Nat) (id : Ir.BlockId) (label : String) :
    Passes links links [] st { st with current := st.current.branch t n id label } :=
  .ofBuilder rfl rfl rfl rfl

theorem openIf_passes (h : Runs openIf st join st') :
    Passes links links [] st st' ∧ st.current.Grows st'.current ∧
      st'.current.isTerminated = false := by
  obtain ⟨first, n, rfl⟩ := openIf_inv h
  exact ⟨.branch _ _ _ _, (Ir.Builder.Grows.terminate _ _).trans (.branch _ _ _ _ _), rfl⟩

theorem openArm_passes {more : Bool} (h : Runs (openArm join label cond more) st no st') :
    Passes links links [] st st' ∧
      (st.current.isTerminated = false → st.current.Grows st'.current) := by
  obtain ⟨v, st₁, c, st₂, yes, n, hv, hc, -, rfl⟩ := openArm_inv h
  obtain ⟨is, rfl⟩ := emitting_extending.tallying.value cond _ _ _ hv
  obtain ⟨js, rfl⟩ := emitting_extending.computing.truthy _ _ _ hc
  rw [State.extend_extend]
  refine ⟨.ofBuilder rfl rfl rfl rfl, fun ho => ?_⟩
  exact (Ir.Builder.Grows.extend ho (is ++ js)).trans
    ((Ir.Builder.Grows.terminate _ _).trans (.branch _ _ _ _ _))

/-- What is not there declares nothing. -/
theorem alternative_none (a : Alternative) (links : List String) (s : Span) (join : Ir.BlockId)
    (h : alternative s join a = none) : links = a.declared links := by
  obtain rfl := eq_none_of_alternative h
  rfl

/-- Runs of `act`, which is given the block to start with. -/
def AdvancesFrom (links links' : List String) (act : Ir.BlockId → LowerM Unit) : Prop :=
  ∀ here st st', Runs (act here) st () st' →
    Passes links links' [] st st' ∧ st.current.Grows st'.current

theorem arm_passes {body : LowerM Unit} {otherwise : Option (Ir.BlockId → LowerM Unit)}
    (hbody : Advances links links₁ body)
      (hother : ∀ act ∈ otherwise, AdvancesFrom links₁ links' act)
    (hnone : otherwise = none → links₁ = links')
    (h : Runs (arm join label cond (inScope s body) otherwise) st () st')
    (ho : st.current.isTerminated = false) :
    Passes links links' [] st st' ∧ st.current.Grows st'.current := by
  obtain ⟨no, st₁, hopen, h₁⟩ := runs_bind.mp h
  obtain ⟨hp₁, hg₁⟩ : Passes links links [] st st₁ ∧ _ := openArm_passes hopen
  obtain ⟨_, st₂, hrun, h₂⟩ := runs_bind.mp h₁
  obtain ⟨hp₂, hg₂⟩ := hbody.inScope hrun
  obtain ⟨_, st₃, hterm, h₃⟩ := runs_bind.mp h₂
  obtain ⟨hp₃, hg₃⟩ : Passes links₁ links₁ [] st₂ st₃ ∧ _ := terminate_passes hterm
  have hp := (hp₁.trans hp₂).trans hp₃
  have hg := ((hg₁ ho).trans hg₂).trans hg₃
  cases otherwise with
  | none =>
    obtain ⟨-, rfl⟩ := runs_pure.mp h₃
    exact ⟨hnone rfl ▸ hp, hg⟩
  | some act =>
    obtain ⟨hp₄, hg₄⟩ := hother act rfl no _ _ h₃
    exact ⟨hp.trans hp₄, hg.trans hg₄⟩

theorem if_passes {body : List Stmt} {otherwise : Alternative}
    (hbody : Advances links links₁ (stmts body))
    (hother : ∀ join, ∀ act ∈ alternative s join otherwise, AdvancesFrom links₁ links' act)
    (hnone : ∀ join, alternative s join otherwise = none → links₁ = links')
    (h : Runs (stmt (.if_ cond body otherwise s)) st () st') :
    Passes links links' [] st st' ∧ st.current.Grows st'.current := by
  unfold stmt at h
  obtain ⟨join, st₁, hopen, h₁⟩ := runs_bind.mp h
  obtain ⟨hp₁, hg₁, ho⟩ : Passes links links [] st st₁ ∧ _ := openIf_passes hopen
  obtain ⟨_, st₂, harm, hstart⟩ := runs_bind.mp h₁
  obtain ⟨hp₂, hg₂⟩ := arm_passes hbody (hother join) (hnone join) harm ho
  obtain ⟨hp₃, hg₃⟩ : Passes links' links' [] st₂ st' ∧ _ := startBlock_passes hstart
  exact ⟨(hp₁.trans hp₂).trans hp₃, (hg₁.trans hg₂).trans hg₃⟩

end Passing

mutual

theorem stmt_passes (s : Stmt) (links : List String) {st st' : State}
    (h : Runs (stmt s) st () st') : ∃ new, Passes links (s.declared links) new st st' ∧
      (st.current.isTerminated = false → st.current.Grows st'.current) := by
  match s with
  | .varDef name ty init s =>
    unfold stmt at h
    obtain ⟨ptr, t, h⟩ := variable_names h
    exact ⟨_, h⟩
  | .structDef name members s =>
    unfold stmt at h
    obtain ⟨fields, -, hp, hc, -⟩ := struct_names h
    exact ⟨_, hp, fun _ => hc ▸ .refl _⟩
  | .fnDef sig body s =>
    obtain ⟨low, st₁, outer, hlow, -, hp, rfl⟩ := fnDef_body (fun _ _ => stmts_passes body _) h
    exact ⟨_, .leaveFunction hlow hp, fun _ => .refl _⟩
  | .fnDecl sig s =>
    obtain ⟨low, -, hp, hc, -⟩ := fnDecl_names h
    exact ⟨_, hp, fun _ => hc ▸ .refl _⟩
  | .varSet target e s =>
    unfold stmt at h
    exact ⟨[], (emitting_extending.tallying.assign target e).passes h⟩
  | .memberSet target e s =>
    unfold stmt at h
    exact ⟨[], (emitting_extending.tallying.assignMember target e).passes h⟩
  | .expr e s =>
    unfold stmt at h
    exact ⟨[], (emitting_extending.tallying.effect e).passes h⟩
  | .return_ e s =>
    unfold stmt at h
    exact ⟨[], return_passes h⟩
  | .break_ s | .for_ cond body s =>
    unfold stmt at h
    exact absurd h not_runs_unsupported
  | .if_ cond body otherwise s =>
    obtain ⟨hp, hg⟩ := if_passes (fun _ _ => stmts_passes body links)
      (alternative_passes otherwise _ s) (alternative_none otherwise _ s) h
    exact ⟨[], hp, fun _ => hg⟩
  | .block body s =>
    unfold stmt at h
    obtain ⟨hp, hg⟩ := Advances.inScope (fun _ _ => stmts_passes body links) h
    exact ⟨[], hp, fun _ => hg⟩

theorem alternative_passes (a : Alternative) (links : List String) (s : Span) (join : Ir.BlockId) :
    ∀ act ∈ alternative s join a, AdvancesFrom links (a.declared links) act := by
  match a with
  | .none =>
    unfold alternative
    simp
  | .else_ body =>
    unfold alternative
    rintro _ ⟨⟩ here st st' h
    obtain ⟨_, st₁, hstart, h₁⟩ := runs_bind.mp h
    obtain ⟨hp₁, hg₁⟩ : Passes links links [] st st₁ ∧ _ := startBlock_passes hstart
    obtain ⟨_, st₂, hrun, hterm⟩ := runs_bind.mp h₁
    obtain ⟨hp₂, hg₂⟩ := Advances.inScope (fun _ _ => stmts_passes body links) hrun
    obtain ⟨hp₃, hg₃⟩ : Passes (declaredIn links body) (declaredIn links body) [] st₂ st' ∧ _ :=
      terminate_passes hterm
    exact ⟨(hp₁.trans hp₂).trans hp₃, (hg₁.trans hg₂).trans hg₃⟩
  | .elif cond body otherwise =>
    unfold alternative
    rintro _ ⟨⟩ here st st' h
    obtain ⟨_, st₁, hstart, harm⟩ := runs_bind.mp h
    obtain ⟨hp₁, hg₁⟩ : Passes links links [] st st₁ ∧ _ := startBlock_passes hstart
    have ho : st₁.current.isTerminated = false := by
      obtain rfl := runs_startBlock.mp hstart
      rfl
    obtain ⟨hp₂, hg₂⟩ := arm_passes (fun _ _ => stmts_passes body links)
      (alternative_passes otherwise _ s join) (alternative_none otherwise _ s join) harm ho
    exact ⟨hp₁.trans hp₂, hg₁.trans hg₂⟩

theorem stmts_passes (ss : List Stmt) (links : List String) {st st' : State}
    (h : Runs (stmts ss) st () st') :
    ∃ new, Passes links (declaredIn links ss) new st st' ∧ st.current.Grows st'.current := by
  match ss with
  | [] =>
    unfold stmts at h
    obtain ⟨-, rfl⟩ := runs_pure.mp h
    exact ⟨[], .refl _ _, .refl _⟩
  | s :: ss =>
    unfold stmts at h
    obtain ⟨_, st₁, hopen, h₁⟩ := runs_bind.mp h
    obtain ⟨hp₁, hg₁, ho⟩ : Passes links links [] st st₁ ∧ _ := reopen_advances hopen
    obtain ⟨_, st₂, hs, hss⟩ := runs_bind.mp h₁
    obtain ⟨new, hp₂, hg₂⟩ := stmt_passes s links hs
    obtain ⟨new', hp₃, hg₃⟩ := stmts_passes ss _ hss
    exact ⟨_, (hp₁.trans hp₂).trans hp₃, (hg₁.trans (hg₂ ho)).trans hg₃⟩

end

end Lowering

end Frontend
