import Frontend.Proofs.Computation
import Frontend.Proofs.WellFormed

/-!
Lowered statements do what they mean. The machine stands where the function under construction ends
so far, in the function that it becomes; where the source goes on, the machine comes to where the
statement's code ends, and where the source returns, the machine halts with what is returned.
-/
namespace Frontend

open Ir (Memory Config Reaches Halts execAll)

variable {F : Type} {W : World F} {m : Ir.Module} {f : Ir.Func} {t : Ir.Ty}

namespace Ir.Builder

/-- All blocks of `b` are in `f`, where no two blocks have one number. -/
structure Within (b : Builder) (f : Func) : Prop where
  grows : ∃ b', b.Grows b' ∧ b'.finish = f
  distinct : (f.blocks.map (·.id)).Nodup

theorem Within.of_grows {b b' : Builder} (hg : b.Grows b') (h : b'.Within f) : b.Within f := by
  obtain ⟨⟨b'', hg', hf⟩, hd⟩ := h
  exact ⟨⟨b'', hg.trans hg', hf⟩, hd⟩

/-- Where the next instruction goes. -/
def point (b : Builder) (mem : Memory F) : Config F := ⟨b.block.id, b.block.instrs.length, mem⟩

/-- The block that the current one becomes. -/
theorem Within.block {b : Builder} (h : b.Within f) :
    ∃ b₁, f.block? b.block.id = some b₁ ∧ b₁.id = b.block.id ∧ b.block.instrs <+: b₁.instrs ∧
      (b.isTerminated = true → b₁ = b.block) := by
  obtain ⟨⟨b', hg, rfl⟩, hd⟩ := h
  obtain ⟨b₁, hb₁, hbecomes⟩ := hg.block
  have hmem : b₁.terminate (fallback b'.ret) ∈ b'.finish.blocks := List.mem_map_of_mem hb₁
  have hfind := Func.block?_of_mem hd hmem
  refine ⟨b₁.terminate (fallback b'.ret), hbecomes.id ▸ hfind, hbecomes.id, hbecomes.instrs,
    fun ht => ?_⟩
  obtain rfl := hbecomes.done ht
  exact Block.terminate_of_isSome ht _

/-- Code that was added to the current block runs through. -/
theorem Within.code {b : Builder} {code : List Instr} (h : (b.extend code).Within f)
    {mem mem' : Memory F} (hx : execAll W m code mem = some mem') :
    Reaches W m f (b.point mem) ((b.extend code).point mem') := by
  obtain ⟨b₁, hfind, hid, hinstrs, -⟩ := h.block
  rw [← hid] at hfind
  have hr := Ir.reaches_code hfind hinstrs hx
  rw [hid] at hr
  exact hr

/-- The terminator that an open block was given is what leaves it. -/
theorem Within.terminator {b : Builder} {t : Terminator} (h : (b.terminate t).Within f)
    (ho : b.isTerminated = false) (mem : Memory F) : Ir.step W m f (b.point mem) = t.exec mem := by
  obtain ⟨b₁, hfind, -, -, hdone⟩ := h.block
  obtain rfl := hdone rfl
  have hnone : b.block.terminator = none := by simpa [isTerminated] using ho
  refine Ir.step_terminator hfind ?_ mem
  simp [terminate, Block.terminate, hnone]

end Ir.Builder

/-- Addresses are no scalars. -/
theorem Ir.Ty.isScalar_ptrs {n : Nat} (h : (t.ptrs n).IsScalar) : n = 0 ∧ t.IsScalar := by
  cases n with
  | zero => exact ⟨rfl, h⟩
  | succ n => simp [Ir.Ty.ptrs, Ir.Ty.IsScalar, Ir.Ty.width?, Ir.Ty.isFloat] at h

theorem Ir.Ty.not_isScalar_of_isAggregate (h : t.isAggregate = true) : ¬ t.IsScalar := by
  cases t <;> simp_all [Ir.Ty.isAggregate, Ir.Ty.IsScalar, Ir.Ty.width?, Ir.Ty.isFloat]

/-- The layout of a struct is no scalar. -/
theorem ScopeTable.LaidOut.layout? {names : ScopeTable Handle} (hn : names.LaidOut) {s : String}
    (h : names.layout? s = some t) : ¬ t.IsScalar :=
  Ir.Ty.not_isScalar_of_isAggregate (hn.isAggregate h)

/-- Nothing but a scalar is lowered to one. -/
theorem Ty.lower_reflects {names : ScopeTable Handle} (hn : names.LaidOut) {ty : Ty}
    (h : ty.lower names = .ok t) : ty.Reflects t := by
  intro hs
  cases ty with
  | prim p n =>
    unfold Ty.lower at h
    split at h
    · rename_i t₀ hp
      obtain rfl := Except.ok.inj h
      obtain ⟨hzero, hs₀⟩ := Ir.Ty.isScalar_ptrs hs
      have hle : n ≤ 0 := Int.toNat_eq_zero.mp hzero
      rw [hzero, Ir.Ty.ptrs]
      cases p <;> simp_all [Prim.lower?, Ty.scalar?, Prim.scalar?] <;> subst hp <;>
        simp [Ir.Ty.IsScalar, Ir.Ty.width?, Ir.Ty.isFloat] at hs₀
    · cases h
  | struct s n | inst s n =>
    unfold Ty.lower at h
    split at h
    · rename_i t₀ hlayout
      obtain rfl := Except.ok.inj h
      exact absurd (Ir.Ty.isScalar_ptrs hs).2 (hn.layout? hlayout)
    · cases h
  | fn ret n =>
    obtain ⟨r, -, hr⟩ := bind_eq_ok.mp h
    obtain rfl := Except.ok.inj hr
    exact absurd (Ir.Ty.isScalar_ptrs hs).2
      (by simp [Ir.Ty.IsScalar, Ir.Ty.width?, Ir.Ty.isFloat])

namespace Lowering

variable {st st' : State} {links links' : List String} {mem : Memory F}

/-- A function is bound under its name once it is in the module. -/
theorem LoweredSig.Of.stands {sig : Signature} {low : LoweredSig} (hlow : low.Of sig st)
    (hn : st.names.LaidOut) (hlinks : st.Named links) (hu : (m.funcs.map (·.name)).Nodup)
      {g : Ir.Func}
    (hg : g ∈ m.funcs) (hname : g.name = low.name) (hret : g.ret = low.ret) (isExternal : Bool) :
    (sig.routine links).Stands m (low.binding sig isExternal) := by
  have hlink : low.name = sig.link links := hlow.link hlinks
  have hfind := Ir.Module.func?_of_mem hu hg
  rw [hname, hlink] at hfind
  refine ⟨low.params, low.ret, by rw [← show low.name = (sig.routine links).link from hlink]; rfl,
    rfl, ?_, fun t ht => Ty.lower_scalar? ht hlow.ret, g, hfind, hret⟩
  refine List.forall₂_map_left_iff.mpr (hlow.params.imp fun p t h => ?_)
  obtain ⟨ty, hty, rfl⟩ := h
  split
  · exact fun hs => by simp [Ir.Ty.IsScalar, Ir.Ty.width?, Ir.Ty.isFloat] at hs
  · exact Ty.lower_reflects hn hty

/-- The function under construction becomes `f`, and the functions of the module are in `m`, where
no two functions have one name. -/
structure Final (m : Ir.Module) (f : Ir.Func) (st : State) : Prop where
  within : st.current.Within f
  funcs : st.module.funcs ⊆ m.funcs
  unique : (m.funcs.map (·.name)).Nodup

theorem Final.back {new : List (Binding Handle)} (hp : Passes links links' new st st')
    (hg : st.current.Grows st'.current) (h : Final m f st') : Final m f st :=
  ⟨h.within.of_grows hg, List.Subset.trans hp.funcs.subset h.funcs, h.unique⟩

/-- What holds while a function that returns a `ret` is lowered and its code is run. -/
structure Placed (m : Ir.Module) (ret : Ty) (links : List String) (env : Env F) (st : State)
    (mem : Memory F) : Prop where
  holds : Holds m env st mem
  named : st.Named links
  inside : st.names.current < st.names.size
  returns : ret.Reflects st.current.ret

/-- What holds before a statement. -/
structure Standing (m : Ir.Module) (ret : Ty) (links : List String) (env : Env F) (st : State)
    (mem : Memory F) : Prop extends Placed m ret links env st mem where
  isOpen : st.current.isTerminated = false

/-- No names were added, and the memory is a later one. -/
theorem Placed.passes {ret : Ty} {env : Env F} {mem' : Memory F} (h : Placed m ret links env st mem)
    (hp : Passes links links' [] st st') (hle : mem.Le mem') (hb : mem'.Below st'.current.nextReg) :
    Placed m ret links' env st' mem' :=
  ⟨h.holds.mono hle hb hp.id (hp.names.visible h.inside), hp.named h.named,
    hp.names.current_lt h.inside, hp.ret ▸ h.returns⟩

theorem Standing.next {ret : Ty} {links links' : List String} {new : List (Binding Handle)}
    {env env' : Env F} {st st' : State} {mem mem' : Memory F}
    (h : Standing m ret links env st mem) (hp : Passes links links' new st st')
    (hh : Holds m env' st' mem') (ho : st'.current.isTerminated = false) :
    Standing m ret links' env' st' mem' :=
  ⟨⟨hh, hp.named h.named, hp.names.current_lt h.inside, hp.ret ▸ h.returns⟩, ho⟩

/-- The source comes to `x` by the statements that lead from `st` to `st'`, and the machine follows:
it comes to where their code ends, in a memory where the names then known have what they stand for,
or it halts. -/
def Simulates (W : World F) (m : Ir.Module) (f : Ir.Func) (P : Env F → Prop) (st : State)
    (mem : Memory F) (st' : State) (x : Option (Flow F × Store F)) : Prop :=
  (∃ env mem', x = some (.next env, mem'.store) ∧ P env ∧
    Reaches W m f (st.current.point mem) (st'.current.point mem') ∧
    st'.current.isTerminated = false ∧ Holds m env st' mem' ∧ mem.Le mem') ∨
  (∃ v σ, x = some (.returned v, σ) ∧
    Halts W m f (st.current.point mem) (.returned v, σ.calls))

theorem Simulates.mono {P Q : Env F → Prop} {x : Option (Flow F × Store F)}
    (h : Simulates W m f P st mem st' x) (hpq : ∀ env, P env → Q env) :
    Simulates W m f Q st mem st' x := by
  obtain ⟨env, mem', hx, hP, h⟩ | h := h
  · exact .inl ⟨env, mem', hx, hpq env hP, h⟩
  · exact .inr h

/-- Code that lowering adds to an open block. -/
theorem Computes.reaches {env : Env F} {act : LowerM α} {Q : α → Memory F → Prop}
    (hc : Computes W m act st mem Q) (hh : Holds m env st mem) {a : α} (hrun : Runs act st a st')
    (hw : st'.current.Within f) :
    ∃ mem', Reaches W m f (st.current.point mem) (st'.current.point mem') ∧ Holds m env st' mem' ∧
      mem.Le mem' ∧ st'.current.isTerminated = st.current.isTerminated ∧ Q a mem' := by
  obtain ⟨code, mem', rfl, hx, hle, hb, hq⟩ := hc a st' hrun
  exact ⟨mem', hw.code hx, hh.mono hle hb rfl rfl, hle, rfl, hq⟩

section Statements

variable {ret : Ty} {links : List String} {env : Env F} {st st' : State} {mem : Memory F}
  {e cond : Expr} {s : Span} {x : Option (Flow F × Store F)} {body : List Stmt} {join : Ir.BlockId}

/-- A name is bound to what it stands for. -/
theorem Holds.bindName (h : Holds m env st mem) (hin : st.names.current < st.names.size)
    {b : Binding Handle} {e : Entity F} (he : e.Stands m st.current.id mem b) :
    Holds m ((b.name, e) :: env) { st with names := st.names.add b } mem :=
  ⟨h.below, by rw [ScopeTable.visible_add _ _ hin]; exact .cons ⟨rfl, he⟩ h.names⟩

/-- A new cell is made before the value that goes to it is computed. -/
theorem newCell_computes (hh : Holds m env st mem) {ty : Ty} {t : Ir.Ty} (ht : ty.scalar? = some t)
    {init : Option Expr} (hinit : init.all (·.isScalar env.outlook) = true) :
    Computes W m (newCell t init) st mem fun ptr mem' =>
      (mem'.regs ptr = some (.cell mem.cells.length) ∧
        ∃ v, mem'.cells[mem.cells.length]? = some v ∧ v.HasTy t) ∧
      (init.elim (some ⟨mem.cells ++ [.read t (W.fresh mem.cells.length)], mem.calls⟩) fun e =>
        e.assign W env mem.cells.length ty
          ⟨mem.cells ++ [.read t (W.fresh mem.cells.length)], mem.calls⟩) = some mem'.store := by
  have hfresh := Val.hasTy_read (Ty.isScalar_of_scalar? ht) (W.fresh mem.cells.length)
  have halloc : (Ir.Op.alloca t).eval W m mem = some (some (.cell mem.cells.length),
      { mem with cells := mem.cells ++ [.read t (W.fresh mem.cells.length)] }) := rfl
  have hle : mem.Le { mem with cells := mem.cells ++ [.read t (W.fresh mem.cells.length)] } := by
    refine ⟨fun _ _ h => h, fun k v hk => ⟨v, ?_, fun _ h => h⟩⟩
    have hlt := (List.getElem?_eq_some_iff.mp hk).1
    rwa [List.getElem?_append_left hlt]
  refine .bind hh (.emitReg hh halloc rfl hle) fun ptr st₁ mem₁ hh₁ _ _ _ h => ?_
  obtain ⟨hptr, hstore⟩ := h
  have hcells : mem₁.cells = mem.cells ++ [.read t (W.fresh mem.cells.length)] :=
    congrArg Store.cells hstore
  have hk : mem₁.cells[mem.cells.length]? = some (.read t (W.fresh mem.cells.length)) := by
    rw [hcells]
    exact List.getElem?_concat_length
  have hassign : Computes W m (init.forM (storeAs ptr t)) st₁ mem₁ fun _ mem' =>
      (init.elim (some mem₁.store) fun e => e.assign W env mem.cells.length ty mem₁.store) =
        some mem'.store := by
    cases init with
    | none => exact .pure hh₁ rfl
    | some e => exact storeAs_computes hh₁ (by simpa using hinit) ht hptr hk hfresh
  refine .bind hh₁ hassign fun _ st₂ mem₂ hh₂ hle₂ _ _ h => ?_
  obtain ⟨v, hv, hvt⟩ := hle₂.cells _ _ hk
  rw [hstore] at h
  exact .pure hh₂ ⟨⟨hle₂.regs _ _ hptr, v, hv, hvt t hfresh⟩, h⟩

/-- A variable is a new cell. -/
theorem variable_simulates {name : Ident} {ty : Ty} {init : Option Expr}
    (hs : Standing m ret links env st mem)
    (hscalar : (Stmt.varDef name ty init s).isScalar links env.outlook = true)
    (hrun : Runs (variable_ name ty init) st () st') (hf : Final m f st') :
    Simulates W m f (·.outlook = env.outlook.after links (.varDef name ty init s)) st mem st'
      ((Stmt.varDef name ty init s).exec W ret links env mem.store) := by
  obtain ⟨hty, hinit⟩ : ty.scalar?.isSome = true ∧ init.all (·.isScalar env.outlook) = true := by
    simpa [Stmt.isScalar] using hscalar
  obtain ⟨t, ht⟩ := Option.isSome_iff_exists.mp hty
  obtain ⟨t', ptr, st₁, hlow, hcell, rfl⟩ := variable_inv hrun
  obtain rfl := Ty.lower_scalar? ht hlow
  have hin : st₁.names.current < st₁.names.size := by
    obtain ⟨code, rfl⟩ := newCell_extending _ _ _ _ _ hcell
    exact hs.inside
  obtain ⟨mem₁, hreach, hh₁, hle, hopen, ⟨hptr, v, hk, hv⟩, hinitial⟩ :=
    (newCell_computes hs.holds ht hinit).reaches hs.holds hcell hf.within
  have hbound := hh₁.bindName hin (b := .plain name.name ty (.slot ptr t' st₁.current.id))
    (e := .var ty mem.cells.length) ⟨ptr, t', v, rfl, rfl, ht, hptr, hk, hv⟩
  refine .inl ⟨(name.name, .var ty mem.cells.length) :: env, mem₁, ?_, rfl, hreach,
    hopen.trans hs.isOpen, hbound, hle⟩
  simp [Stmt.exec, ht, Memory.store] at hinitial ⊢
  simp [hinitial]

/-- A statement whose code goes to the current block. -/
theorem Computes.simulates {act : LowerM Unit}
    (hc : Computes W m act st mem fun _ mem' => x = some (.next env, mem'.store))
    (hs : Standing m ret links env st mem) (hrun : Runs act st () st') (hf : Final m f st') :
    Simulates W m f (· = env) st mem st' x := by
  obtain ⟨mem', hreach, hh, hle, hopen, hx⟩ := hc.reaches hs.holds hrun hf.within
  exact .inl ⟨env, mem', hx, rfl, hreach, hopen.trans hs.isOpen, hh, hle⟩

theorem assign_simulates {target : Ident} (hs : Standing m ret links env st mem)
    (he : e.isScalar env.outlook = true) (hrun : Runs (assign target e) st () st')
      (hf : Final m f st') :
    Simulates W m f (· = env) st mem st'
      ((Stmt.varSet target e s).exec W ret links env mem.store) := by
  refine ((assign_computes hs.holds he).mono fun _ mem' h => ?_).simulates hs hrun hf
  obtain ⟨ty, k, hlook, hassign⟩ := h
  simp [Stmt.exec, hlook, hassign]

theorem effect_simulates (hs : Standing m ret links env st mem)
    (he : e.isScalarEffect env.outlook = true)
    (hrun : Runs (effect e) st () st') (hf : Final m f st') :
    Simulates W m f (· = env) st mem st' ((Stmt.expr e s).exec W ret links env mem.store) := by
  refine ((effect_computes hs.holds he).mono fun _ mem' h => ?_).simulates hs hrun hf
  simp [Stmt.exec, h]

theorem return_simulates {e : Option Expr} (hs : Standing m ret links env st mem)
    (he : e.all (·.isScalar env.outlook) = true) (hrun : Runs (return_ e) st () st')
      (hf : Final m f st') :
    Simulates W m f (· = env) st mem st' ((Stmt.return_ e s).exec W ret links env mem.store) := by
  obtain ⟨r, st₁, hr, rfl⟩ := return_inv hrun
  obtain ⟨mem', hreach, -, -, hopen, v, hx, hret⟩ :=
    (returned_computes hs.holds he hs.returns links s).reaches hs.holds hr
      (hf.within.of_grows (.terminate _ _))
  have hstep := hf.within.terminator (W := W) (m := m) (hopen.trans hs.isOpen) mem'
  rw [hret] at hstep
  exact .inr ⟨v, mem'.store, hx, hreach.halts (.step hstep)⟩

/-- A statement that does nothing but bind names. -/
theorem Passes.simulates {links' : List String} {new : List (Binding Handle)} (es : Env F)
    {P : Env F → Prop} (hP : P (es ++ env)) (hp : Passes links links' new st st')
      (hc : st'.current = st.current)
    (hs : Standing m ret links env st mem)
    (hnew : List.Forall₂ (fun e b => e.1 = b.name ∧ e.2.Stands m st.current.id mem b) es new) :
    Simulates W m f P st mem st' (some (.next (es ++ env), mem.store)) := by
  refine .inl ⟨es ++ env, mem, rfl, hP, ?_, ?_, ⟨?_, ?_⟩, .refl _⟩
  · rw [hc]
    exact .refl _
  · rw [hc]
    exact hs.isOpen
  · rw [hc]
    exact hs.holds.below
  · rw [hp.names.visible hs.inside, hc]
    exact List.rel_append hnew hs.holds.names

theorem struct_simulates {name : Ident} {members : List Param}
    (hs : Standing m ret links env st mem) (hrun : Runs (struct_ name members s) st () st') :
    Simulates W m f (·.outlook = env.outlook.after links (.structDef name members s)) st mem st'
      ((Stmt.structDef name members s).exec W ret links env mem.store) := by
  obtain ⟨fields, -, hp, hc, -⟩ : ∃ fields, _ ∧ Passes links links _ st st' ∧ _ :=
    struct_names hrun
  exact Passes.simulates [(name.name, .other), (membersMarker name.name, .other)] rfl hp hc hs
    (.cons ⟨rfl, rfl⟩ (.cons ⟨rfl, trivial⟩ .nil))

/-- Only structs are bound to the layout of one. -/
theorem Holds.laidOut (h : Holds m env st mem) : st.names.LaidOut := by
  intro b hb ty hty
  obtain ⟨⟨i, hi⟩, rfl⟩ := List.get_of_mem hb
  obtain ⟨-, hs⟩ := h.names.get (h.names.length_eq ▸ hi) hi
  generalize (env.get _).2 = e at hs
  cases e with
  | var ty k =>
    obtain ⟨ptr, t, v, hval, -⟩ := hs
    cases hty.symm.trans hval
  | param ty v =>
    obtain ⟨reg, t, hval, -⟩ := hs
    cases hty.symm.trans hval
  | fn f =>
    obtain ⟨params, ret, hval, -⟩ := hs
    cases hty.symm.trans hval
  | other =>
    have hforeign : (st.names.visible.get ⟨i, hi⟩).value.Foreign st.current.id := hs
    rwa [hty] at hforeign

theorem fnDecl_simulates {sig : Signature} (hs : Standing m ret links env st mem)
    (hrun : Runs (stmt (.fnDecl sig s)) st () st') (hf : Final m f st') :
    Simulates W m f (·.outlook = env.outlook.after links (.fnDecl sig s)) st mem st'
      ((Stmt.fnDecl sig s).exec W ret links env mem.store) := by
  obtain ⟨low, hlow, hp, hc, hadd⟩ : ∃ low, _ ∧ Passes links _ _ st st' ∧ _ := fnDecl_names hrun
  have hg := hf.funcs (hadd ▸ List.mem_append_right _ List.mem_cons_self)
  have hstands := hlow.stands hs.holds.laidOut hs.named hf.unique hg rfl rfl true
  exact Passes.simulates [(sig.name.name, .fn (sig.routine links))] rfl hp hc hs
    (.cons ⟨rfl, hstands⟩ .nil)

/-- The body of a function is lowered elsewhere. -/
theorem fnDef_simulates {sig : Signature} (hs : Standing m ret links env st mem)
    (hrun : Runs (stmt (.fnDef sig body s)) st () st') (hf : Final m f st') :
    Simulates W m f (·.outlook = env.outlook.after links (.fnDef sig body s)) st mem st'
      ((Stmt.fnDef sig body s).exec W ret links env mem.store) := by
  obtain ⟨low, st₁, outer, hlow, -, hp, rfl⟩ :=
    fnDef_body (fun _ _ => stmts_passes body (links ++ [sig.link links])) hrun
  have hg : st₁.current.finish ∈ m.funcs := hf.funcs (List.mem_append_right _ List.mem_cons_self)
  have hstands := hlow.stands hs.holds.laidOut hs.named hf.unique hg hp.name hp.ret false
  exact Passes.simulates [(sig.name.name, .fn (sig.routine links))] rfl (.leaveFunction hlow hp) rfl
    hs (.cons ⟨rfl, hstands⟩ .nil)

/-- Lowered statements do what `sem` says and leave the names as they were. -/
def Means (W : World F) (m : Ir.Module) (f : Ir.Func) (ret : Ty) (links : List String) (env : Env F)
    (act : LowerM Unit) (sem : Store F → Option (Flow F × Store F)) : Prop :=
  ∀ st mem st', Standing m ret links env st mem → Runs act st () st' → Final m f st' →
    Simulates W m f (· = env) st mem st' (sem mem.store)

/-- What is bound in a block is gone after it. -/
theorem inScope_means
    (hbody : ∀ st mem st', Standing m ret links env st mem → Runs (stmts body) st () st' →
      Final m f st' →
        Simulates W m f (fun _ => True) st mem st' (execIn W ret links env body mem.store)) :
    Means W m f ret links env (inScope s (stmts body))
      fun σ => (execIn W ret links env body σ).map (Flow.leave env) := by
  intro st mem st' hs hrun hf
  obtain ⟨st₁, outer, hact, hleave, rfl⟩ := within_inv hrun
  obtain ⟨new, hp, -⟩ := stmts_passes body links hact
  have hvis := ScopeTable.visible_enter _ hs.inside
  have henter : Standing m ret links env { st with names := st.names.enter } mem :=
    ⟨⟨hs.holds.mono (.refl _) hs.holds.below rfl hvis, hs.named, by simp, hs.returns⟩, hs.isOpen⟩
  obtain ⟨env', mem', hx, -, hreach, hopen, hh, hle⟩ | ⟨v, σ, hx, hhalt⟩ :=
    hbody _ mem st₁ henter hact ⟨hf.within, hf.funcs, hf.unique⟩
  · have hout := hs.toPlaced.passes (hp.leave hleave) hle hh.below
    exact .inl ⟨env, mem', by simp [hx, Flow.leave], rfl, hreach, hopen, hout.holds, hle⟩
  · exact .inr ⟨v, σ, by simp [hx, Flow.leave], hhalt⟩

/-- The machine comes to the block `join` where the source goes on, and it halts where the source
returns. -/
def Joins (W : World F) (m : Ir.Module) (f : Ir.Func) (join : Ir.BlockId) (env : Env F)
    (mem : Memory F) (st' : State) (c : Config F) (x : Option (Flow F × Store F)) : Prop :=
  (∃ mem', x = some (.next env, mem'.store) ∧ Reaches W m f c ⟨join, 0, mem'⟩ ∧
    mem'.Below st'.current.nextReg ∧ mem.Le mem') ∨
  (∃ v σ, x = some (.returned v, σ) ∧ Halts W m f c (.returned v, σ.calls))

theorem Joins.later {mem₁ : Memory F} {c c' : Config F} (hr : Reaches W m f c c')
    (hle : mem.Le mem₁)
    (h : Joins W m f join env mem₁ st' c' x) : Joins W m f join env mem st' c x := by
  obtain ⟨mem', hx, hr', hb, hle'⟩ | ⟨v, σ, hx, hhalt⟩ := h
  · exact .inl ⟨mem', hx, hr.trans hr', hb, hle.trans hle'⟩
  · exact .inr ⟨v, σ, hx, hr.halts hhalt⟩

/-- An arm goes on to the block where the arms meet. -/
theorem Simulates.joins {st₁ : State} (h : Simulates W m f (· = env) st mem st₁ x)
    (hw : (st₁.current.terminate (.br join)).Within f)
      (hn : st₁.current.nextReg ≤ st'.current.nextReg) :
    Joins W m f join env mem st' (st.current.point mem) x := by
  obtain ⟨_, mem', hx, rfl, hr, ho, hh, hle⟩ | h := h
  · have hstep := hw.terminator (W := W) (m := m) ho mem'
    exact .inl ⟨mem', hx, hr.trans (.step hstep), hh.below.mono hn, hle⟩
  · exact .inr h

/-- The condition of an arm decides where control goes. -/
theorem condition_computes (hh : Holds m env st mem) (hcond : cond.isScalar env.outlook = true) :
    Computes W m (value cond >>= (truthy · cond.span)) st mem fun c mem' => ∃ b : Bool,
      (∀ yes no, cond.choose W env yes no mem.store = if b then yes mem'.store else no mem'.store) ∧
      ∀ yes no, (Ir.Terminator.condBr c.reg yes no).exec mem' =
        some (.running ⟨if b then yes else no, 0, mem'⟩) := by
  refine .bind hh (value_computes cond hh hcond) fun v st₁ mem₁ hh₁ _ _ _ hv => ?_
  obtain ⟨ty, x, hv⟩ := hv
  refine (truthy_computes hh₁ hv.is).mono fun c mem' h => ?_
  obtain ⟨b, hb, -, hreg, hst⟩ := h
  refine ⟨b, fun yes no => ?_, fun yes no => ?_⟩
  · simp [Expr.choose, hv.eval, hb, hst]
  · rw [Ir.Terminator.exec, hreg]
    cases b <;> rfl

/-- What is lowered from the block `here` on does what `sem` says and goes on to `join`. -/
def MeansFrom (W : World F) (m : Ir.Module) (f : Ir.Func) (ret : Ty) (links : List String)
    (env : Env F) (join : Ir.BlockId) (act : Ir.BlockId → LowerM Unit)
    (sem : Store F → Option (Flow F × Store F)) : Prop :=
  ∀ here st mem st', Placed m ret links env st mem → Runs (act here) st () st' → Final m f st' →
    Joins W m f join env mem st' ⟨here, 0, mem⟩ (sem mem.store)

theorem Placed.startBlock (h : Placed m ret links env st mem) (id : Ir.BlockId) (label : String) :
    Standing m ret links env { st with current := st.current.startBlock id label } mem :=
  ⟨h.passes (.ofBuilder rfl rfl rfl rfl) (.refl _) h.holds.below, rfl⟩

/-- From before a condition, the machine comes to the arm or to the block where the condition has
failed. -/
theorem openArm_reaches {no : Ir.BlockId} {label : String} {more : Bool}
    (hs : Standing m ret links env st mem) (hcond : cond.isScalar env.outlook = true)
    (hrun : Runs (openArm join label cond more) st no st') (hw : st'.current.Within f) :
    ∃ (b : Bool) (mem' : Memory F),
      (∀ yes no, cond.choose W env yes no mem.store = if b then yes mem'.store else no mem'.store) ∧
      Reaches W m f (st.current.point mem) (if b then st'.current.point mem' else ⟨no, 0, mem'⟩) ∧
      Standing m ret links env st' mem' ∧ mem.Le mem' ∧ (more = false → no = join) := by
  obtain ⟨hp, -⟩ : Passes links links [] st st' ∧ _ := openArm_passes hrun
  obtain ⟨v, st₁, c, st₂, yes, n, hv, hc, hmore, rfl⟩ := openArm_inv hrun
  have hbranch : (st₂.current.terminate (.condBr c.reg yes no)).Within f :=
    hw.of_grows (.branch _ _ _ _ _)
  obtain ⟨mem', hreach, hh, hle, hopen, b, hchoose, hexec⟩ :=
    (condition_computes hs.holds hcond).reaches hs.holds (runs_bind.mpr ⟨v, st₁, hv, hc⟩)
      (hbranch.of_grows (.terminate _ _))
  have hstep := hbranch.terminator (W := W) (m := m) (hopen.trans hs.isOpen) mem'
  rw [hexec] at hstep
  refine ⟨b, mem', hchoose, hreach.trans ?_, ⟨hs.toPlaced.passes hp hle hh.below, rfl⟩, hle,
    hmore⟩
  cases b with
  | true => exact .step hstep
  | false => exact .step hstep

theorem arm_joins {label : String} {otherwise : Option (Ir.BlockId → LowerM Unit)}
    {links' : List String}
    {yesSem noSem : Store F → Option (Flow F × Store F)} (hs : Standing m ret links env st mem)
    (hcond : cond.isScalar env.outlook = true)
    (hbody : Means W m f ret links env (inScope s (stmts body)) yesSem)
    (hadvances : ∀ act ∈ otherwise, AdvancesFrom (declaredIn links body) links' act)
    (hother : ∀ act ∈ otherwise, MeansFrom W m f ret (declaredIn links body) env join act noSem)
    (hnone : otherwise = none → ∀ σ, noSem σ = some (.next env, σ))
    (hrun : Runs (arm join label cond (inScope s (stmts body)) otherwise) st () st')
      (hf : Final m f st') :
    Joins W m f join env mem st' (st.current.point mem)
      (cond.choose W env yesSem noSem mem.store) := by
  obtain ⟨no, st₁, hopen, hrun₁⟩ := runs_bind.mp hrun
  obtain ⟨_, st₂, hbodyRun, hrun₂⟩ := runs_bind.mp hrun₁
  obtain ⟨_, st₃, hterm, hrun₃⟩ := runs_bind.mp hrun₂
  obtain ⟨hp₂, hg₂⟩ := Advances.inScope (fun _ _ => stmts_passes body links) hbodyRun
  obtain ⟨hp₃, hg₃⟩ : Passes (declaredIn links body) (declaredIn links body) [] st₂ st₃ ∧ _ :=
    terminate_passes hterm
  obtain ⟨hf₃, hn⟩ : Final m f st₃ ∧ st₃.current.nextReg ≤ st'.current.nextReg := by
    cases otherwise with
    | none =>
      obtain ⟨-, rfl⟩ := runs_pure.mp hrun₃
      exact ⟨hf, Nat.le_refl _⟩
    | some act =>
      obtain ⟨hp, hg⟩ := hadvances act rfl no _ _ hrun₃
      exact ⟨hf.back hp hg, hg.nextReg⟩
  have hf₂ : Final m f st₂ := hf₃.back hp₃ hg₃
  obtain ⟨b, mem₁, hchoose, hreach, hs₁, hle, hjoin⟩ :=
    openArm_reaches hs hcond hopen (hf₂.back hp₂ hg₂).within
  have hbelow : mem₁.Below st₃.current.nextReg := hs₁.holds.below.mono (hg₂.trans hg₃).nextReg
  rw [hchoose]
  refine .later hreach hle ?_
  cases b with
  | true =>
    obtain rfl := runs_terminate.mp hterm
    exact (hbody st₁ mem₁ st₂ hs₁ hbodyRun hf₂).joins hf₃.within hn
  | false =>
    cases otherwise with
    | none =>
      obtain rfl := hjoin rfl
      exact .inl ⟨mem₁, hnone rfl _, .refl _, hbelow.mono hn, .refl _⟩
    | some act =>
      exact hother act rfl no st₃ mem₁ st'
        (hs₁.toPlaced.passes (hp₂.trans hp₃) (.refl _) hbelow) hrun₃ hf

theorem openIf_reaches (hs : Standing m ret links env st mem) (hrun : Runs openIf st join st')
    (hw : st'.current.Within f) :
    Reaches W m f (st.current.point mem) (st'.current.point mem) ∧
      Standing m ret links env st' mem := by
  obtain ⟨hp, hg, hopen⟩ : Passes links links [] st st' ∧ _ := openIf_passes hrun
  refine ⟨?_, hs.toPlaced.passes hp (.refl _) (hs.holds.below.mono hg.nextReg), hopen⟩
  obtain ⟨first, n, rfl⟩ := openIf_inv hrun
  have hbranch : (st.current.terminate (.br first)).Within f := hw.of_grows (.branch _ _ _ _ _)
  exact .step (hbranch.terminator hs.isOpen mem)

/-- Nothing is done where there is nothing else. -/
theorem alternative_exec_none (a : Alternative) (h : alternative s join a = none) (σ : Store F) :
    a.exec W ret links env σ = some (.next env, σ) := by
  obtain rfl := eq_none_of_alternative h
  rfl

theorem if_simulates {otherwise : Alternative} (hs : Standing m ret links env st mem)
    (hcond : cond.isScalar env.outlook = true)
    (hbody : Means W m f ret links env (inScope s (stmts body))
      fun σ => (execIn W ret links env body σ).map (Flow.leave env))
    (hother : ∀ join, ∀ act ∈ alternative s join otherwise,
      MeansFrom W m f ret (declaredIn links body) env join act
        fun σ => otherwise.exec W ret (declaredIn links body) env σ)
    (hrun : Runs (stmt (.if_ cond body otherwise s)) st () st') (hf : Final m f st') :
    Simulates W m f (· = env) st mem st'
      ((Stmt.if_ cond body otherwise s).exec W ret links env mem.store) := by
  have hadvances := alternative_passes otherwise (declaredIn links body) s
  have hnone := alternative_none otherwise (declaredIn links body) s
  obtain ⟨hp, -⟩ := if_passes (fun _ _ => stmts_passes body links) hadvances hnone hrun
  unfold stmt at hrun
  obtain ⟨join, st₁, hopen, hrun₁⟩ := runs_bind.mp hrun
  obtain ⟨_, st₂, harm, hstart⟩ := runs_bind.mp hrun₁
  obtain ⟨-, -, ho₁⟩ : Passes links links [] st st₁ ∧ _ := openIf_passes hopen
  obtain ⟨hp₂, hg₂⟩ := arm_passes (fun _ _ => stmts_passes body links) (hadvances join) (hnone join)
    harm ho₁
  obtain ⟨hp₃, hg₃⟩ : Passes links links [] st₂ st' ∧ _ := startBlock_passes hstart
  have hf₂ : Final m f st₂ := hf.back hp₃ hg₃
  obtain ⟨hreach, hs₁⟩ := openIf_reaches (W := W) hs hopen (hf₂.back hp₂ hg₂).within
  obtain rfl := runs_startBlock.mp hstart
  have hjoins := (arm_joins hs₁ hcond hbody (hadvances join) (hother join)
    (fun h σ => alternative_exec_none otherwise h σ) harm hf₂).later hreach (.refl _)
  rw [Stmt.exec]
  obtain ⟨mem', hx, hr, hb, hle⟩ | h := hjoins
  · exact .inl ⟨env, mem', hx, rfl, hr, rfl, (hs.toPlaced.passes hp hle hb).holds, hle⟩
  · exact .inr h

theorem else_meansFrom {sem : Store F → Option (Flow F × Store F)}
    (hbody : Means W m f ret links env (inScope s (stmts body)) sem) :
    MeansFrom W m f ret links env join (fun here => do
      startBlock here "if.else"
      inScope s (stmts body)
      terminate (.br join)) sem := by
  intro here st mem st' hs hrun hf
  obtain ⟨_, st₁, hstart, hrun₁⟩ := runs_bind.mp hrun
  obtain rfl := runs_startBlock.mp hstart
  obtain ⟨_, st₂, hbodyRun, hterm⟩ := runs_bind.mp hrun₁
  obtain ⟨hp, hg⟩ : Passes links links [] st₂ st' ∧ _ := terminate_passes hterm
  have hsim := hbody _ mem st₂ (hs.startBlock here "if.else") hbodyRun (hf.back hp hg)
  obtain rfl := runs_terminate.mp hterm
  exact hsim.joins hf.within hg.nextReg

end Statements

section Trees

variable {ret : Ty}

mutual

/-- A lowered statement does what the statement means. -/
theorem stmt_simulates (s : Stmt) {links : List String} {env : Env F} {st st' : State}
    {mem : Memory F} (hs : Standing m ret links env st mem)
    (hscalar : s.isScalar links env.outlook = true) (hrun : Runs (stmt s) st () st')
    (hf : Final m f st') :
    Simulates W m f (·.outlook = env.outlook.after links s) st mem st'
      (s.exec W ret links env mem.store) := by
  match s with
  | .varDef name ty init s =>
    unfold stmt at hrun
    exact variable_simulates hs hscalar hrun hf
  | .structDef name members s =>
    unfold stmt at hrun
    exact struct_simulates hs hrun
  | .fnDef sig body s => exact fnDef_simulates hs hrun hf
  | .fnDecl sig s => exact fnDecl_simulates hs hrun hf
  | .varSet target e s =>
    unfold stmt at hrun
    exact (assign_simulates hs hscalar hrun hf).mono fun _ h => h ▸ rfl
  | .expr e s =>
    unfold stmt at hrun
    exact (effect_simulates hs hscalar hrun hf).mono fun _ h => h ▸ rfl
  | .return_ e s =>
    unfold stmt at hrun
    exact (return_simulates hs hscalar hrun hf).mono fun _ h => h ▸ rfl
  | .if_ cond body otherwise s =>
    obtain ⟨⟨hcond, hbody⟩, hother⟩ : (cond.isScalar env.outlook = true ∧
        bodyIsScalar links env.outlook body = true) ∧
        otherwise.isScalar (declaredIn links body) env.outlook = true := by
      simpa [Stmt.isScalar] using hscalar
    refine (if_simulates hs hcond (inScope_means fun _ _ _ hs' hr hf' =>
      stmts_simulates body hs' hbody hr hf') (fun join => ?_) hrun hf).mono fun _ h => h ▸ rfl
    exact alternative_meansFrom otherwise hother s join
  | .block body s =>
    unfold stmt at hrun
    have hmeans : Means W m f ret links env (inScope s (stmts body)) _ :=
      inScope_means fun _ _ _ hs' hr hf' => stmts_simulates body hs' hscalar hr hf'
    exact (hmeans st mem st' hs hrun hf).mono fun _ h => h ▸ rfl
  | .memberSet .. | .break_ .. | .for_ .. => simp [Stmt.isScalar] at hscalar

theorem alternative_meansFrom (a : Alternative) {links : List String} {env : Env F}
    (hscalar : a.isScalar links env.outlook = true) (s : Span) (join : Ir.BlockId) :
    ∀ act ∈ alternative s join a,
      MeansFrom W m f ret links env join act fun σ => a.exec W ret links env σ := by
  match a with
  | .none =>
    unfold alternative
    simp
  | .else_ body =>
    unfold alternative
    rintro _ ⟨⟩
    exact else_meansFrom (inScope_means fun _ _ _ hs' hr hf' =>
      stmts_simulates body hs' hscalar hr hf')
  | .elif cond body otherwise =>
    obtain ⟨⟨hcond, hbody⟩, hother⟩ : (cond.isScalar env.outlook = true ∧
        bodyIsScalar links env.outlook body = true) ∧
        otherwise.isScalar (declaredIn links body) env.outlook = true := by
      simpa [Alternative.isScalar] using hscalar
    unfold alternative
    rintro _ ⟨⟩ here st mem st' hs hrun hf
    obtain ⟨_, st₁, hstart, harm⟩ := runs_bind.mp hrun
    obtain rfl := runs_startBlock.mp hstart
    exact arm_joins (hs.startBlock here "elif.cond") hcond
      (inScope_means fun _ _ _ hs' hr hf' => stmts_simulates body hs' hbody hr hf')
      (alternative_passes otherwise _ s join) (alternative_meansFrom otherwise hother s join)
      (fun h σ => alternative_exec_none otherwise h σ) harm hf

theorem stmts_simulates (ss : List Stmt) {links : List String} {env : Env F} {st st' : State}
    {mem : Memory F} (hs : Standing m ret links env st mem)
    (hscalar : bodyIsScalar links env.outlook ss = true) (hrun : Runs (stmts ss) st () st')
    (hf : Final m f st') :
    Simulates W m f (fun _ => True) st mem st' (execIn W ret links env ss mem.store) := by
  match ss with
  | [] =>
    unfold stmts at hrun
    obtain ⟨-, rfl⟩ := runs_pure.mp hrun
    exact .inl ⟨env, mem, rfl, trivial, .refl _, hs.isOpen, hs.holds, .refl _⟩
  | s :: ss =>
    obtain ⟨hscalar, hscalars⟩ : s.isScalar links env.outlook = true ∧
        bodyIsScalar (s.declared links) (env.outlook.after links s) ss = true := by
      simpa [bodyIsScalar] using hscalar
    unfold stmts at hrun
    obtain ⟨_, st₀, hreopen, hrun₀⟩ := runs_bind.mp hrun
    obtain ⟨hterm, -⟩ | ⟨-, rfl⟩ := reopen_inv hreopen
    · rw [hs.isOpen] at hterm
      cases hterm
    obtain ⟨_, st₁, hrun₁, hrest⟩ := runs_bind.mp hrun₀
    obtain ⟨new, hp₁, -⟩ := stmt_passes s links hrun₁
    obtain ⟨new', hp₂, hg₂⟩ := stmts_passes ss (s.declared links) hrest
    have hsim := stmt_simulates s hs hscalar hrun₁ (hf.back hp₂ hg₂)
    obtain ⟨env₁, mem₁, hx, ho, hr, hopen, hh, hle⟩ | ⟨v, σ, hx, hhalt⟩ := hsim
    · obtain ⟨env₂, mem₂, hx₂, -, hr₂, hopen₂, hh₂, hle₂⟩ | ⟨v, σ, hx₂, hhalt⟩ :=
        stmts_simulates ss (hs.next hp₁ hh hopen) (ho ▸ hscalars) hrest hf
      · exact .inl ⟨env₂, mem₂, by simp [execIn, hx, hx₂], trivial, hr.trans hr₂, hopen₂, hh₂,
          hle.trans hle₂⟩
      · exact .inr ⟨v, σ, by simp [execIn, hx, hx₂], hr.halts hhalt⟩
    · exact .inr ⟨v, σ, by simp [execIn, hx], hhalt⟩

end

end Trees

end Lowering

end Frontend
