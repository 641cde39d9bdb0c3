import Frontend.Proofs.Pipeline
import Frontend.Proofs.Simulation

/-!
Lowering preserves meaning. Wherever a program defines a function, the module has it; and if the
function uses nothing but scalars, the machine runs it to the outcome that its body has, with the
same calls in the same order.
-/
namespace Frontend

open Ir (Memory Halts)

variable {F : Type} {W : World F} {m : Ir.Module} {args : List (Val F)} {sig : Signature}

/-- The values are of the types of the parameters. -/
def Definition.Takes (d : Definition) (args : List (Val F)) : Prop :=
  List.Forall₂ (fun p v => ∃ t, p.ty.scalar? = some t ∧ v.HasTy t) d.sig.params args

/-- The module has a function for `d`. It does what `d` means, if that can be said of scalars. -/
def Definition.Realised (m : Ir.Module) (d : Definition) : Prop :=
  ∃ f, m.func? d.link = some f ∧ f.isExternal = false ∧ (d.isScalar = true →
    ∀ (F : Type) (W : World F) (args : List (Val F)), d.Takes args →
      ∃ r, d.run W args = some r ∧ Halts W m f (f.start args) r)

/-- Arguments are in the registers that come first. -/
theorem Ir.lookup_regsFrom {α : Type} (n k : Nat) (args : List α) (r : Reg) :
    ((regsFrom n k).zip args).lookup r =
      if n ≤ r.index ∧ r.index < n + k then args[r.index - n]? else none := by
  induction k generalizing n args with
  | zero =>
    rw [if_neg (by omega)]
    rfl
  | succ k ih =>
    cases args with
    | nil => simp
    | cons a args =>
      obtain ⟨i⟩ := r
      rw [regsFrom_succ, List.zip_cons_cons, List.lookup_cons]
      by_cases hi : i = n
      · simp [hi]
      · have hne : ((⟨i⟩ : Reg) == ⟨n⟩) = false := by simpa using hi
        simp only [hne, ih]
        by_cases hlt : n ≤ i ∧ i < n + (k + 1)
        · have hsub : i - n = i - (n + 1) + 1 := by omega
          rw [if_pos (by omega), if_pos (by omega), hsub, List.getElem?_cons_succ]
        · rw [if_neg (by omega), if_neg (by omega)]

theorem Ir.Func.start_regs {f : Func} {tys : List Ty} (hparams : f.params = numbered tys)
    (hlen : args.length = tys.length) (i : Nat) : (f.start args).mem.regs ⟨i⟩ = args[i]? := by
  simp only [start, hparams, numbered_fst, lookup_regsFrom]
  by_cases hi : i < tys.length
  · simp [hi]
  · simp [hi, hlen]

theorem Ir.Func.start_store (f : Func) (args : List (Val F)) :
    (f.start args).mem.store = ⟨[], []⟩ := rfl

/-- The block that comes first has the number zero. -/
theorem Ir.Func.WellFormed.start_eq {f : Func} (h : f.WellFormed) (args : List (Val F)) :
    f.start args = ⟨⟨0⟩, 0, (f.start args).mem⟩ := by
  have hentry : f.blocks.head?.map (·.id) = some ⟨0⟩ := by simpa using h.entry
  simp [start, hentry]

/-- No two functions have one name, and each that has a body is well formed. -/
structure Ir.Module.Regular (m : Ir.Module) : Prop where
  unique : (m.funcs.map (·.name)).Nodup
  wellFormed : ∀ f ∈ m.funcs, f.isExternal = false → f.WellFormed

theorem Outlook.outlook_env (o : Outlook) : (o.env : Env F).outlook = o := by
  induction o with
  | nil => rfl
  | cons e o ih =>
    obtain ⟨name, r⟩ := e
    cases r with
    | none => exact congrArg ((name, none) :: ·) ih
    | some f => exact congrArg ((name, some f) :: ·) ih

/-- Which names are functions does not depend on the arguments. -/
theorem Definition.outlook_env (d : Definition) (h : d.Takes args) :
    (d.env args).outlook = d.outlook.inside d.sig.params := by
  have hfst : (d.sig.params.zip args).map Prod.fst = d.sig.params :=
    List.map_fst_zip (Nat.le_of_eq h.length_eq)
  have hparams : Env.outlook ((d.sig.params.zip args).reverse.map fun p =>
      (p.1.name.name, .param p.1.ty p.2)) = d.sig.params.reverse.map fun p =>
        (p.name.name, none) := by
    conv_rhs => rw [← hfst]
    simp [Env.outlook, Entity.routine?, List.map_reverse, Function.comp_def]
  have happend : ∀ env env' : Env F, (env ++ env').outlook = env.outlook ++ env'.outlook :=
    fun _ _ => List.map_append
  exact (happend _ _).trans (congrArg₂ _ hparams d.outlook.outlook_env)

namespace Ir.Builder

/-- A function that is done ends where it was left open. -/
theorem within_finish (b : Builder) (hd : (b.finish.blocks.map (·.id)).Nodup) :
    (b.terminate (fallback b.ret)).Within b.finish := by
  refine ⟨⟨_, .refl _, ?_⟩, hd⟩
  have hdone := Block.terminate_of_isSome (b := b.block.terminate (fallback b.ret)) rfl
    (fallback b.ret)
  simp [finish, terminate, blocks, hdone]

end Ir.Builder

/-- At its end, a function that returns nothing returns. -/
theorem fallback_exec {names : ScopeTable Handle} {ret : Ty} {t : Ir.Ty}
    (h : ret.lower names = .ok t) (hret : (ret.isVoid || ret.scalar?.isSome) = true)
    (mem : Memory F) : (Ir.Builder.fallback t).exec mem =
      some (.halted (if ret.isVoid then .returned none else .unreachable) mem.calls) := by
  by_cases hv : ret.isVoid = true
  · obtain rfl : ret = .void := by
      obtain ⟨hbase, hlevels⟩ := (Bool.and_eq_true _ _).mp hv
      have hbase : ret.base = .prim .void := of_decide_eq_true hbase
      have hlevels : ret.levels = 0 := of_decide_eq_true hlevels
      cases ret with
      | prim p n =>
        cases hbase
        cases hlevels
        rfl
      | struct | inst | fn => cases hbase
    obtain rfl : .void = t := Except.ok.inj h
    rfl
  · obtain ⟨t', ht'⟩ := Option.isSome_iff_exists.mp (by simpa [hv] using hret)
    obtain rfl := Ty.lower_scalar? ht' h
    have hne : t ≠ .void := by
      rintro rfl
      exact absurd (Ty.isScalar_of_scalar? ht')
        (by simp [Ir.Ty.IsScalar, Ir.Ty.width?, Ir.Ty.isFloat])
    simp [Ir.Builder.fallback, hne, hv, Ir.Terminator.exec]

namespace Lowering

section Entry

variable {st : State} {sig : Signature} {low : LoweredSig}

/-- Parameters are what was passed for them. -/
theorem params_stand (hlow : low.Of sig st)
    (hargs : List.Forall₂ (fun p v => ∃ t, p.ty.scalar? = some t ∧ v.HasTy t) sig.params args)
    {mem : Memory F} (hmem : ∀ i, mem.regs ⟨i⟩ = args[i]?) (here : Nat) :
    List.Forall₂ (fun e b => e.1 = b.name ∧ Entity.Stands m here mem b e.2)
      ((sig.params.zip args).map fun p => (p.1.name.name, .param p.1.ty p.2))
      (paramBindings sig.params low.params here) := by
  have hlen := hargs.length_eq
  have hlen' := hlow.params.length_eq
  refine List.forall₂_iff_get.mpr ⟨by simp [paramBindings, ← hlen, ← hlen'], fun i hi hi' => ?_⟩
  have hi₀ : i < sig.params.length := by simpa [← hlen] using hi
  obtain ⟨t, ht, hv⟩ := hargs.get hi₀ (hlen ▸ hi₀)
  obtain ⟨ty, hty, hlowered⟩ := hlow.params.get hi₀ (hlen' ▸ hi₀)
  obtain rfl := Ty.lower_scalar? ht hty
  rw [if_neg (fun h => Ir.Ty.not_isScalar_of_isAggregate h (Ty.isScalar_of_scalar? ht))] at hlowered
  have hreg : mem.regs ⟨i⟩ = some (args.get ⟨i, hlen ▸ hi₀⟩) := by
    rw [hmem]
    exact List.getElem?_eq_getElem _
  simp only [List.get_eq_getElem] at *
  simp only [paramBindings, List.getElem_map, List.getElem_zip, Ir.numbered, List.getElem_mapIdx]
  exact ⟨rfl, ⟨i⟩, _, rfl, rfl, hlowered ▸ ht, hreg, hlowered ▸ hv⟩

end Entry

/-- What is said of a name in advance holds of what it is bound to: it is a function of the module,
or no function numbered from `n` on can use it. -/
def Sees (m : Ir.Module) (n : Nat) (b : Binding Handle) : Option Routine → Prop
  | some f => f.Stands m b
  | none => ∀ here, n ≤ here → b.value.Foreign here

theorem Sees.mono {n n' : Nat} (hn : n ≤ n') {b : Binding Handle} {r : Option Routine}
    (h : Sees m n b r) : Sees m n' b r := by
  cases r with
  | some f => exact h
  | none => exact fun here hle => h here (Nat.le_trans hn hle)

/-- Parameters are at hand in their own function only. -/
theorem params_seen {params : List Param} {tys : List Ir.Ty} (hlen : params.length = tys.length)
    (owner : Nat) : List.Forall₂ (fun e b => e.1 = b.name ∧ Sees m (owner + 1) b e.2)
      (params.map fun p => (p.name.name, none)) (paramBindings params tys owner) := by
  refine List.forall₂_iff_get.mpr ⟨by simp [paramBindings, hlen], fun i hi hi' => ?_⟩
  simp only [List.get_eq_getElem, paramBindings, List.getElem_map, List.getElem_zip]
  exact ⟨rfl, fun here hle => Nat.ne_of_lt hle⟩

/-- What is known of the names in sight and of the names of functions. -/
structure Knows (m : Ir.Module) (links : List String) (o : Outlook) (st : State) : Prop where
  names : List.Forall₂ (fun e b => e.1 = b.name ∧ Sees m st.nextId b e.2) o st.names.visible
  named : st.Named links
  inside : st.names.current < st.names.size
  here : st.current.id < st.nextId

namespace Knows

variable {links links' : List String} {o : Outlook} {st st' : State}

/-- Names are added. -/
theorem next (h : Knows m links o st) (es : Outlook) {new : List (Binding Handle)}
    (hp : Passes links links' new st st')
    (hnew : List.Forall₂ (fun e b => e.1 = b.name ∧ Sees m st'.nextId b e.2) es new) :
    Knows m links' (es ++ o) st' where
  names := by
    rw [hp.names.visible h.inside]
    exact List.rel_append hnew (h.names.imp fun _ _ hs => ⟨hs.1, hs.2.mono hp.nextId⟩)
  named := hp.named h.named
  inside := hp.names.current_lt h.inside
  here := hp.id ▸ Nat.lt_of_lt_of_le h.here hp.nextId

theorem passes (h : Knows m links o st) (hp : Passes links links' [] st st') :
    Knows m links' o st' :=
  h.next [] hp .nil

theorem laidOut (h : Knows m links o st) : st.names.LaidOut := by
  intro b hb ty hty
  obtain ⟨⟨i, hi⟩, rfl⟩ := List.get_of_mem hb
  obtain ⟨-, hs⟩ := h.names.get (h.names.length_eq ▸ hi) hi
  generalize (o.get _).2 = r at hs
  cases r with
  | some f =>
    obtain ⟨params, ret, hval, -⟩ := hs
    cases hty.symm.trans hval
  | none =>
    have hforeign := hs st.nextId (Nat.le_refl _)
    rwa [hty] at hforeign

variable {sig : Signature} {low : LoweredSig}

/-- Inside a function that it defines, a name is known as before, and so are the parameters. -/
theorem enterBody (h : Knows m links o st) (hlow : low.Of sig st)
    (hstands : (sig.routine links).Stands m (low.binding sig false)) :
    Knows m (links ++ [sig.link links])
      (Outlook.inside ((sig.name.name, some (sig.routine links)) :: o) sig.params)
      (st.enterBody sig low) where
  names := by
    rw [State.visible_enterBody h.inside, Outlook.inside]
    refine List.rel_append ?_ (.cons ⟨rfl, hstands⟩ (h.names.imp fun _ _ hs =>
      ⟨hs.1, hs.2.mono (Nat.le_succ _)⟩))
    rw [List.map_reverse]
    exact List.rel_reverse (params_seen hlow.params.length_eq st.nextId)
  named := h.named.enterFunction hlow
  inside := State.enterBody_inside
  here := Nat.lt_succ_self _

/-- A function starts with what was passed for its parameters and with what is known. -/
theorem holds (h : Knows m links o st) (hlow : low.Of sig st)
    (hstands : (sig.routine links).Stands m (low.binding sig false))
    (hargs : List.Forall₂ (fun p v => ∃ t, p.ty.scalar? = some t ∧ v.HasTy t) sig.params args)
    {mem : Memory F} (hmem : ∀ i, mem.regs ⟨i⟩ = args[i]?) (body : List Stmt) :
    Holds m (Definition.env ⟨sig, body, links, (sig.name.name, some (sig.routine links)) :: o⟩ args)
      (st.enterBody sig low) mem where
  below := by
    intro ⟨i⟩ v hv
    rw [hmem] at hv
    have hlt := (List.getElem?_eq_some_iff.mp hv).1
    rwa [← hargs.length_eq, hlow.params.length_eq] at hlt
  names := by
    rw [State.visible_enterBody h.inside, Definition.env, List.map_reverse]
    refine List.rel_append (List.rel_reverse (params_stand hlow hargs hmem _)) ?_
    refine .cons ⟨rfl, hstands⟩ (List.forall₂_map_left_iff.mpr (h.names.imp fun e b hs => ?_))
    obtain ⟨hname, hs⟩ := hs
    refine ⟨hname, ?_⟩
    cases hr : e.2 with
    | some f =>
      rw [hr] at hs
      exact hs
    | none =>
      rw [hr] at hs
      exact hs st.nextId (Nat.le_refl _)

end Knows

/-- A function that was lowered does what it means. -/
theorem body_realised (hm : m.Regular) {links : List String} {o : Outlook} {st st' : State}
    {low : LoweredSig} {body : List Stmt} (hk : Knows m links o st) (hlow : low.Of sig st)
    (hstands : (sig.routine links).Stands m (low.binding sig false))
    (hrun : Runs (stmts body) (st.enterBody sig low) () st') (hf : st'.current.finish ∈ m.funcs)
    (hfuncs : st'.module.funcs ⊆ m.funcs) :
    Definition.Realised m ⟨sig, body, links, (sig.name.name, some (sig.routine links)) :: o⟩ := by
  obtain ⟨new, hp, -⟩ := stmts_passes body (links ++ [sig.link links]) hrun
  have hname : st'.current.finish.name = sig.link links := hp.name.trans (hlow.link hk.named)
  have hfound := Ir.Module.func?_of_mem hm.unique hf
  rw [hname] at hfound
  refine ⟨st'.current.finish, hfound, rfl, fun hscalar F W args hargs => ?_⟩
  obtain ⟨⟨-, hret⟩, hbody⟩ : (_ ∧ (sig.ret.isVoid || sig.ret.scalar?.isSome) = true) ∧ _ := by
    simpa only [Definition.isScalar, Bool.and_eq_true] using hscalar
  have hwf := hm.wellFormed _ hf rfl
  have hmem := Ir.Func.start_regs (f := st'.current.finish) hp.params
    (hargs.length_eq.symm.trans hlow.params.length_eq)
  have hs : Standing m sig.ret (links ++ [sig.link links]) _ (st.enterBody sig low)
      (st'.current.finish.start args).mem :=
    ⟨⟨hk.holds hlow hstands hargs hmem body, hk.named.enterFunction hlow, State.enterBody_inside,
      Ty.lower_reflects hk.laidOut hlow.ret⟩, rfl⟩
  have hfinal : Final m st'.current.finish st' :=
    ⟨⟨⟨st'.current, .refl _, rfl⟩, hwf.distinct⟩, hfuncs, hm.unique⟩
  have hsim := stmts_simulates (W := W) body hs (Definition.outlook_env _ hargs ▸ hbody) hrun hfinal
  rw [Ir.Func.start_store] at hsim
  rw [hwf.start_eq]
  obtain ⟨env', mem', hx, -, hreach, hopen, -, -⟩ | ⟨v, σ, hx, hhalt⟩ := hsim
  · have hstep := (st'.current.within_finish hwf.distinct).terminator (W := W) (m := m) hopen mem'
    rw [show st'.current.ret = low.ret from hp.ret, fallback_exec hlow.ret hret] at hstep
    exact ⟨_, by simp [Definition.run, Definition.link, hx, Memory.store],
      hreach.halts (.step hstep)⟩
  · exact ⟨_, by simp [Definition.run, Definition.link, hx], hhalt⟩

/-- Every run of `act` adds functions, those for `ds` among them, and leads from what is known
before to what is known after it. -/
def Realises (m : Ir.Module) (links links' : List String) (o o' : Outlook) (act : LowerM α)
    (ds : List Definition) : Prop :=
  ∀ st a st', Runs act st a st' → st.module.funcs ⊆ st'.module.funcs ∧
    (Knows m links o st → st'.module.funcs ⊆ m.funcs →
      Knows m links' o' st' ∧ ∀ d ∈ ds, d.Realised m)

namespace Realises

variable {links links₁ links' : List String} {o o₁ o' : Outlook} {ds ds' : List Definition}

/-- A step that neither binds a name nor defines a function. -/
theorem ofPasses {act : LowerM α}
    (h : ∀ st a st', Runs act st a st' → Passes links links [] st st') :
    Realises m links links o o act [] := by
  intro st a st' hrun
  have hp := h st a st' hrun
  exact ⟨hp.funcs.subset, fun hk _ => ⟨hk.passes hp, by simp⟩⟩

theorem ofExtending {act : LowerM α} (h : Extending act) : Realises m links links o o act [] :=
  ofPasses fun _ _ _ hrun => (h.passes hrun).1

theorem pure {a : α} : Realises m links links o o (pure a) [] :=
  ofExtending (emitting_extending.pure _)

theorem unsupported {s : Span} {what : Unsupported} :
    Realises m links links' o o' (unsupported s what : LowerM α) ds :=
  fun _ _ _ hrun => absurd hrun not_runs_unsupported

theorem bind {x : LowerM α} {f : α → LowerM β} (hx : Realises m links links₁ o o₁ x ds)
    (hf : ∀ a, Realises m links₁ links' o₁ o' (f a) ds') :
    Realises m links links' o o' (x >>= f) (ds ++ ds') := by
  intro st b st' hrun
  obtain ⟨a, st₁, hrun₁, hrun₂⟩ := runs_bind.mp hrun
  obtain ⟨hsub₁, h₁⟩ := hx st a st₁ hrun₁
  obtain ⟨hsub₂, h₂⟩ := hf a st₁ b st' hrun₂
  refine ⟨List.Subset.trans hsub₁ hsub₂, fun hk hfuncs => ?_⟩
  obtain ⟨hk₁, hds⟩ := h₁ hk (List.Subset.trans hsub₂ hfuncs)
  obtain ⟨hk', hds'⟩ := h₂ hk₁ hfuncs
  exact ⟨hk', fun d hd => (List.mem_append.mp hd).elim (hds d) (hds' d)⟩

/-- A step with nothing to realise after it. -/
theorem andThen {x : LowerM α} {f : α → LowerM β} (hx : Realises m links links₁ o o₁ x ds)
    (hf : ∀ a, Realises m links₁ links' o₁ o' (f a) []) :
    Realises m links links' o o' (x >>= f) ds := by
  have h := hx.bind hf
  rwa [List.append_nil] at h

/-- What was bound in a block is forgotten, what was defined there is not. -/
theorem inScope {body : List Stmt} {s : Span}
    (h : Realises m links (declaredIn links body) o o' (stmts body) ds) :
    Realises m links (declaredIn links body) o o (inScope s (stmts body)) ds := by
  intro st u st' hrun
  obtain ⟨st₁, outer, hact, hleave, rfl⟩ := within_inv hrun
  obtain ⟨new, hp, -⟩ := stmts_passes body links hact
  obtain ⟨hsub, hbody⟩ := h _ _ _ hact
  refine ⟨hsub, fun hk hfuncs => ⟨hk.passes (hp.leave hleave), ?_⟩⟩
  have henter : Knows m links o { st with names := st.names.enter } :=
    ⟨ScopeTable.visible_enter _ hk.inside ▸ hk.names, hk.named, by simp, hk.here⟩
  exact (hbody henter hfuncs).2

end Realises

section Walk

variable {links links' : List String} {o o' : Outlook} {ds ds' : List Definition} {s : Span}
  {body : List Stmt}

theorem variable_realises {name : Ident} {ty : Ty} {init : Option Expr} :
    Realises m links links o ((name.name, none) :: o) (variable_ name ty init) [] := by
  intro st u st' hrun
  obtain ⟨ptr, t, hp, -⟩ : ∃ ptr t, Passes links links _ st st' ∧ _ := variable_names hrun
  refine ⟨hp.funcs.subset, fun hk _ => ⟨hk.next [(name.name, none)] hp
    (.cons ⟨rfl, fun here hle => ?_⟩ .nil), by simp⟩⟩
  exact Nat.ne_of_lt (Nat.lt_of_lt_of_le (Nat.lt_of_lt_of_le hk.here hp.nextId) hle)

theorem struct_realises {name : Ident} {members : List Param} :
    Realises m links links o ((name.name, none) :: (membersMarker name.name, none) :: o)
      (struct_ name members s) [] := by
  intro st u st' hrun
  obtain ⟨fields, -, hp, -⟩ : ∃ fields, _ ∧ Passes links links _ st st' ∧ _ := struct_names hrun
  exact ⟨hp.funcs.subset, fun hk _ =>
    ⟨hk.next [(name.name, none), (membersMarker name.name, none)] hp
      (.cons ⟨rfl, fun _ _ => rfl⟩ (.cons ⟨rfl, fun _ _ => trivial⟩ .nil)), by simp⟩⟩

theorem fnDecl_realises (hm : m.Regular) :
    Realises m links (links ++ [sig.link links]) o
      ((sig.name.name, some (sig.routine links)) :: o) (stmt (.fnDecl sig s)) [] := by
  intro st u st' hrun
  obtain ⟨low, hlow, hp, -, hadd⟩ : ∃ low, _ ∧ Passes links _ _ st st' ∧ _ := fnDecl_names hrun
  refine ⟨hp.funcs.subset, fun hk hfuncs =>
    ⟨hk.next [(sig.name.name, some (sig.routine links))] hp (.cons ⟨rfl, ?_⟩ .nil), by simp⟩⟩
  have hg := hfuncs (hadd ▸ List.mem_append_right _ List.mem_cons_self)
  exact hlow.stands hk.laidOut hk.named hm.unique hg rfl rfl true

/-- A function is known before its body. -/
theorem fnDef_realises (hm : m.Regular)
    (hbody : Realises m (links ++ [sig.link links]) (declaredIn (links ++ [sig.link links]) body)
      (Outlook.inside ((sig.name.name, some (sig.routine links)) :: o) sig.params) o'
      (stmts body) ds) :
    Realises m links (declaredIn (links ++ [sig.link links]) body) o
      ((sig.name.name, some (sig.routine links)) :: o) (stmt (.fnDef sig body s))
      (⟨sig, body, links, (sig.name.name, some (sig.routine links)) :: o⟩ :: ds) := by
  intro st u st' hrun
  obtain ⟨low, st₁, outer, hlow, hbodyRun, hin, rfl⟩ :=
    fnDef_body (fun _ _ => stmts_passes body (links ++ [sig.link links])) hrun
  have hp := Passes.leaveFunction hlow hin
  refine ⟨hp.funcs.subset, fun hk hfuncs => ?_⟩
  have hg : st₁.current.finish ∈ m.funcs := hfuncs (List.mem_append_right _ List.mem_cons_self)
  have hsub : st₁.module.funcs ⊆ m.funcs := List.Subset.trans (List.subset_append_left _ _) hfuncs
  have hstands := hlow.stands hk.laidOut hk.named hm.unique hg hin.name hin.ret false
  have hself := body_realised hm hk hlow hstands hbodyRun hg hsub
  have hinner := (hbody _ _ _ hbodyRun).2 (hk.enterBody hlow hstands) hsub
  exact ⟨hk.next [(sig.name.name, some (sig.routine links))] hp (.cons ⟨rfl, hstands⟩ .nil),
    List.forall_mem_cons.mpr ⟨hself, hinner.2⟩⟩

theorem arm_realises {join : Ir.BlockId} {label : String} {cond : Expr}
    {otherwise : Option (Ir.BlockId → LowerM Unit)}
    (hbody : Realises m links (declaredIn links body) o o' (stmts body) ds)
    (hother : ∀ act ∈ otherwise, ∀ here,
      Realises m (declaredIn links body) links' o o (act here) ds')
    (hnone : otherwise = none → declaredIn links body = links' ∧ ds' = []) :
    Realises m links links' o o (arm join label cond (inScope s (stmts body)) otherwise)
      (ds ++ ds') := by
  have hopen : Realises m links links o o (openArm join label cond otherwise.isSome) [] :=
    .ofPasses fun _ _ _ h => (openArm_passes h).1
  have hterm : Realises m (declaredIn links body) (declaredIn links body) o o
      (terminate (.br join)) [] := .ofPasses fun _ _ _ h => (terminate_passes h).1
  refine hopen.bind fun no => hbody.inScope.bind fun _ => hterm.bind fun _ => ?_
  cases otherwise with
  | none =>
    obtain ⟨rfl, rfl⟩ := hnone rfl
    exact .pure
  | some act => exact hother act rfl no

theorem if_realises {cond : Expr} {otherwise : Alternative}
    (hbody : Realises m links (declaredIn links body) o o' (stmts body) ds)
    (hother : ∀ join, ∀ act ∈ alternative s join otherwise, ∀ here,
      Realises m (declaredIn links body) links' o o (act here) ds')
    (hnone : ∀ join, alternative s join otherwise = none →
      declaredIn links body = links' ∧ ds' = []) :
    Realises m links links' o o (stmt (.if_ cond body otherwise s)) (ds ++ ds') := by
  have hopen : Realises m links links o o openIf [] := .ofPasses fun _ _ _ h => (openIf_passes h).1
  have hstart : ∀ join, Realises m links' links' o o (startBlock join "if.end") [] :=
    fun join => .ofPasses fun _ _ _ h => (startBlock_passes h).1
  have harm : ∀ join, Realises m links links' o o
      (arm join "if.then" cond (inScope s (stmts body)) (alternative s join otherwise))
      (ds ++ ds') :=
    fun join => arm_realises hbody (hother join) (hnone join)
  unfold stmt
  exact hopen.bind fun join => (harm join).andThen fun _ => hstart join

/-- What is not there defines nothing. -/
theorem alternative_realises_none (a : Alternative) (links : List String) (o : Outlook) (s : Span)
    (join : Ir.BlockId) (h : alternative s join a = none) :
    links = a.declared links ∧ a.definitions links o = [] := by
  refine ⟨alternative_none a links s join h, ?_⟩
  obtain rfl := eq_none_of_alternative h
  rfl

end Walk

mutual

/-- Every function that a statement defines is realised. -/
theorem stmt_realises (hm : m.Regular) (s : Stmt) (links : List String) (o : Outlook) :
    Realises m links (s.declared links) o (o.after links s) (stmt s) (s.definitions links o) := by
  match s with
  | .varDef name ty init s =>
    unfold stmt
    exact variable_realises
  | .structDef name members s =>
    unfold stmt
    exact struct_realises
  | .fnDef sig body s =>
    unfold Stmt.definitions
    obtain ⟨o', hbody⟩ := stmts_realises hm body (links ++ [sig.link links]) _
    exact fnDef_realises hm hbody
  | .fnDecl sig s => exact fnDecl_realises hm
  | .varSet target e s =>
    unfold stmt
    exact .ofExtending (emitting_extending.tallying.assign target e)
  | .memberSet target e s =>
    unfold stmt
    exact .ofExtending (emitting_extending.tallying.assignMember target e)
  | .expr e s =>
    unfold stmt
    exact .ofExtending (emitting_extending.tallying.effect e)
  | .return_ e s =>
    unfold stmt
    exact .ofPasses fun _ _ _ h => (return_passes h).1
  | .break_ s =>
    unfold stmt
    exact .unsupported
  | .for_ cond body s =>
    unfold stmt
    exact .unsupported
  | .if_ cond body otherwise s =>
    unfold Stmt.definitions
    obtain ⟨o', hbody⟩ := stmts_realises hm body links o
    exact if_realises hbody (alternative_realises hm otherwise _ o s)
      (alternative_realises_none otherwise _ o s)
  | .block body s =>
    unfold stmt Stmt.definitions
    obtain ⟨o', hbody⟩ := stmts_realises hm body links o
    exact hbody.inScope

theorem alternative_realises (hm : m.Regular) (a : Alternative) (links : List String) (o : Outlook)
    (s : Span) (join : Ir.BlockId) : ∀ act ∈ alternative s join a, ∀ here,
      Realises m links (a.declared links) o o (act here) (a.definitions links o) := by
  match a with
  | .none =>
    unfold alternative
    simp
  | .else_ body =>
    unfold alternative Alternative.definitions
    rintro _ ⟨⟩ here
    obtain ⟨o', hbody⟩ := stmts_realises hm body links o
    have hstart : Realises m links links o o (startBlock here "if.else") [] :=
      .ofPasses fun _ _ _ h => (startBlock_passes h).1
    have hterm : Realises m (declaredIn links body) (declaredIn links body) o o
        (terminate (.br join)) [] := .ofPasses fun _ _ _ h => (terminate_passes h).1
    exact hstart.bind fun _ => hbody.inScope.andThen fun _ => hterm
  | .elif cond body otherwise =>
    unfold alternative Alternative.definitions
    rintro _ ⟨⟩ here
    obtain ⟨o', hbody⟩ := stmts_realises hm body links o
    have hstart : Realises m links links o o (startBlock here "elif.cond") [] :=
      .ofPasses fun _ _ _ h => (startBlock_passes h).1
    exact hstart.bind fun _ => arm_realises hbody (alternative_realises hm otherwise _ o s join)
      (alternative_realises_none otherwise _ o s join)

theorem stmts_realises (hm : m.Regular) (ss : List Stmt) (links : List String) (o : Outlook) :
    ∃ o', Realises m links (declaredIn links ss) o o' (stmts ss) (definitionsIn links o ss) := by
  match ss with
  | [] =>
    unfold stmts
    exact ⟨o, .pure⟩
  | s :: ss =>
    unfold stmts definitionsIn
    obtain ⟨o', hrest⟩ := stmts_realises hm ss (s.declared links) (o.after links s)
    have hreopen : Realises m links links o o reopen [] :=
      .ofPasses fun _ _ _ h => (reopen_advances h).1
    exact ⟨o', hreopen.bind fun _ => (stmt_realises hm s links o).bind fun _ => hrest⟩

end

/-- At top level no block is closed by a statement, and none is opened again. -/
theorem topLevel_realises (hm : m.Regular) (ss : List Stmt) (links : List String) (o : Outlook) :
    ∃ o', Realises m links (declaredIn links ss) o o' (topLevel ss) (definitionsIn links o ss) := by
  induction ss generalizing links o with
  | nil => exact ⟨o, .pure⟩
  | cons s ss ih =>
    unfold topLevel definitionsIn
    obtain ⟨o', hrest⟩ := ih (s.declared links) (o.after links s)
    exact ⟨o', (stmt_realises hm s links o).bind fun _ => hrest⟩

/-- Before a program, the prelude is known. -/
theorem start_knows {name : String} (hu : (m.funcs.map (·.name)).Nodup)
    (hfuncs : (State.start name).module.funcs ⊆ m.funcs) :
    Knows m (prelude.map (·.name)) .start (State.start name) where
  names := by
    rw [start_visible, Outlook.start, List.map_reverse]
    refine List.rel_reverse ?_
    rw [List.forall₂_map_left_iff, List.forall₂_map_right_iff, List.forall₂_same]
    intro f hf
    have hfound := Ir.Module.func?_of_mem hu (hfuncs (List.mem_map_of_mem hf))
    refine ⟨rfl, preludeParams f, preludeRet f, rfl, rfl, ?_, ?_, _, hfound, rfl⟩
    · obtain rfl := List.mem_singleton.mp hf
      refine .cons (fun hs => ?_) .nil
      simp [Ir.Ty.IsScalar, Ir.Ty.width?, Ir.Ty.isFloat] at hs
    · obtain rfl := List.mem_singleton.mp hf
      rintro t ⟨⟩
      rfl
  named := List.Perm.swap _ _ _
  inside := by
    rw [start_names]
    exact (ScopeTable.Extends.addAll _ _).current_lt (by decide)
  here := Nat.zero_lt_one

end Lowering

theorem Program.lower_regular {p : Program} {name : String} {m : Ir.Module}
    (h : p.lower name = .ok m) : m.Regular where
  unique := lower_unique h
  wellFormed := fun _ hf hext => (lower_funcs p.obeys_any h hf hext).1

open Lowering in
/-- Lowering preserves meaning: every function that a program defines is in the module, and one that
uses nothing but scalars comes to its outcome there, whatever it is called with and whatever the
world answers, with the calls that its body makes. -/
theorem Program.lower_preserves (p : Program) (name : String) (m : Ir.Module)
    (h : p.lower name = .ok m) : ∀ d ∈ p.definitions, d.Realised m := by
  obtain ⟨st, hrun, hst⟩ := lower_inv h
  have hsub : st.module.funcs ⊆ m.funcs := by
    rw [hst]
    split
    · exact List.Subset.refl _
    · exact List.subset_append_left _ _
  obtain ⟨o, hreal⟩ := topLevel_realises (lower_regular h) p (prelude.map (·.name)) .start
  obtain ⟨hgrows, hknown⟩ := hreal _ _ _ hrun
  have hstart := start_knows (lower_unique h) (List.Subset.trans hgrows hsub)
  exact (hknown hstart hsub).2

/-- A text with calls, arms that return and an arm that does not, a conversion at every turn and
code that nothing leads to. -/
def gradeText : String :=
  "probe: fn i32 (n: i32); grade: fn i64 (n: i8, strict: bool) \x7b low: i16 = -3; " ++
  "if strict && probe(n) > low \x7b low: i64 = (n as i64) * 2; probe(low); return ~low; " ++
  "low = 1; \x7d elif !strict \x7b low = low + n; \x7d else \x7b return (n as i64) << 2; \x7d " ++
  "return low as i64; \x7d"

theorem Program.lower_grade_preserves : ∃ ts p q ws m, Accepted gradeText ts p q ws ∧
    q.lower "grade" = .ok m ∧ (∃ d ∈ q.definitions, d.link = "grade" ∧ d.isScalar = true ∧
      d.Takes [(.int 8 5 : Val Unit), .bit true]) ∧ ∀ d ∈ q.definitions, d.Realised m := by
  have hrun : surveyed gradeText (fun _ q _ => do
      let _ ← (q.lower "grade").toOption
      return q.definitions.map fun d => (d.link, d.isScalar, d.sig.params.map (·.ty))) =
        some [("grade", true, [.prim .i8 0, .bool])] := by
    exact surveyed_of_chars (append_ofList (append_ofList (append_ofList rfl)))
      (by decide +kernel)
  obtain ⟨ts, p, q, ws, m, hacc, hm, hds⟩ := surveyed_lower hrun
  refine ⟨ts, p, q, ws, m, hacc, hm, ?_, lower_preserves q "grade" m hm⟩
  obtain ⟨d, hq, hd⟩ := List.map_eq_singleton_iff.mp hds
  simp only [Prod.mk.injEq] at hd
  obtain ⟨hlink, hscalar, hparams⟩ := hd
  refine ⟨d, by simp [hq], hlink, hscalar, ?_⟩
  have htypes : List.Forall₂ (fun ty (v : Val Unit) => ∃ t, Ty.scalar? ty = some t ∧ v.HasTy t)
      (d.sig.params.map (·.ty)) [.int 8 5, .bit true] := by
    rw [hparams]
    exact .cons ⟨.i8, rfl, rfl⟩ (.cons ⟨.bool, rfl, rfl⟩ .nil)
  exact List.forall₂_map_left_iff.mp htypes

end Frontend
