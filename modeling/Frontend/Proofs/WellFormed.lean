import Frontend.Proofs.Construction

/-!
Modules that lowering yields: each function with a body is in static single assignment form over a
closed control-flow graph, and it is typed if the literals and returns of the program are.
-/
namespace Frontend

namespace Ir.Module

/-- The function that goes by this name has these types. -/
def Declares (m : Module) (name : String) (params : List Ty) (ret : Ty) : Prop :=
  ∃ f, m.func? name = some f ∧ f.params.map Prod.snd = params ∧ f.ret = ret

/-- Where no two functions have one name, each is found by its own. -/
theorem func?_of_mem {m : Module} (hm : (m.funcs.map (·.name)).Nodup) {f : Func}
    (hf : f ∈ m.funcs) : m.func? f.name = some f := by
  obtain ⟨name, structs, funcs⟩ := m
  induction funcs with
  | nil => simp at hf
  | cons g gs ih =>
    obtain ⟨hg, hgs⟩ := List.nodup_cons.mp hm
    rcases List.mem_cons.mp hf with rfl | hf
    · simp [func?]
    · have hne : g.name ≠ f.name := fun h => hg (List.mem_map.mpr ⟨f, hf, h.symm⟩)
      rw [func?, List.find?_cons_of_neg (by simpa using hne)]
      exact ih hgs hf

end Ir.Module

namespace Lowering

open Ir (Policy)

variable {P : Policy}

/-- What a function of the prelude is bound to. -/
def preludeBinding (f : PreludeFn) : Binding Handle :=
  ⟨f.name, f.ty, f.attributes, none,
    .func f.name (preludeParams f) (preludeRet f) f.attributes.isVariadic⟩

theorem start_names (name : String) :
    (State.start name).names = ScopeTable.empty.addAll (prelude.map preludeBinding) := by
  rw [ScopeTable.addAll, List.foldl_map]
  rfl

theorem start_visible (name : String) :
    (State.start name).names.visible = (prelude.map preludeBinding).reverse := by
  rw [start_names, (ScopeTable.Extends.addAll _ _).visible (by decide)]
  simp [ScopeTable.visible, ScopeTable.visibleFrom, ScopeTable.empty]

theorem start_sound (name : String) :
    (State.start name).Sound P .void ⟨[], []⟩ (fun _ => []) [] := by
  refine ⟨.ofStart _ _ _ _, ⟨?_, ?_, ?_, Nat.zero_lt_one⟩, ⟨?_, ?_⟩, ⟨.empty, ?_, rfl⟩⟩
  · rw [start_names]
    exact (ScopeTable.Extends.addAll _ _).current_lt (by decide)
  · intro b hb
    rw [start_visible, List.mem_reverse] at hb
    obtain ⟨f, hf, rfl⟩ := List.mem_map.mp hb
    exact .inl ⟨_, List.mem_map_of_mem hf, rfl, Ir.numbered_snd _, rfl⟩
  · intro b hb
    rw [start_visible, List.mem_reverse] at hb
    obtain ⟨f, hf, rfl⟩ := List.mem_map.mp hb
    trivial
  · intro f hf hext
    obtain ⟨g, hg, rfl⟩ := List.mem_map.mp hf
    simp [Ir.Func.external] at hext
  · have hnames : (State.start name).functionNames = ["printf", initName] := rfl
    rw [hnames]
    decide
  · intro b hb
    simp [ScopeTable.visible, ScopeTable.visibleFrom, ScopeTable.empty] at hb

/-- Nothing but functions of the module can be called once all functions are done. -/
theorem State.Sealed.declares {st : State} {m : Ir.Module} (hm : (m.funcs.map (·.name)).Nodup)
    (hsub : st.module.funcs ⊆ m.funcs) (hid : st.current.id = 0) (henc : st.enclosing = []) :
    ∀ f ps r, st.Declares f ps r → m.Declares f ps r := by
  rintro f ps r (⟨g, hg, rfl, hps, hr⟩ | ⟨hne, -⟩ | ⟨b, hb, -⟩)
  · exact ⟨g, Ir.Module.func?_of_mem hm (hsub hg), hps, hr⟩
  · exact absurd hid hne
  · simp [henc] at hb

end Lowering

variable {p : Program} {name : String} {m : Ir.Module}

open Lowering in
/-- A module is what the top-level statements leave, with a function for those that are no
definitions. -/
theorem Program.lower_inv (h : p.lower name = .ok m) :
    ∃ st, Runs (topLevel p) (.start name) () st ∧
      m = if p.all Stmt.isDefinition then st.module else st.module.addFunc st.current.finish := by
  unfold Program.lower at h
  split at h
  · simp at h
  · rename_i st hrun
    exact ⟨st, hrun, (Except.ok.inj h).symm⟩

theorem Law.none_le_any : Law.none.Le Ir.Policy.any.law where
  literal := fun _ _ _ _ _ _ => trivial
  function := fun _ _ => trivial
  type := fun _ _ => trivial
  returns := fun _ _ _ _ _ => trivial

theorem Program.obeys_any (p : Program) : Stmt.AllObey Ir.Policy.any.law .void p :=
  Stmt.AllObey.mono Law.none_le_any p .void (Stmt.allObey_none p .void)

open Lowering in
/-- No two functions have one name. -/
theorem Program.lower_unique (h : p.lower name = .ok m) : (m.funcs.map (·.name)).Nodup := by
  obtain ⟨st, hrun, rfl⟩ := lower_inv h
  obtain ⟨new, c, entry, hs, hm, -⟩ := topLevel_keeps p p.obeys_any _ _ _ _ _
    (start_sound name) hrun
  have henc : st.enclosing = [] := hm.enclosing
  have hunique : (st.module.funcs.map (·.name) ++ [st.current.name]).Nodup := by
    simpa [State.functionNames, henc] using hs.done.unique
  split
  · exact (List.nodup_append.mp hunique).1
  · rw [Ir.Module.addFunc, List.map_append]
    exact hunique

open Lowering in
/-- Every function with a body is well formed, and typed in the module it is part of. -/
theorem Program.lower_funcs {P : Ir.Policy} (hp : Stmt.AllObey P.law .void p)
    (h : p.lower name = .ok m) {f : Ir.Func} (hf : f ∈ m.funcs) (hext : f.isExternal = false) :
    f.WellFormed ∧ ∃ Γ, f.WellTyped P m.Declares Γ := by
  obtain ⟨st, hrun, hst⟩ := lower_inv h
  obtain ⟨new, c, entry, hs, hm, -⟩ := topLevel_keeps p hp _ _ _ _ _ (start_sound name) hrun
  have hid : st.current.id = 0 := hm.id
  have henc : st.enclosing = [] := hm.enclosing
  obtain ⟨hsub, hmem⟩ : st.module.funcs ⊆ m.funcs ∧
      (f ∈ st.module.funcs ∨ f = st.current.finish) := by
    subst hst
    split at hf
    · rename_i hdef
      rw [if_pos hdef]
      exact ⟨List.Subset.refl _, .inl hf⟩
    · rename_i hdef
      rw [if_neg hdef]
      exact ⟨List.subset_append_left _ _,
        (List.mem_append.mp hf).imp_right List.mem_singleton.mp⟩
  have hd := State.Sealed.declares (lower_unique h) hsub hid henc
  rcases hmem with hf | rfl
  · obtain ⟨hwf, Γ, hty⟩ := hs.done.funcs f hf hext
    exact ⟨hwf, Γ, hty.declare hd⟩
  · exact ⟨hs.body.wellFormed, _, hs.body.wellTyped.declare hd⟩

/-- Whatever the program, a function with a body is in static single assignment form: blocks and
registers are numbered apart, control stays inside, and no register is read before it is
assigned. -/
theorem Program.lower_wellFormed (p : Program) (name : String) (m : Ir.Module)
    (h : p.lower name = .ok m) : ∀ f ∈ m.funcs, f.isExternal = false → f.WellFormed := by
  intro f hf hext
  exact (lower_funcs p.obeys_any h hf hext).1

/-- A function with two arms, a return in one of them and code that nothing leads to. -/
def clamp : Program :=
  let s : Span := ⟨0, 0, .start⟩
  let x : Ident := ⟨"x", s⟩
  let y : Ident := ⟨"y", s⟩
  [.fnDef ⟨⟨"clamp", s⟩, .i32, [⟨x, .i32⟩], false⟩
    [.varDef y .i32 (some (.literal (.int 0) .i32 s)) s,
      .if_ (.binary .lt (.ident y) (.ident x) s)
        [.return_ (some (.ident x)) s, .varSet y (.ident x) s]
        (.else_ [.varSet y (.ident x) s]) s,
      .return_ (some (.ident y)) s] s]

theorem Program.lower_clamp_wellFormed : ∃ m, clamp.lower "main" = .ok m ∧
    (∃ f ∈ m.funcs, f.isExternal = false) ∧ ∀ f ∈ m.funcs, f.isExternal = false → f.WellFormed := by
  have hrun : ((clamp.lower "main").toOption.map fun m => m.funcs.map (·.isExternal)) =
      some [true, false] := by
    decide +kernel
  cases h : clamp.lower "main" with
  | error e => simp [h, Except.toOption] at hrun
  | ok m =>
    have hfuncs : m.funcs.map (·.isExternal) = [true, false] := by
      rw [h] at hrun
      exact Option.some.inj hrun
    have hmem : false ∈ m.funcs.map (·.isExternal) := by simp [hfuncs]
    obtain ⟨f, hf, hext⟩ := List.mem_map.mp hmem
    exact ⟨m, rfl, ⟨f, hf, hext⟩, lower_wellFormed clamp "main" m h⟩

end Frontend
