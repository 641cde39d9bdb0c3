import Frontend.Proofs.Indirections

/-!
What a module holds for a program that was read and checked. Every constant but zeros, every cell,
field and parameter is there for an item of the program, and every item has its own. If nothing is
declared `void`, nothing of that type is loaded either.
-/
namespace Frontend

/-- What the program writes down, after the parameters of the prelude. -/
def Program.items (p : Program) : List Item :=
  (prelude.flatMap fun f => f.params.map fun p => .parameter (.prim p.2 0)) ++ Stmt.allItems p

open Lowering in
theorem start_matches (name : String) : Item.Matches
    (prelude.flatMap fun f => f.params.map fun p => .parameter (.prim p.2 0))
    (State.start name).module.contents := by
  refine .ofForall₂ (.cons ?_ .nil)
  exact ⟨_, .prim rfl, rfl⟩

open Lowering in
/-- A module holds what the program writes down. -/
theorem Accepted.lower_items {src : String} {ts : List Token} {p q : Program}
    {ws : List (Located Warning)} (h : Accepted src ts p q ws) {name : String} {m : Ir.Module}
    (hm : q.lower name = .ok m) : Item.Matches q.items m.contents ∧
      ((∀ x ∈ q.items, x.isHollow = false) → ∀ f ∈ m.funcs, f.loadsNoVoid) := by
  obtain ⟨st, hrun, rfl⟩ := Program.lower_inv hm
  obtain ⟨d, hd, -, hmatches, hvoid⟩ := h.lower_increment hrun
  have hcode : st.current.code = d.code := hd.code
  have hprelude : ∀ f ∈ (State.start name).module.funcs, f.loadsNoVoid := by
    intro f hf
    obtain ⟨g, -, rfl⟩ := List.mem_map.mp hf
    rfl
  have hmodule : ∀ c, c ∈ st.module.contents ++ Ir.contents d.code ↔
      c ∈ (State.start name).module.contents ++ d.contents := by
    intro c
    simp only [Ir.Module.contents, hd.funcs, hd.structs, Ir.Increment.contents, List.flatMap_append,
      List.mem_append]
    tauto
  have hall := (start_matches name).append hmatches
  split
  · rename_i hdef
    have hempty : d.code = [] :=
      hcode.symm.trans (congrArg Ir.Builder.code (topLevel_current hdef hrun))
    refine ⟨hall.congr fun c => ?_, fun hxs f hf => ?_⟩
    · simpa [hempty, Ir.contents] using hmodule c
    · rw [hd.funcs] at hf
      refine (List.mem_append.mp hf).elim (hprelude f) ?_
      exact (hvoid fun x hx => hxs x (List.mem_append_right _ hx)).funcs f
  · have hself : st.current.finish.contents = Ir.contents d.code := by
      rw [Ir.Func.contents, Ir.Builder.finish_instrs, ← hcode]
      exact congrArg (· ++ _) (congrArg _ hd.params)
    refine ⟨hall.congr fun c => ?_, fun hxs f hf => ?_⟩
    · rw [← hmodule c]
      simp only [Ir.Module.addFunc, Ir.Module.contents, List.flatMap_append,
        List.flatMap_singleton, hself, List.mem_append]
      tauto
    · have hd' := hvoid fun x hx => hxs x (List.mem_append_right _ hx)
      rw [Ir.Module.addFunc, hd.funcs] at hf
      rcases List.mem_append.mp hf with hf | hf
      · exact (List.mem_append.mp hf).elim (hprelude f) (hd'.funcs f)
      · obtain rfl := List.mem_singleton.mp hf
        rw [Ir.Func.loadsNoVoid, Ir.Builder.finish_instrs]
        have hloads : ∀ i ∈ st.current.code, i.op.loadsNoVoid := hcode ▸ hd'.code
        exact List.all_eq_true.mpr hloads

end Frontend
