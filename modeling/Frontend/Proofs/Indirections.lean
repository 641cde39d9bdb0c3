import Frontend.Proofs.Increments
import Frontend.Proofs.Pipeline

/-!
Loads through pointers. The junctions of a program that was read and checked account for all that
its module loads: it loads from nowhere but variables, fields and addresses of structs just if every
value is as deep as what is expected of it. Where the check compares the two it always is. An
operand or an argument may be one pointer deeper, and is then loaded through.
-/
namespace Frontend

/-- Where no code is at hand, the function does not matter. -/
theorem Ir.Builder.Accounts.elsewhere {b b' : Builder} {fs : List Func} {js : List Junction}
    (h : b.Accounts [] fs js) : b'.Accounts [] fs js where
  fits := h.fits
  level := fun hjs => ⟨List.forall_mem_nil _, (h.level hjs).2⟩
  deep := by
    intro hjs
    obtain ⟨i, hi, -⟩ | hdeep := h.deep hjs
    · cases hi
    · exact .inr hdeep

namespace Lowering

variable {st st' : State}

/-- Definitions add nothing to the function that they stand in. -/
theorem stmt_current {s : Stmt} (hs : s.isDefinition) (hrun : Runs (stmt s) st () st') :
    st'.current = st.current := by
  cases s with
  | structDef name members s =>
    unfold stmt at hrun
    obtain ⟨-, -, -, hcurrent, -⟩ : ∃ fields, _ ∧ Passes [] [] _ st st' ∧ _ := struct_names hrun
    exact hcurrent
  | fnDecl sig s =>
    obtain ⟨-, -, -, hcurrent, -⟩ : ∃ low, _ ∧ Passes [] _ _ st st' ∧ _ := fnDecl_names hrun
    exact hcurrent
  | fnDef sig body s =>
    obtain ⟨low, st₁, outer, -, -, -, rfl⟩ := fnDef_inv hrun
    rfl
  | _ => cases hs

theorem topLevel_current {ss : List Stmt} (hss : ss.all Stmt.isDefinition)
    (hrun : Runs (topLevel ss) st () st') : st'.current = st.current := by
  induction ss generalizing st with
  | nil => exact congrArg State.current (runs_pure.mp hrun).2
  | cons s ss ih =>
    obtain ⟨hs, hrest⟩ := Bool.and_eq_true_iff.mp hss
    obtain ⟨_, st₁, hhead, htail⟩ := runs_bind.mp hrun
    exact (ih hrest htail).trans (stmt_current hs hhead)

end Lowering

open Lowering in
/-- What lowering a program that was read and checked adds. -/
theorem Accepted.lower_increment {src : String} {ts : List Token} {p q : Program}
    {ws : List (Located Warning)} (h : Accepted src ts p q ws) {name : String} {st : State}
    (hrun : Runs (topLevel q) (State.start name) () st) :
    ∃ d, (State.start name).GrowsBy d st ∧ st.current.Accounts d.code d.funcs q.junctions ∧
      Item.Matches (Stmt.allItems q) d.contents ∧
      ((∀ x ∈ Stmt.allItems q, x.isHollow = false) → d.LoadsNoVoid) := by
  obtain ⟨cst, hcheck, -⟩ := Program.check_eq_ok.mp h.check
  have hobeys := Program.check_obeys h.check (Grammar.program_obeys _ ts p h.read .void)
  obtain ⟨k, hleaves⟩ := increments_kept.topLevel rfl q ⟨.void, .start⟩ ⟨_, _, _, .start,
    hcheck, hobeys⟩
  obtain ⟨-, d, hd, hacc, hmatches, hvoid⟩ := hleaves _ _ _ hrun (start_stocked name)
  exact ⟨d, hd, hacc, hmatches, fun hxs => (hvoid .start hxs).2⟩

open Lowering in
/-- The junctions of a program account for what its functions load. -/
theorem Accepted.lower_accounts {src : String} {ts : List Token} {p q : Program}
    (h : Accepted src ts p q ws) {name : String} {m : Ir.Module} (hm : q.lower name = .ok m)
    (b : Ir.Builder) : b.Accounts [] m.funcs q.junctions := by
  obtain ⟨st, hrun, rfl⟩ := Program.lower_inv hm
  obtain ⟨d, hd, hacc, -⟩ := h.lower_increment hrun
  have hcode : st.current.code = d.code := hd.code
  -- functions without a body load nothing
  have hprelude : b.Accounts [] (State.start name).module.funcs [] := by
    refine .nil (List.forall_mem_nil _) fun f hf => ?_
    obtain ⟨g, -, rfl⟩ := List.mem_map.mp hf
    rfl
  split
  · rename_i hdef
    have hempty : d.code = [] :=
      hcode.symm.trans (congrArg Ir.Builder.code (topLevel_current hdef hrun))
    rw [hd.funcs]
    exact hprelude.append (hempty ▸ hacc).elsewhere
  · rw [Ir.Module.addFunc, hd.funcs, List.append_assoc]
    exact hprelude.append (hcode ▸ hacc).finish

/-- What a text loads, once it is compiled. All loads are from variables, fields and addresses of
structs just if every value is as deep as what is expected of it. What is assigned, returned or cast
always is. An operand on the right, and an argument, may be one pointer deeper than the operand on
the left or the parameter, never less deep, and is then loaded through. -/
theorem lower_loadsInPlace_iff_level (src : String) (ts : List Token) (p q : Program)
    (ws : List (Located Warning)) (h : Accepted src ts p q ws) (name : String) (m : Ir.Module)
    (hm : q.lower name = .ok m) :
    ((∀ f ∈ m.funcs, f.loadsInPlace) ↔ ∀ j ∈ q.junctions, j.isLevel) ∧
    ∀ j ∈ q.junctions, j.isLevel ∨ j.checked = false ∧ j.isDeep := by
  have hacc := h.lower_accounts hm (Lowering.State.start name).current
  refine ⟨⟨fun hplace => ?_, fun hlevel => (hacc.level hlevel).2⟩, hacc.fits⟩
  by_contra hdeep
  push Not at hdeep
  obtain ⟨i, hi, -⟩ | ⟨f, hf, hstrays⟩ := hacc.deep hdeep
  · cases hi
  · exact (Program.lower_funcs q.obeys_any hm hf hstrays.1).1.not_strays (hplace f hf) hstrays

/-- A struct, a field and a variable are loaded, and a pointer to a number stands where a number is
expected, as an operand and as an argument. -/
def pointerText : String :=
  "S : struct \x7b a: i32; \x7d g : fn i32 (a: i32) \x7b return a; \x7d " ++
  "f : fn (p: *i32, s: S) \x7b t := s; x := s.a; y := 1 + p; z := g(p); \x7d"

theorem lower_pointerText_loads : ∃ ts p q ws m, Accepted pointerText ts p q ws ∧
    q.lower "main" = .ok m ∧
    q.junctions.map (fun j => (j.expected.rank, j.given.rank, j.checked)) =
      [(0, 0, true), (1, 1, true), (0, 0, true), (0, 1, false), (0, 0, true), (0, 1, false),
        (0, 0, true)] ∧
    m.funcs.map (fun f => (f.name, f.loadsInPlace)) =
      [("printf", true), ("g", true), ("f", false)] ∧
    ((∀ f ∈ m.funcs, f.loadsInPlace) ↔ ∀ j ∈ q.junctions, j.isLevel) ∧
    ∀ j ∈ q.junctions, j.isLevel ∨ j.checked = false ∧ j.isDeep := by
  have hrun : surveyed pointerText (fun _ q _ => do
      let m ← (q.lower "main").toOption
      return (q.junctions.map fun j => (j.expected.rank, j.given.rank, j.checked),
        m.funcs.map fun f => (f.name, f.loadsInPlace))) =
      some ([(0, 0, true), (1, 1, true), (0, 0, true), (0, 1, false), (0, 0, true), (0, 1, false),
        (0, 0, true)], [("printf", true), ("g", true), ("f", false)]) := by
    exact surveyed_of_chars (append_ofList rfl) (by decide +kernel)
  obtain ⟨ts, p, q, ws, m, hacc, hlower, heq⟩ := surveyed_lower hrun
  obtain ⟨hjunctions, hfuncs⟩ := Prod.mk.inj heq
  exact ⟨ts, p, q, ws, m, hacc, hlower, hjunctions, hfuncs,
    lower_loadsInPlace_iff_level _ _ _ _ _ hacc _ _ hlower⟩

/-- It is not so that a text that is compiled loads from variables, fields and addresses of structs
only: a pointer to a number that is the right operand of a sum is loaded through. -/
theorem lower_operand_loaded_through : ¬ ∀ src ts p q ws, Accepted src ts p q ws →
    ∀ name m, q.lower name = .ok m → ∀ f ∈ m.funcs, f.loadsInPlace := by
  intro h
  have hrun : surveyed "f : fn (p: *i32) \x7b x := 1 + p; \x7d" (fun _ q _ => do
      let m ← (q.lower "main").toOption
      return m.funcs.all Ir.Func.loadsInPlace) = some false := by
    decide +kernel
  obtain ⟨ts, p, q, ws, m, hacc, hm, heq⟩ := surveyed_lower hrun
  have hall := List.all_eq_true.mpr (h _ _ _ _ _ hacc _ _ hm)
  rw [hall] at heq
  cases heq

end Frontend
