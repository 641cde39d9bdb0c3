import Frontend.Proofs.Pipeline
import Frontend.Proofs.References

/-!
The functions of a module, by name. No two have one name; besides those of the prelude they are what
the declarations of the program become, and last the function of the top-level statements. Each call
and each address of a function names the one that is meant, and uses it as what it is. A function
without a body keeps its name as long as no function before it goes by that.
-/
namespace Frontend

open List (Forall₂)
open Lowering (initName freeName)

/-- What becomes of a function of the prelude. -/
def PreludeFn.func (f : PreludeFn) : Ir.Func :=
  .external f.name (Lowering.preludeParams f) (Lowering.preludeRet f) f.attributes.isVariadic

/-- The function is what a reference is to: what becomes of a declaration, or of the prelude. -/
def Program.Supplies (p : Program) (r : Routine) (f : Ir.Func) : Prop :=
  (∃ d ∈ p.declarations, d.routine = r ∧ d.Becomes f) ∨ ∃ g ∈ prelude, g.routine = r ∧ f = g.func

namespace Ir

/-- The instruction uses the function as what it is: what it passes is of the types of the
parameters, as far as there are any, and what it gives is of the type that is returned or of that of
the function. -/
def Instr.Uses (Γ : Reg → Ty) (f : Func) (i : Instr) : Prop :=
  match i.op with
  | .call _ args => ArgsTyped (fun r ty => Γ r = ty) (f.params.map Prod.snd) args ∧
    i.result.map Γ = callResult f.ret
  | .funcRef _ => i.result.map Γ = some (.fn (f.params.map Prod.snd) f.ret)
  | _ => False

theorem Func.WellTyped.uses {P : Policy} {m : Module} {f : Func} {Γ : Reg → Ty}
    (h : f.WellTyped P m.Declares Γ) {i : Instr} (hi : i ∈ f.instrs) {name : String}
    (hname : i.op.target? = some name) : ∃ g, m.func? name = some g ∧ i.Uses Γ g := by
  have hop := h.instrs i hi
  unfold Instr.Uses
  generalize i.op = op at hop hname
  generalize i.result.map Γ = t at hop
  cases hop with
  | call hdecl hargs =>
    obtain ⟨g, hg, rfl, rfl⟩ := hdecl
    obtain rfl := Option.some.inj hname
    exact ⟨g, hg, hargs, rfl⟩
  | funcRef hdecl =>
    obtain ⟨g, hg, rfl, rfl⟩ := hdecl
    obtain rfl := Option.some.inj hname
    exact ⟨g, hg, rfl⟩
  | _ => simp [Op.target?] at hname

/-- Calls and addresses of functions are references to `ts`, one by one: each names the function
that is meant and uses it as what it is. -/
def Func.RefersTo (p : Program) (m : Module) (ts : List Routine) (f : Func) : Prop :=
  ∃ Γ, f.WellTyped .any m.Declares Γ ∧
    Forall₂ (fun i r => i.op.target? = some r.link ∧
      ∃ g, m.func? r.link = some g ∧ p.Supplies r g ∧ i.Uses Γ g)
      (f.instrs.filter (·.op.target?.isSome)) ts

end Ir

/-- What is left of a list stands for another list, one by one. -/
theorem forall₂_of_filterMap {g : α → Option γ} {k : β → γ} {S : α → β → Prop} {as : List α}
    {bs : List β} (h : as.filterMap g = bs.map k)
    (hs : ∀ a ∈ as, ∀ b ∈ bs, g a = some (k b) → S a b) :
    Forall₂ S (as.filter fun a => (g a).isSome) bs := by
  induction as generalizing bs with
  | nil =>
    obtain rfl := List.map_eq_nil_iff.mp h.symm
    exact .nil
  | cons a as ih =>
    have hrest : ∀ bs, as.filterMap g = bs.map k →
        (∀ b ∈ bs, ∀ a' ∈ as, g a' = some (k b) → S a' b) →
        Forall₂ S (as.filter fun a => (g a).isSome) bs :=
      fun bs h hs => ih h fun a' ha' b hb => hs b hb a' ha'
    cases hg : g a with
    | none =>
      rw [List.filter_cons_of_neg (by simp [hg])]
      rw [List.filterMap_cons_none hg] at h
      exact hrest bs h fun b hb a' ha' => hs a' (List.mem_cons_of_mem _ ha') b hb
    | some c =>
      rw [List.filter_cons_of_pos (by simp [hg])]
      rw [List.filterMap_cons_some hg] at h
      obtain ⟨b, bs, rfl, rfl, hbs⟩ := List.map_eq_cons_iff.mp h.symm
      exact .cons (hs a List.mem_cons_self b List.mem_cons_self hg)
        (hrest bs hbs.symm fun b' hb' a' ha' =>
          hs a' (List.mem_cons_of_mem _ ha') b' (List.mem_cons_of_mem _ hb'))

theorem forall₂_exists_of_mem {R : α → β → Prop} {as : List α} {bs : List β} (h : Forall₂ R as bs)
    {a : α} (ha : a ∈ as) : ∃ b ∈ bs, R a b := by
  induction h with
  | nil => cases ha
  | @cons a' b as bs hab _ ih =>
    rcases List.mem_cons.mp ha with rfl | ha
    · exact ⟨b, List.mem_cons_self, hab⟩
    · obtain ⟨b', hb', hr⟩ := ih ha
      exact ⟨b', List.mem_cons_of_mem _ hb', hr⟩

theorem Signature.link_not_mem (links : List String) (sig : Signature) :
    sig.link links ∉ initName :: links :=
  Lowering.freeName_not_mem _ _

theorem Signature.link_eq_iff {links : List String} {sig : Signature} :
    sig.link links = sig.name.name ↔ sig.name.name ∉ initName :: links := by
  constructor
  · intro h
    exact h ▸ sig.link_not_mem links
  · intro h
    rw [link, freeName, List.range_succ_eq_map, List.map_cons, List.find?_cons_of_pos]
    · rfl
    · simpa using h

open Lowering in
/-- The functions of a module. That of the top-level statements alone goes by its name. -/
theorem Program.lower_declarations {p : Program} {name : String} {m : Ir.Module}
    (h : p.lower name = .ok m) : ∃ (fs : List Ir.Func) (init : Option Ir.Func),
      m.funcs = prelude.map PreludeFn.func ++ (fs ++ init.toList) ∧
      init.isNone = p.all Stmt.isDefinition ∧ (∀ f ∈ m.funcs, f.name = initName ↔ f ∈ init) ∧
      Forall₂ Declaration.Becomes p.declarations fs ∧
      ∀ f ∈ init, f.isExternal = false ∧ f.targets = (Stmt.allTargets .start p).map (·.link) := by
  obtain ⟨st, hrun, hst⟩ := lower_inv h
  obtain ⟨w, hlinks⟩ := links_kept.topLevel rfl p .start trivial
  obtain ⟨-, htargets, fs, hfuncs, hds⟩ := hlinks _ _ _ hrun (start_at name)
  obtain ⟨new, c, entry, -, hm, -⟩ := topLevel_keeps p p.obeys_any _ _ _ _ _ (start_sound name) hrun
  have hinit : st.current.finish.name = initName := hm.name
  have hother : ∀ f ∈ prelude.map PreludeFn.func ++ fs, f.name ≠ initName := by
    intro f hf hname
    rcases List.mem_append.mp hf with hf | hf
    · obtain ⟨g, hg, rfl⟩ := List.mem_map.mp hf
      obtain rfl := List.mem_singleton.mp hg
      exact absurd hname (by decide)
    · obtain ⟨d, -, hbecomes⟩ := forall₂_exists_of_mem hds.flip hf
      have hlink := d.sig.link_not_mem d.vantage.links
      rw [← Declaration.link, ← hbecomes.name, hname] at hlink
      exact hlink List.mem_cons_self
  cases hdef : p.all Stmt.isDefinition with
  | true =>
    have hall : m.funcs = prelude.map PreludeFn.func ++ fs := by
      rw [hst, if_pos hdef]
      exact hfuncs
    refine ⟨fs, none, by simpa using hall, rfl, fun f hf => ?_, hds, nofun⟩
    exact iff_of_false (hother f (hall ▸ hf)) nofun
  | false =>
    have hall : m.funcs = (prelude.map PreludeFn.func ++ fs) ++ [st.current.finish] := by
      rw [hst, if_neg (by simp [hdef]), Ir.Module.addFunc]
      exact congrArg (· ++ _) hfuncs
    refine ⟨fs, some st.current.finish, by simpa using hall, rfl, fun f hf => ?_, hds, ?_⟩
    · rw [hall] at hf
      rcases List.mem_append.mp hf with hf | hf
      · refine iff_of_false (hother f hf) fun h => hother f hf ?_
        exact Option.some.inj h ▸ hinit
      · obtain rfl := List.mem_singleton.mp hf
        exact iff_of_true hinit rfl
    · rintro _ ⟨⟩
      refine ⟨rfl, ?_⟩
      rw [Ir.Func.targets, Ir.Builder.finish_instrs]
      exact htargets

section Lowered

variable {p : Program} {name : String} {m : Ir.Module} {f : Ir.Func}

variable (h : p.lower name = .ok m)

include h

/-- Every function that is declared is in the module. -/
theorem Program.lower_declared {d : Declaration} (hd : d ∈ p.declarations) :
    ∃ f, m.func? d.link = some f ∧ d.Becomes f := by
  obtain ⟨fs, init, hfuncs, -, -, hds, -⟩ := lower_declarations h
  obtain ⟨f, hf, hbecomes⟩ := forall₂_exists_of_mem hds hd
  refine ⟨f, hbecomes.name ▸ Ir.Module.func?_of_mem (lower_unique h) ?_, hbecomes⟩
  rw [hfuncs]
  exact List.mem_append_right _ (List.mem_append_left _ hf)

/-- What may be referred to is in the module. -/
theorem Program.lower_supplies {r : Routine} (hr : Vantage.start.Offers p.declarations r) :
    ∃ f, m.func? r.link = some f ∧ p.Supplies r f := by
  rcases hr with hr | ⟨d, hd, rfl⟩
  · obtain ⟨e, he, hr⟩ := List.mem_filterMap.mp hr
    obtain ⟨g, hg, rfl⟩ := List.mem_map.mp he
    obtain rfl := Option.some.inj hr
    have hg := List.mem_reverse.mp hg
    obtain ⟨fs, init, hfuncs, -⟩ := lower_declarations h
    have hmem : g.func ∈ m.funcs := by
      rw [hfuncs]
      exact List.mem_append_left _ (List.mem_map_of_mem hg)
    exact ⟨g.func, Ir.Module.func?_of_mem (lower_unique h) hmem, .inr ⟨g, hg, rfl, rfl⟩⟩
  · obtain ⟨f, hf, hbecomes⟩ := lower_declared h hd
    exact ⟨f, hf, .inl ⟨d, hd, rfl, hbecomes⟩⟩

/-- A function that names what is referred to refers to it. -/
theorem Program.lower_refersTo (hf : f ∈ m.funcs) (hext : f.isExternal = false) {ts : List Routine}
    (hts : f.targets = ts.map (·.link)) (hoffers : ∀ r ∈ ts,
      Vantage.start.Offers p.declarations r) :
    f.RefersTo p m ts := by
  obtain ⟨Γ, hty⟩ := (lower_funcs p.obeys_any h hf hext).2
  refine ⟨Γ, hty, forall₂_of_filterMap hts fun i hi r hr hname => ⟨hname, ?_⟩⟩
  obtain ⟨g, hg, hsupplies⟩ := lower_supplies h (hoffers r hr)
  obtain ⟨g', hg', huses⟩ := hty.uses hi hname
  obtain rfl := Option.some.inj (hg.symm.trans hg')
  exact ⟨g, hg, hsupplies, huses⟩

/-- A function with a body refers to what its body refers to. -/
theorem Program.lower_body {d : Declaration} (hd : d ∈ p.declarations) (hf : f ∈ m.funcs)
    (hbecomes : d.Becomes f) (hbody : d.body.isSome) : f.RefersTo p m d.targets := by
  refine lower_refersTo h hf ?_ hbecomes.targets ((Stmt.allMeet .start p).2 d hd)
  rw [hbecomes.isExternal]
  simpa using hbody

/-- The function of the top-level statements refers to what these refer to. -/
theorem Program.lower_init (hf : f ∈ m.funcs) (hname : f.name = initName) :
    f.RefersTo p m (Stmt.allTargets .start p) := by
  obtain ⟨fs, init, -, -, hiff, -, hinit⟩ := lower_declarations h
  obtain ⟨hext, htargets⟩ := hinit f ((hiff f hf).mp hname)
  exact lower_refersTo h hf hext htargets (Stmt.allMeet .start p).1

end Lowered

/-- A module is closed, and no name in it is ambiguous. Its functions go by different names. They
are those of the prelude, what the declarations of the program become, and last, if there is more at
top level than definitions, a function for the top-level statements, which alone goes by its name.
Calls and addresses of functions are, one by one, the references of the program: each names the
function that the nearest declaration of the name in sight becomes, passes what it takes and gives
what it returns. -/
theorem Program.lower_closed (p : Program) (name : String) (m : Ir.Module)
    (h : p.lower name = .ok m) :
    (m.funcs.map (·.name)).Nodup ∧ ∃ (fs : List Ir.Func) (init : Option Ir.Func),
      m.funcs = prelude.map PreludeFn.func ++ (fs ++ init.toList) ∧
      init.isNone = p.all Stmt.isDefinition ∧ (∀ f ∈ m.funcs, f.name = initName ↔ f ∈ init) ∧
      Forall₂ (fun d f => d.Becomes f ∧ (d.body.isSome → f.RefersTo p m d.targets))
        p.declarations fs ∧
      ∀ f ∈ init, f.RefersTo p m (Stmt.allTargets .start p) := by
  obtain ⟨fs, init, hfuncs, hnone, hname, hds, hinit⟩ := lower_declarations h
  have hmem : ∀ f ∈ fs ++ init.toList, f ∈ m.funcs := by
    intro f hf
    rw [hfuncs]
    exact List.mem_append_right _ hf
  refine ⟨lower_unique h, fs, init, hfuncs, hnone, hname, ?_, fun f hf => ?_⟩
  · refine List.forall₂_iff_zip.mpr ⟨hds.length_eq, fun {d f} hdf => ?_⟩
    have hbecomes := List.forall₂_zip hds hdf
    obtain ⟨hd, hf⟩ := List.of_mem_zip hdf
    exact ⟨hbecomes, lower_body h hd (hmem f (List.mem_append_left _ hf)) hbecomes⟩
  · have hmem := hmem f (List.mem_append_right _ (Option.mem_toList.mpr hf))
    exact lower_init h hmem ((hname f hmem).mpr hf)

/-- Functions that hide others and that call themselves, in functions and in a block. -/
def walkText : String :=
  "probe : fn i32 (n: i32);\n" ++
  "walk : fn i32 (n: i32) \x7b\n" ++
  "  probe : fn i32 (a: i32) \x7b return a; \x7d\n" ++
  "  walk : fn i32 (b: i32) \x7b return probe(b) + walk(b); \x7d\n" ++
  "  \x7b walk : fn i32 (f: f64); walk(n); \x7d\n" ++
  "  printf('%d', probe(n)); return walk(n);\n" ++
  "\x7d\n" ++
  "walk(probe(2));"

theorem Program.lower_walk_closed : ∃ ts p q ws m, Accepted walkText ts p q ws ∧
    q.lower "walk" = .ok m ∧
    q.declarations.map (fun d => (d.link, d.targets.map (·.link))) =
      [("probe", []), ("probe.1", []), ("walk.1", ["probe.1", "walk.1"]), ("walk.2", []),
        ("walk", ["walk.2", "probe.1", "printf", "walk.1"])] ∧
    (Stmt.allTargets .start q).map (·.link) = ["probe", "walk"] ∧
    (m.funcs.map (·.name)).Nodup ∧ ∃ (fs : List Ir.Func) (init : Option Ir.Func),
      m.funcs = prelude.map PreludeFn.func ++ (fs ++ init.toList) ∧
      init.isNone = q.all Stmt.isDefinition ∧ (∀ f ∈ m.funcs, f.name = initName ↔ f ∈ init) ∧
      Forall₂ (fun d f => d.Becomes f ∧ (d.body.isSome → f.RefersTo q m d.targets))
        q.declarations fs ∧
      ∀ f ∈ init, f.RefersTo q m (Stmt.allTargets .start q) := by
  have hrun : surveyed walkText (fun _ q _ => do
      let _ ← (q.lower "walk").toOption
      return (q.declarations.map (fun d => (d.link, d.targets.map (·.link))),
        (Stmt.allTargets .start q).map (·.link))) =
      some ([("probe", []), ("probe.1", []), ("walk.1", ["probe.1", "walk.1"]), ("walk.2", []),
        ("walk", ["walk.2", "probe.1", "printf", "walk.1"])],
        ["probe", "walk"]) := by
    apply surveyed_of_chars
    · repeat apply append_ofList
      rfl
    · decide +kernel
  obtain ⟨ts, p, q, ws, m, hacc, hm, hq⟩ := surveyed_lower hrun
  obtain ⟨hdecls, htop⟩ := Prod.mk.inj hq
  exact ⟨ts, p, q, ws, m, hacc, hm, hdecls, htop, lower_closed q "walk" m hm⟩

/-- In the module that a text is compiled to, every function that the text declares without a body
is an external one. It goes by the name that it is declared with if and only if no function declared
before it goes by that name, and references to it go by the name that it goes by. -/
theorem compile_links_externals (file src : String) (out : Output)
    (h : compile file .ir src = .ok out) :
    ∃ ts p q ws m, Accepted src ts p q ws ∧ q.lower (moduleName file) = .ok m ∧
      out.artifact = m.text ∧
      (∀ d ∈ q.declarations, d.body = none → ∃ f, m.func? d.link = some f ∧ f.isExternal = true ∧
        d.Becomes f ∧ (f.name = d.sig.name.name ↔ d.sig.name.name ∉ initName :: d.vantage.links)) ∧
      (∀ d ∈ q.declarations, d.body.isSome →
        ∃ f, m.func? d.link = some f ∧ f.RefersTo q m d.targets) ∧
      ∀ f, m.func? initName = some f → f.RefersTo q m (Stmt.allTargets .start q) := by
  obtain ⟨ts, p, q, ws, hacc, -, -, hir⟩ := compile_inv (by decide) h
  obtain ⟨m, hm, htext⟩ := hir rfl
  refine ⟨ts, p, q, ws, m, hacc, hm, htext, fun d hd hbody => ?_, fun d hd hbody => ?_,
    fun f hf => ?_⟩
  · obtain ⟨f, hf, hbecomes⟩ := Program.lower_declared hm hd
    refine ⟨f, hf, ?_, hbecomes, ?_⟩
    · rw [hbecomes.isExternal, hbody]
      rfl
    · rw [hbecomes.name]
      exact Signature.link_eq_iff
  · obtain ⟨f, hf, hbecomes⟩ := Program.lower_declared hm hd
    exact ⟨f, hf, Program.lower_body hm hd (List.mem_of_find?_eq_some hf) hbecomes hbody⟩
  · have hname : f.name = initName := by simpa using List.find?_some hf
    exact Program.lower_init hm (List.mem_of_find?_eq_some hf) hname

/-- Functions without a body: one with a name that is free, and two with one name in functions
apart. -/
def siblingText : String :=
  "exit : fn (code: i32);\n" ++
  "g : fn \x7b puts : fn i32 (s: string); puts('a'); exit(1); \x7d\n" ++
  "h : fn \x7b puts : fn i32 (s: string); puts('b'); \x7d"

theorem compile_siblingText_links_externals : ∃ out, compile "main.tv" .ir siblingText = .ok out ∧
    ∃ ts p q ws m, Accepted siblingText ts p q ws ∧ q.lower "main" = .ok m ∧
      out.artifact = m.text ∧
      q.declarations.map (fun d => (d.sig.name.name, d.link, d.targets.map (·.link))) =
        [("exit", "exit", []), ("puts", "puts", []), ("g", "g", ["puts", "exit"]),
          ("puts", "puts.1", []), ("h", "h", ["puts.1"])] ∧
      (∀ d ∈ q.declarations, d.body = none → ∃ f, m.func? d.link = some f ∧ f.isExternal = true ∧
        d.Becomes f ∧ (f.name = d.sig.name.name ↔ d.sig.name.name ∉ initName :: d.vantage.links)) ∧
      (∀ d ∈ q.declarations, d.body.isSome →
        ∃ f, m.func? d.link = some f ∧ f.RefersTo q m d.targets) ∧
      ∀ f, m.func? initName = some f → f.RefersTo q m (Stmt.allTargets .start q) := by
  have hrun : surveyed siblingText (fun _ q _ => do
      let _ ← (q.lower "main").toOption
      return q.declarations.map fun d => (d.sig.name.name, d.link, d.targets.map (·.link))) =
        some [("exit", "exit", []), ("puts", "puts", []), ("g", "g", ["puts", "exit"]),
          ("puts", "puts.1", []), ("h", "h", ["puts.1"])] := by
    exact surveyed_of_chars (append_ofList (append_ofList rfl)) (by decide +kernel)
  have hname : moduleName "main.tv" = "main" := by decide +kernel
  obtain ⟨ts, p, q, ws, m, hacc, hm, -⟩ := surveyed_lower hrun
  obtain ⟨out, hout⟩ := hacc.compiles (hname ▸ hm)
  obtain ⟨ts, p, q, ws, m, hacc, hm, htext, hlinks⟩ := compile_links_externals _ _ _ hout
  rw [hname] at hm
  rw [hacc.surveyed, hm] at hrun
  exact ⟨out, hout, ts, p, q, ws, m, hacc, hm, htext, Option.some.inj hrun, hlinks⟩

/-- It is not so that every reference to a function without a body goes by the name that it is
declared with: functions apart may declare one each, and only the first keeps the name. -/
theorem compile_external_renamed : ¬ ∀ file src out, compile file .ir src = .ok out →
    ∀ ts p q ws m, Accepted src ts p q ws → q.lower (moduleName file) = .ok m →
    ∀ d ∈ q.declarations, d.body = none →
      (∃ f ∈ m.funcs, f.isExternal = true ∧ f.name = d.sig.name.name) ∧
      ∀ e ∈ q.declarations, ∀ f, m.func? e.link = some f →
        Forall₂ (fun name r => r = d.routine → name = d.sig.name.name) f.targets e.targets := by
  intro h
  have hrun : surveyed siblingText (fun _ q _ => do
      let m ← (q.lower (moduleName "main.tv")).toOption
      return q.declarations.any fun d => d.body.isNone && q.declarations.any fun e =>
        (m.func? e.link).any fun f => (f.targets.zip e.targets).any fun x =>
          x.2 = d.routine && x.1 ≠ d.sig.name.name) = some true := by
    exact surveyed_of_chars (append_ofList (append_ofList rfl)) (by decide +kernel)
  obtain ⟨ts, p, q, ws, m, hacc, hm, hany⟩ := surveyed_lower hrun
  obtain ⟨out, hout⟩ := hacc.compiles hm
  obtain ⟨d, hd, hd'⟩ := List.any_eq_true.mp hany
  obtain ⟨hbody, hd'⟩ := Bool.and_eq_true_iff.mp hd'
  obtain ⟨e, he, he'⟩ := List.any_eq_true.mp hd'
  cases hf : m.func? e.link with
  | none => simp [hf] at he'
  | some f =>
    rw [hf] at he'
    obtain ⟨x, hx, hx'⟩ := List.any_eq_true.mp he'
    obtain ⟨hroutine, hname⟩ := Bool.and_eq_true_iff.mp hx'
    have hbody : d.body = none := by simpa using hbody
    obtain ⟨-, hrefs⟩ := h _ _ _ hout ts p q ws m hacc hm d hd hbody
    have hkept := List.forall₂_zip (hrefs e he f hf) hx (of_decide_eq_true hroutine)
    exact of_decide_eq_true hname hkept

end Frontend
