import Frontend.Proofs.Correspondence
import Frontend.Proofs.Literals

/-!
Where a module has room for what has no value. Constants are never of type `void`. A cell, a field,
a parameter, a load or an operand is only where the program declares a variable, a member or a
parameter of that type, which nothing forbids.
-/
namespace Frontend

namespace Ir

def Content.ty : Content → Ty
  | .const ty _ | .cell ty | .param ty | .field ty => ty

/-- The type of what an operation holds, makes room for or reads. -/
def Op.storage? : Op → Option Ty
  | .const ty _ | .alloca ty | .load _ ty => some ty
  | _ => none

/-- Nothing that is stored, passed or worked on is of type `void`. -/
structure Module.Filled (m : Module) : Prop where
  fields : ∀ l ∈ m.structs, ∀ p ∈ l.fields, p.2 ≠ .void
  params : ∀ f ∈ m.funcs, ∀ p ∈ f.params, p.2 ≠ .void
  storage : ∀ f ∈ m.funcs, ∀ i ∈ f.instrs, i.op.storage? ≠ some .void
  operands : ∀ f ∈ m.funcs, f.isExternal = false → ∃ Γ, f.WellTyped .strict m.Declares Γ ∧
    ∀ b ∈ f.blocks, ∀ k r, b.Uses k r → Γ r ≠ .void

theorem Constant.Fits.ne_void {ty : Ty} {c : Constant} (h : c.Fits ty) : ty ≠ .void := by
  rintro rfl
  cases c <;> cases h

theorem callResult_ne_void (ret : Ty) : callResult ret ≠ some .void := by
  unfold callResult
  split
  · exact nofun
  · rename_i hret
    exact fun h => hret (Option.some.inj h)

/-- An operation gives nothing of type `void` unless it loads it. -/
theorem Op.Typed.ne_void {declared : String → List Ty → Ty → Prop} {has : Reg → Ty → Prop} {op : Op}
    {v : Option Ty} (h : op.Typed .strict declared has v) (hloads : op.loadsNoVoid) :
    v ≠ some .void := by
  cases h with
  | const hc => exact fun h => Constant.Fits.ne_void hc (Option.some.inj h)
  | bits _ hty | floats _ hty | neg hty | fneg hty | not hty =>
    rintro ⟨⟩
    cases hty
  | icmp | fcmp | alloca | fieldPtr | funcRef | inttoptr => exact nofun
  | sext _ _ ht | trunc _ _ ht | fpext _ _ ht | fptrunc _ _ ht | zext _ ht | sitofp _ _ ht
  | fptosi _ _ ht | ptrtoint _ ht =>
    rintro ⟨⟩
    cases ht
  | load => exact fun h => of_decide_eq_true hloads (Option.some.inj h)
  | store => exact nofun
  | call | callPtr => exact callResult_ne_void _

/-- What is worked on is a parameter or was given by an operation. -/
theorem Func.WellFormed.operand_ne_void {f : Func} (hwf : f.WellFormed)
    {declared : String → List Ty → Ty → Prop} {Γ : Reg → Ty} (hty : f.WellTyped .strict declared Γ)
    (hparams : ∀ p ∈ f.params, p.2 ≠ .void) (hloads : f.loadsNoVoid) :
    ∀ b ∈ f.blocks, ∀ k r, b.Uses k r → Γ r ≠ .void := by
  intro b hb k r huse
  obtain hparam | ⟨hres, -⟩ := hwf.defined b hb k r huse
  · obtain ⟨p, hp, rfl⟩ := List.mem_map.mp hparam
    rw [hty.params p hp]
    exact hparams p hp
  · obtain ⟨i, hi, hr⟩ := List.mem_filterMap.mp hres
    have htyped := hty.instrs i hi
    rw [hr] at htyped
    exact fun hvoid => htyped.ne_void (List.all_eq_true.mp hloads i hi) (congrArg some hvoid)

/-- Contents of type `void` are fields, parameters, cells or constants of it. -/
theorem Module.contents_ne_void {m : Module} : (∀ c ∈ m.contents, c.ty ≠ .void) ↔
    (∀ l ∈ m.structs, ∀ p ∈ l.fields, p.2 ≠ .void) ∧ (∀ f ∈ m.funcs, ∀ p ∈ f.params, p.2 ≠ .void) ∧
      ∀ f ∈ m.funcs, ∀ i ∈ f.instrs, ∀ c, i.op.content? = some c → c.ty ≠ .void := by
  constructor
  · intro h
    refine ⟨fun l hl p hp => ?_, fun f hf p hp => ?_, fun f hf i hi c hc => ?_⟩
    · exact h _ (mem_contents.mpr (.inr ⟨l, hl, p, hp, rfl⟩))
    · exact h _ (mem_contents.mpr (.inl ⟨f, hf, .inl ⟨p, hp, rfl⟩⟩))
    · exact h _ (mem_contents.mpr (.inl ⟨f, hf, .inr ⟨i, hi, hc⟩⟩))
  · rintro ⟨hfields, hparams, hops⟩ c hc
    obtain ⟨f, hf, ⟨p, hp, rfl⟩ | ⟨i, hi, hop⟩⟩ | ⟨l, hl, p, hp, rfl⟩ := mem_contents.mp hc
    · exact hparams f hf p hp
    · exact hops f hf i hi c hop
    · exact hfields l hl p hp

/-- An operation stores nothing of type `void` if it neither holds nor loads it. -/
theorem Op.storage?_ne_void {op : Op} :
    op.storage? ≠ some .void ↔ (∀ c, op.content? = some c → c.ty ≠ .void) ∧ op.loadsNoVoid := by
  cases op <;> simp [Op.storage?, Op.content?, Op.loadsNoVoid, Content.ty]

end Ir

/-- What stands for an item is of type `void` if the item is. -/
theorem Item.Becomes.isHollow_iff {x : Item} {c : Ir.Content} (h : x.Becomes c) (hx : x.Apt) :
    x.isHollow ↔ c.ty = .void := by
  cases x with
  | literal v ty =>
    cases c with
    | const t k =>
      obtain ⟨hty, -⟩ : ty.LowersTo t ∧ k = v.constant := h
      exact ⟨nofun, fun hvoid => absurd hvoid (hty.ne_void (hx : v.Apt ty).ofType.not_isHollow)⟩
    | _ => cases h
  | «variable» ty =>
    cases c with
    | cell t => exact Ty.LowersTo.isHollow_iff h
    | _ => cases h
  | parameter ty =>
    cases c with
    | param t => exact Ty.PassedAs.isHollow_iff h
    | _ => cases h
  | member ty =>
    cases c with
    | field t => exact Ty.LowersTo.isHollow_iff h
    | _ => cases h

theorem Ir.Content.IsZero.ne_void {c : Ir.Content} (h : c.IsZero) : c.ty ≠ .void := by
  cases c with
  | const ty k =>
    rintro rfl
    obtain ⟨hint, -⟩ | ⟨hfloat, -⟩ := h
    · cases hint
    · cases hfloat
  | _ => cases h

theorem Item.Matches.ne_void_iff {xs : List Item} {cs : List Ir.Content} (h : Item.Matches xs cs)
    (hxs : ∀ x ∈ xs, x.Apt) : (∀ c ∈ cs, c.ty ≠ .void) ↔ ∀ x ∈ xs, x.isHollow = false := by
  constructor
  · intro hcs x hx
    obtain ⟨c, hc, hbec⟩ := h.shown x hx
    exact Bool.eq_false_iff.mpr fun hhollow => hcs c hc ((hbec.isHollow_iff (hxs x hx)).mp hhollow)
  · intro hsolid c hc
    obtain hzero | ⟨x, hx, hbec⟩ := h.told c hc
    · exact hzero.ne_void
    · intro hvoid
      have hhollow := (hbec.isHollow_iff (hxs x hx)).mpr hvoid
      rw [hsolid x hx] at hhollow
      cases hhollow

section Accepted

variable {src : String} {ts : List Token} {p q : Program} {ws : List (Located Warning)}
  {m : Ir.Module} {name : String}

theorem Accepted.const_ne_void (h : Accepted src ts p q ws) (hm : q.lower name = .ok m) :
    ∀ f ∈ m.funcs, ∀ i ∈ f.instrs, ∀ c, i.op ≠ .const .void c := by
  intro f hf i hi c hop
  have hc := Ir.Module.const_mem_contents.mpr ⟨f, hf, i, hi, hop⟩
  obtain hzero | ⟨x, hx, hbec⟩ := (h.lower_items hm).1.told _ hc
  · exact hzero.ne_void rfl
  · have hhollow := (hbec.isHollow_iff (h.items_apt x hx)).mpr rfl
    cases x with
    | literal => cases hhollow
    | _ => cases hbec

/-- Where nothing is declared to be of type `void`, nothing is. -/
theorem Accepted.filled (h : Accepted src ts p q ws) (hm : q.lower name = .ok m)
    (hsolid : ∀ x ∈ q.items, x.isHollow = false) : m.Filled := by
  obtain ⟨hmatches, hloads⟩ := h.lower_items hm
  have hloads := hloads hsolid
  obtain ⟨hfields, hparams, hops⟩ :=
    Ir.Module.contents_ne_void.mp ((hmatches.ne_void_iff h.items_apt).mpr hsolid)
  refine ⟨hfields, hparams, fun f hf i hi => ?_, fun f hf hext => ?_⟩
  · exact Ir.Op.storage?_ne_void.mpr ⟨hops f hf i hi, List.all_eq_true.mp (hloads f hf) i hi⟩
  · obtain ⟨hwf, Γ, hty⟩ := Program.lower_funcs h.obeys hm hf hext
    exact ⟨Γ, hty, hwf.operand_ne_void hty (hparams f hf) (hloads f hf)⟩

theorem Accepted.solid_of_filled (h : Accepted src ts p q ws) (hm : q.lower name = .ok m)
    (hfilled : m.Filled) : ∀ x ∈ q.items, x.isHollow = false := by
  refine ((h.lower_items hm).1.ne_void_iff h.items_apt).mp (Ir.Module.contents_ne_void.mpr ?_)
  refine ⟨hfilled.fields, hfilled.params, fun f hf i hi => ?_⟩
  exact (Ir.Op.storage?_ne_void.mp (hfilled.storage f hf i hi)).1

end Accepted

/-- Constants are never of type `void`, and nothing else is if and only if no variable, no parameter
and no member of the checked program is declared to be. -/
theorem compile_filled_iff (file src : String) (out : Output) (h : compile file .ir src = .ok out) :
    ∃ ts p q ws m, Accepted src ts p q ws ∧ q.lower (moduleName file) = .ok m ∧
      out.artifact = m.text ∧ (∀ f ∈ m.funcs, ∀ i ∈ f.instrs, ∀ c, i.op ≠ .const .void c) ∧
      (m.Filled ↔ ∀ x ∈ q.items, x.isHollow = false) := by
  obtain ⟨ts, p, q, ws, hacc, -, -, hir⟩ := compile_inv (by decide) h
  obtain ⟨m, hm, htext⟩ := hir rfl
  exact ⟨ts, p, q, ws, m, hacc, hm, htext, hacc.const_ne_void hm, hacc.solid_of_filled hm,
    hacc.filled hm⟩

/-- Pointers to `void`, functions that return nothing, and declarations of all kinds. -/
def solidText : String :=
  "P : struct \x7b at: *void; n: i32; \x7d\n" ++
  "f : fn (p: *void, g: fn) \x7b q : P; q.at = p; q.n = 1; g(); \x7d"

theorem compile_solidText_filled : ∃ out, compile "main.tv" .ir solidText = .ok out ∧
    ∃ ts p q ws m, Accepted solidText ts p q ws ∧ q.lower (moduleName "main.tv") = .ok m ∧
      q.items.map Item.isHollow = List.replicate 7 false ∧ m.Filled := by
  have hrun : surveyed solidText (fun _ q _ => do
      let _ ← (q.lower (moduleName "main.tv")).toOption
      return q.items.map Item.isHollow) = some (List.replicate 7 false) := by
    exact surveyed_of_chars (append_ofList rfl) (by decide +kernel)
  obtain ⟨ts, p, q, ws, m, hacc, hm, -⟩ := surveyed_lower hrun
  obtain ⟨out, hout⟩ := hacc.compiles hm
  obtain ⟨ts, p, q, ws, m, hacc, hm, -, -, hfilled⟩ := compile_filled_iff _ _ _ hout
  rw [hacc.surveyed, hm] at hrun
  have hq := Option.some.inj hrun
  refine ⟨out, hout, ts, p, q, ws, m, hacc, hm, hq, hfilled.mpr fun x hx => ?_⟩
  have hmem := hq ▸ List.mem_map_of_mem hx
  exact (List.mem_replicate.mp hmem).2

/-- It is not so that a module has no room for `void`: a variable may be declared to be of that
type, and read. -/
theorem compile_void_stored : ¬ ∀ file src out, compile file .ir src = .ok out →
    ∀ ts p q ws m, Accepted src ts p q ws → q.lower (moduleName file) = .ok m → m.Filled := by
  intro h
  have hrun : surveyed "x : void; printf('%d', x);" (fun _ q _ => do
      let m ← (q.lower (moduleName "main.tv")).toOption
      return m.funcs.any fun f => f.instrs.any fun i => i.op.storage? = some .void) =
      some true := by
    decide +kernel
  obtain ⟨ts, p, q, ws, m, hacc, hm, hany⟩ := surveyed_lower hrun
  obtain ⟨out, hout⟩ := hacc.compiles hm
  obtain ⟨f, hf, hinstrs⟩ := List.any_eq_true.mp hany
  obtain ⟨i, hi, hvoid⟩ := List.any_eq_true.mp hinstrs
  exact (h _ _ _ hout _ _ _ _ _ hacc hm).storage f hf i hi (of_decide_eq_true hvoid)

end Frontend
