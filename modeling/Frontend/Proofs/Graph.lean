import Frontend.Lowering.Builder
import Frontend.Proofs.Typing

/-!
Control-flow graphs of functions: which blocks control can pass on its way to a block, and what
makes a function well formed. Then functions under construction: a certificate says which registers
are sure to be assigned where a block starts, and every step of construction keeps a certificate.
-/
namespace Frontend.Ir

/-- Registers that instructions assign, in order. -/
def results (code : List Instr) : List Reg := code.filterMap (·.result)

@[simp] theorem results_nil : results [] = [] := rfl

@[simp] theorem results_append (is js : List Instr) :
    results (is ++ js) = results is ++ results js :=
  List.filterMap_append

/-- `k` registers from number `n` on. -/
def regsFrom (n k : Nat) : List Reg := (List.range' n k).map Reg.mk

@[simp] theorem regsFrom_zero (n : Nat) : regsFrom n 0 = [] := rfl

@[simp] theorem length_regsFrom (n k : Nat) : (regsFrom n k).length = k := by simp [regsFrom]

theorem mem_regsFrom {n k : Nat} {r : Reg} : r ∈ regsFrom n k ↔ n ≤ r.index ∧ r.index < n + k := by
  cases r
  simp [regsFrom]

theorem regsFrom_append (n k l : Nat) :
    regsFrom n k ++ regsFrom (n + k) l = regsFrom n (k + l) := by
  rw [regsFrom, regsFrom, ← List.map_append, regsFrom]
  simp

theorem regsFrom_succ (n k : Nat) : regsFrom n (k + 1) = ⟨n⟩ :: regsFrom (n + 1) k := by
  simp [regsFrom, List.range'_succ]

@[simp] theorem numbered_fst (tys : List Ty) :
    (numbered tys).map Prod.fst = regsFrom 0 tys.length := by
  apply List.ext_getElem <;> simp [numbered, regsFrom]

@[simp] theorem numbered_snd (tys : List Ty) : (numbered tys).map Prod.snd = tys := by
  apply List.ext_getElem <;> simp [numbered]

@[simp] theorem length_numbered (tys : List Ty) : (numbered tys).length = tys.length := by
  simp [numbered]

/-- Control can go from the first block of `f` through the blocks `p`, in this order, to a block. -/
inductive Func.Path (f : Func) : List Block → Block → Prop where
  | entry {b : Block} : f.blocks.head? = some b → Path f [] b
  | step {p : List Block} {b c : Block} {t : Terminator} : Path f p b → b.terminator = some t →
      c ∈ f.blocks → c.id ∈ t.targets → Path f (p ++ [b]) c

/-- A register is read by the instruction with `k` others before it in the block, or by the
terminator after all `k` of them. -/
def Block.Uses (b : Block) (k : Nat) (r : Reg) : Prop :=
  (∃ i, b.instrs[k]? = some i ∧ r ∈ i.op.uses) ∨
    (k = b.instrs.length ∧ ∃ t, b.terminator = some t ∧ r ∈ t.uses)

/-- A function in static single assignment form, over a closed control-flow graph. -/
structure Func.WellFormed (f : Func) : Prop where
  entry : (f.blocks.map (·.id)).head? = some ⟨0⟩
  distinct : (f.blocks.map (·.id)).Nodup
  terminated : ∀ b ∈ f.blocks, b.terminator.isSome
  targets : ∀ b ∈ f.blocks, ∀ t, b.terminator = some t → ∀ id ∈ t.targets,
    ∃ c ∈ f.blocks, c.id = id
  params : f.params.map Prod.fst = regsFrom 0 f.params.length
  numbering : results f.instrs = regsFrom f.params.length (results f.instrs).length
  /-- On every way to a use, what it reads has been assigned before. -/
  defined : ∀ b ∈ f.blocks, ∀ k r, b.Uses k r → r ∈ f.params.map Prod.fst ∨
    r ∈ results f.instrs ∧
      ∀ p, f.Path p b → r ∈ results (p.flatMap Block.instrs ++ b.instrs.take k)

/-- Types of all registers so far, and the registers that are sure to be assigned. -/
structure Ctx where
  types : List Ty
  avail : List Reg

namespace Ctx

def Has (c : Ctx) (r : Reg) (ty : Ty) : Prop := r ∈ c.avail ∧ c.types[r.index]? = some ty

def next (c : Ctx) : Reg := ⟨c.types.length⟩

/-- The next register is assigned a value of type `ty`. -/
def push (c : Ctx) (ty : Ty) : Ctx := ⟨c.types ++ [ty], c.avail ++ [c.next]⟩

structure Le (c c' : Ctx) : Prop where
  types : c.types <+: c'.types
  avail : c.avail ⊆ c'.avail

theorem Le.refl (c : Ctx) : c.Le c := ⟨List.prefix_rfl, List.Subset.refl _⟩

theorem Le.trans {c c' c'' : Ctx} (h : c.Le c') (h' : c'.Le c'') : c.Le c'' :=
  ⟨h.types.trans h'.types, List.Subset.trans h.avail h'.avail⟩

theorem le_push (c : Ctx) (ty : Ty) : c.Le (c.push ty) :=
  ⟨List.prefix_append _ _, List.subset_append_left _ _⟩

theorem getElem?_of_prefix {s t : List Ty} (h : s <+: t) {i : Nat} {ty : Ty}
    (hi : s[i]? = some ty) : t[i]? = some ty := by
  obtain ⟨u, rfl⟩ := h
  rwa [List.getElem?_append_left (List.getElem?_eq_some_iff.mp hi).1]

theorem Le.has {c c' : Ctx} (h : c.Le c') {r : Reg} {ty : Ty} (hr : c.Has r ty) : c'.Has r ty :=
  ⟨h.avail hr.1, getElem?_of_prefix h.types hr.2⟩

/-- The parameters of a function are at hand where it starts. -/
theorem has_numbered {tys : List Ty} {p : Reg × Ty} (hp : p ∈ numbered tys) :
    (Ctx.mk tys (regsFrom 0 tys.length)).Has p.1 p.2 := by
  obtain ⟨i, hi, rfl⟩ := List.mem_mapIdx.mp hp
  exact ⟨mem_regsFrom.mpr ⟨Nat.zero_le _, by simpa using hi⟩, List.getElem?_eq_getElem hi⟩

theorem has_push (c : Ctx) (ty : Ty) : (c.push ty).Has c.next ty := by
  simp [Has, push, next]

end Ctx

section Code

variable {P : Policy} {declared declared' : String → List Ty → Ty → Prop} {types types' : List Ty}

/-- Instructions that run one after the other, each typed where it stands and each that has a value
assigning the next register. -/
inductive Straight (P : Policy) (declared : String → List Ty → Ty → Prop) :
    Ctx → List Instr → Ctx → Prop where
  | nil {c} : Straight P declared c [] c
  | value {c op ty code c'} : op.Typed P declared c.Has (some ty) →
      Straight P declared (c.push ty) code c' →
      Straight P declared c (⟨some c.next, op⟩ :: code) c'
  | effect {c op code c'} : op.Typed P declared c.Has none → Straight P declared c code c' →
      Straight P declared c (⟨none, op⟩ :: code) c'

namespace Straight

theorem append {c₁ c₂ c₃ : Ctx} {is js : List Instr} (h : Straight P declared c₁ is c₂)
    (h' : Straight P declared c₂ js c₃) : Straight P declared c₁ (is ++ js) c₃ := by
  induction h with
  | nil => exact h'
  | value ht _ ih => exact .value ht (ih h')
  | effect ht _ ih => exact .effect ht (ih h')

variable {c c' : Ctx} {code : List Instr}

variable (h : Straight P declared c code c')

include h

theorem le : c.Le c' := by
  induction h with
  | nil => exact .refl _
  | value _ _ ih => exact (Ctx.le_push _ _).trans ih
  | effect _ _ ih => exact ih

theorem avail : c'.avail = c.avail ++ results code := by
  induction h with
  | nil => simp
  | value _ _ ih => simp [ih, Ctx.push, results]
  | effect _ _ ih => simpa [results] using ih

/-- Values go to the registers after those that are there already. -/
theorem numbering : regsFrom 0 c'.types.length = regsFrom 0 c.types.length ++ results code := by
  induction h with
  | nil => simp
  | @value c op ty code c' _ _ ih =>
    rw [ih]
    simp [Ctx.push, Ctx.next, results, ← regsFrom_append 0 c.types.length 1, regsFrom_succ]
  | effect _ _ ih => simpa [results] using ih

theorem length : c'.types.length = c.types.length + (results code).length := by
  have := congrArg List.length h.numbering
  simpa using this

end Straight

/-- Instructions of a block, typed with the types that registers have in the end, where `avail` is
assigned before them. -/
def Checked (P : Policy) (declared : String → List Ty → Ty → Prop) (types : List Ty) :
    List Reg → List Instr → Prop
  | _, [] => True
  | avail, i :: is =>
    (∃ t, i.op.Typed P declared (Ctx.mk types avail).Has t ∧
      t.map some = i.result.map fun r => types[r.index]?) ∧
    Checked P declared types (avail ++ i.result.toList) is

/-- The register for a value keeps its type. -/
theorem result_of_prefix (ht : types <+: types') {t : Option Ty} {res : Option Reg}
    (h : t.map some = res.map fun r => types[r.index]?) :
    t.map some = res.map fun r => types'[r.index]? := by
  cases res with
  | none => exact h
  | some r =>
    cases t with
    | none => simp at h
    | some ty =>
      have hty : types[r.index]? = some ty := by simpa [eq_comm] using h
      simp [Ctx.getElem?_of_prefix ht hty]

theorem Checked.mono (hd : ∀ f ps r, declared f ps r → declared' f ps r) (ht : types <+: types')
    {avail : List Reg} {code : List Instr} (h : Checked P declared types avail code) :
    Checked P declared' types' avail code := by
  induction code generalizing avail with
  | nil => trivial
  | cons i is ih =>
    obtain ⟨⟨t, hop, hres⟩, hrest⟩ := h
    have hle : (Ctx.mk types avail).Le ⟨types', avail⟩ := ⟨ht, List.Subset.refl _⟩
    exact ⟨⟨t, hop.mono hd fun _ _ => hle.has, result_of_prefix ht hres⟩, ih hrest⟩

theorem Checked.append {avail : List Reg} {is js : List Instr} :
    Checked P declared types avail (is ++ js) ↔
      Checked P declared types avail is ∧ Checked P declared types (avail ++ results is) js := by
  induction is generalizing avail with
  | nil => simp [Checked]
  | cons i is ih =>
    have : avail ++ results (i :: is) = avail ++ i.result.toList ++ results is := by
      cases hr : i.result <;> simp [results, hr]
    simp [Checked, ih, this, and_assoc]

theorem Straight.checked {c c' : Ctx} {code : List Instr} (h : Straight P declared c code c') :
    Checked P declared c'.types c.avail code := by
  induction h with
  | nil => trivial
  | @value c op ty code c' hop hrest ih =>
    have hle : (Ctx.mk c.types c.avail).Le ⟨c'.types, c.avail⟩ :=
      ⟨((Ctx.le_push c ty).trans hrest.le).types, List.Subset.refl _⟩
    refine ⟨⟨some ty, hop.mono (fun _ _ _ => id) fun _ _ => hle.has, ?_⟩, ih⟩
    have := Ctx.getElem?_of_prefix hrest.le.types (Ctx.has_push c ty).2
    simp [this]
  | @effect c op code c' hop hrest ih =>
    have hle : (Ctx.mk c.types c.avail).Le ⟨c'.types, c.avail⟩ :=
      ⟨hrest.le.types, List.Subset.refl _⟩
    refine ⟨⟨none, hop.mono (fun _ _ _ => id) fun _ _ => hle.has, rfl⟩, ?_⟩
    simpa using ih

end Code

end Frontend.Ir
