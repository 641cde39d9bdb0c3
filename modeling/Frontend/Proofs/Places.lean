import Frontend.Proofs.Junctions
import Frontend.Proofs.Records
import Mathlib.Data.List.Pairwise

/-!
Where values are kept. A load is in place if it reads the cell of a variable, a field, or a struct
behind its address; it strays if it goes through a pointer that was computed to something else. The
types of registers have as many pointers as the rank of what is in them, so that the junctions of a
program can account for its loads.
-/
namespace Frontend

namespace Ir

/-- How many pointers there are around a type. -/
def Ty.depth : Ty → Nat
  | .ptr t => t.depth + 1
  | _ => 0

@[simp] theorem Ty.depth_ptrs (t : Ty) (n : Nat) : (t.ptrs n).depth = t.depth + n := by
  induction n with
  | zero => rfl
  | succ n ih => simp [ptrs, depth, ih, Nat.add_assoc]

def Ty.isNumber (t : Ty) : Bool := t.isFloat || t.isBits

theorem Ty.depth_of_isNumber {t : Ty} (h : t.isNumber) : t.depth = 0 ∧ t.isAggregate = false := by
  cases t <;> simp_all [isNumber, isFloat, isBits, isInt, depth, isAggregate]

/-- What the operation gives is where a `ty` is kept: the cell of a variable, or a field. -/
def Op.locates (ty : Ty) : Op → Bool
  | .alloca t => t = ty
  | .fieldPtr _ _ => true
  | _ => false

/-- A load is of a struct, or from where `code` has made a place for what is loaded. -/
def Op.inPlace (code : List Instr) : Op → Bool
  | .load r ty => ty.isAggregate || code.any fun i => i.result = some r && i.op.locates ty
  | _ => true

def Func.loadsInPlace (f : Func) : Bool := f.instrs.all fun i => i.op.inPlace f.instrs

def Op.isLoad : Op → Bool
  | .load _ _ => true
  | _ => false

def Op.isAddress : Op → Bool
  | .alloca _ | .fieldPtr _ _ => true
  | _ => false

/-- The register is a parameter, or has a value that is not the address of a cell or of a field. -/
def Derived (params : List (Reg × Ty)) (code : List Instr) (r : Reg) : Prop :=
  r ∈ params.map Prod.fst ∨ ∃ i ∈ code, i.result = some r ∧ i.op.isAddress = false

/-- A load of something that is no struct, through a pointer that was computed. -/
def Op.Strays (params : List (Reg × Ty)) (code : List Instr) (op : Op) : Prop :=
  ∃ r ty, op = .load r ty ∧ ty.isAggregate = false ∧ Derived params code r

def Func.Strays (f : Func) : Prop :=
  f.isExternal = false ∧ ∃ i ∈ f.instrs, i.op.Strays f.params f.instrs

section Places

variable {params : List (Reg × Ty)} {code code' : List Instr} {op : Op}

theorem Op.inPlace_of_isLoad (h : op.isLoad = false) : op.inPlace code := by
  cases op <;> first | rfl | simp [isLoad] at h

theorem Op.inPlace_mono (hsub : code ⊆ code') (h : op.inPlace code) : op.inPlace code' := by
  cases op with
  | load r ty =>
    refine Bool.or_eq_true_iff.mpr ((Bool.or_eq_true_iff.mp h).imp_right fun h => ?_)
    obtain ⟨i, hi, hr⟩ := List.any_eq_true.mp h
    exact List.any_eq_true.mpr ⟨i, hsub hi, hr⟩
  | _ => rfl

theorem Derived.mono (hsub : code ⊆ code') {r : Reg} (h : Derived params code r) :
    Derived params code' r :=
  h.imp_right fun ⟨i, hi, hr⟩ => ⟨i, hsub hi, hr⟩

theorem Op.Strays.mono (hsub : code ⊆ code') (h : op.Strays params code) :
    op.Strays params code' := by
  obtain ⟨r, ty, rfl, hagg, hr⟩ := h
  exact ⟨r, ty, rfl, hagg, hr.mono hsub⟩

/-- Registers are assigned once, so what is computed is not the place of anything. -/
theorem Func.WellFormed.not_strays {f : Func} (hf : f.WellFormed) (h : f.loadsInPlace) :
    ¬ f.Strays := by
  rintro ⟨-, i, hi, r, ty, hop, hagg, hr⟩
  have hplace := List.all_eq_true.mp h i hi
  rw [hop, Op.inPlace, hagg, Bool.false_or] at hplace
  obtain ⟨j, hj, hjr⟩ := List.any_eq_true.mp hplace
  obtain ⟨hres, hloc⟩ := Bool.and_eq_true_iff.mp hjr
  have hres : j.result = some r := of_decide_eq_true hres
  have hmem : r ∈ results f.instrs := List.mem_filterMap.mpr ⟨j, hj, hres⟩
  rcases hr with hparam | ⟨k, hk, hkr, haddr⟩
  · rw [hf.params] at hparam
    rw [hf.numbering] at hmem
    have hlow := (mem_regsFrom.mp hparam).2
    have hhigh := (mem_regsFrom.mp hmem).1
    omega
  · have hne : j ≠ k := by
      rintro rfl
      cases hop : j.op <;> simp_all [Op.locates, Op.isAddress]
    have hnodup : (results f.instrs).Nodup := by
      rw [hf.numbering]
      exact (List.nodup_range').map fun _ _ h => Reg.mk.inj h
    have hapart := List.pairwise_filterMap.mp hnodup
    have hsymm : Std.Symm fun i j : Instr => ∀ r, i.result = some r → ∀ r', j.result = some r' →
        r ≠ r' := ⟨fun _ _ h r hr r' hr' => (h r' hr' r hr).symm⟩
    exact hapart.forall hj hk hne r hres r hkr rfl

end Places

/-- The account of the loads in `code`, which is in the function at hand, and of those in `fs`, by
junctions: each is on the level, or it was not checked and is one pointer deep. If all are on the
level, then the loads are in place, and otherwise one strays. -/
structure Builder.Accounts (b : Builder) (code : List Instr) (fs : List Func) (js : List Junction) :
    Prop where
  fits : ∀ j ∈ js, j.isLevel ∨ j.checked = false ∧ j.isDeep
  level : (∀ j ∈ js, j.isLevel) →
    (∀ i ∈ code, i.op.inPlace b.code) ∧ ∀ f ∈ fs, f.loadsInPlace
  deep : (∃ j ∈ js, ¬ j.isLevel) →
    (∃ i ∈ code, i.op.Strays b.params b.code) ∨ ∃ f ∈ fs, f.Strays

namespace Builder.Accounts

variable {b b' : Builder} {code code' : List Instr} {fs fs' : List Func} {js js' : List Junction}
  {j : Junction}

/-- Loads that are in place need no junctions. -/
theorem nil (hcode : ∀ i ∈ code, i.op.inPlace b.code) (hfs : ∀ f ∈ fs, f.loadsInPlace) :
    b.Accounts code fs [] :=
  ⟨nofun, fun _ => ⟨hcode, hfs⟩, nofun⟩

/-- More code may follow. -/
theorem mono (h : b.Accounts code fs js) (hcode : b.code ⊆ b'.code)
    (hparams : b'.params = b.params) : b'.Accounts code fs js where
  fits := h.fits
  level := fun hjs => ⟨fun i hi => Op.inPlace_mono hcode ((h.level hjs).1 i hi), (h.level hjs).2⟩
  deep := fun hjs => (h.deep hjs).imp_left fun ⟨i, hi, hs⟩ => ⟨i, hi, hparams ▸ hs.mono hcode⟩

theorem append (h : b.Accounts code fs js) (h' : b.Accounts code' fs' js') :
    b.Accounts (code ++ code') (fs ++ fs') (js ++ js') where
  fits := fun j hj => (List.mem_append.mp hj).elim (h.fits j) (h'.fits j)
  level := by
    intro hjs
    obtain ⟨hl, hf⟩ := h.level fun j hj => hjs j (List.mem_append_left _ hj)
    obtain ⟨hl', hf'⟩ := h'.level fun j hj => hjs j (List.mem_append_right _ hj)
    exact ⟨fun i hi => (List.mem_append.mp hi).elim (hl i) (hl' i),
      fun f hi => (List.mem_append.mp hi).elim (hf f) (hf' f)⟩
  deep := by
    rintro ⟨j, hj, hlevel⟩
    rcases List.mem_append.mp hj with hj | hj
    · exact (h.deep ⟨j, hj, hlevel⟩).imp (fun ⟨i, hi, hs⟩ => ⟨i, List.mem_append_left _ hi, hs⟩)
        fun ⟨f, hf, hs⟩ => ⟨f, List.mem_append_left _ hf, hs⟩
    · exact (h'.deep ⟨j, hj, hlevel⟩).imp (fun ⟨i, hi, hs⟩ => ⟨i, List.mem_append_right _ hi, hs⟩)
        fun ⟨f, hf, hs⟩ => ⟨f, List.mem_append_right _ hf, hs⟩

/-- A junction on the level costs nothing. -/
theorem ofLevel (hcode : ∀ i ∈ code, i.op.inPlace b.code) (hj : j.isLevel) :
    b.Accounts code [] [j] where
  fits := by simpa using .inl hj
  level := fun _ => ⟨hcode, nofun⟩
  deep := by simp [hj]

theorem drop (h : b.Accounts code fs [j]) (hj : j.isLevel) : b.Accounts code fs [] :=
  ⟨nofun, fun _ => h.level (by simpa using hj), nofun⟩

/-- One that is deeper is paid for with a load. -/
theorem ofDeep {r : Reg} {ty : Ty} {res : Option Reg} (hr : Derived b.params b.code r)
    (hagg : ty.isAggregate = false) (hchecked : j.checked = false) (hj : j.isDeep) :
    b.Accounts [⟨res, .load r ty⟩] [] [j] where
  fits := by simpa using .inr ⟨hchecked, hj⟩
  level := by
    intro hjs
    have hlevel := of_decide_eq_true (hjs j List.mem_cons_self)
    have hdeep := of_decide_eq_true hj
    omega
  deep := fun _ => .inl ⟨_, List.mem_cons_self, r, ty, rfl, hagg, hr⟩

end Builder.Accounts

end Ir

namespace Ty

variable {ty : Ty} {t : Ir.Ty}

/-- The parts of a lowered type. -/
theorem LowersTo.inv (h : ty.LowersTo t) : ∃ u, t = u.ptrs ty.levels.toNat ∧
    match ty with
    | .prim p _ => p.lower? = some u
    | .struct _ _ | .inst _ _ => u.isAggregate
    | .fn ret _ => ∃ r, ret.LowersTo r ∧ u = .fn [] r := by
  obtain ⟨names, hn, h⟩ := h
  cases ty with
  | prim p n =>
    simp only [Ty.lower] at h
    split at h
    · rename_i u hu
      exact ⟨u, (Except.ok.inj h).symm, hu⟩
    · simp at h
  | struct s n | inst s n =>
    simp only [Ty.lower] at h
    split at h
    · rename_i u hu
      exact ⟨u, (Except.ok.inj h).symm, hn.isAggregate hu⟩
    · simp at h
  | fn ret n =>
    obtain ⟨r, hr, h⟩ := bind_eq_ok.mp h
    exact ⟨_, (Except.ok.inj h).symm, r, ⟨names, hn, hr⟩, rfl⟩

theorem LowersTo.prim {p : Prim} (h : p.lower? = some t) : (Ty.prim p 0).LowersTo t := by
  refine ⟨.empty, ?_, by simp [Ty.lower, h, Ir.Ty.ptrs]⟩
  simp [ScopeTable.LaidOut, ScopeTable.visible, ScopeTable.visibleFrom, ScopeTable.empty]

theorem LowersTo.flat (h : ty.LowersTo t) : t.Flat := by
  obtain ⟨names, hn, h⟩ := h
  exact Ty.lower_flat hn ty h

theorem LowersTo.depth (h : ty.LowersTo t) (hagg : t.isAggregate = false) : t.depth = ty.rank := by
  obtain ⟨u, rfl, hu⟩ := h.inv
  rw [Ir.Ty.depth_ptrs]
  cases ty with
  | prim p n =>
    cases p <;> simp_all [Prim.lower?] <;> subst hu <;> simp [Ir.Ty.depth, rank,
      levels, Nat.add_comm]
  | struct s n | inst s n =>
    have hzero : u.depth = 0 := by cases u <;> simp_all [Ir.Ty.isAggregate, Ir.Ty.depth]
    have hn : n.toNat ≠ 0 := by
      intro hn
      simp [levels, hn, Ir.Ty.ptrs, hu] at hagg
    simp only [levels, rank, hzero]
    omega
  | fn ret n =>
    obtain ⟨r, -, rfl⟩ := hu
    simp [Ir.Ty.depth, rank, levels]

theorem LowersTo.rank_of_isAggregate (h : ty.LowersTo t) (hagg : t.isAggregate) : ty.rank = 1 := by
  obtain ⟨u, rfl, hu⟩ := h.inv
  have hn : ty.levels.toNat = 0 := by
    cases hn : ty.levels.toNat with
    | zero => rfl
    | succ n => simp [hn, Ir.Ty.ptrs, Ir.Ty.isAggregate] at hagg
  rw [hn, Ir.Ty.ptrs] at hagg
  cases ty with
  | prim p n => cases p <;> simp [Prim.lower?] at hu <;> simp [← hu, Ir.Ty.isAggregate] at hagg
  | struct s n | inst s n =>
    have hmax : max 1 n.toNat = 1 := by
      rw [show n.toNat = 0 from hn]
      rfl
    exact hmax
  | fn ret n =>
    obtain ⟨r, -, rfl⟩ := hu
    simp [Ir.Ty.isAggregate] at hagg

/-- The address of an integer. -/
theorem LowersTo.addressed (h : ty.LowersTo t) (ht : t.isInt) (hg : ty.Grounded) :
    (ty.addLevels 1).LowersTo (.ptr t) := by
  obtain ⟨u, rfl, hu⟩ := h.inv
  obtain ⟨names, hn, -⟩ := h
  have hzero : ty.levels.toNat = 0 := by
    cases hn : ty.levels.toNat with
    | zero => rfl
    | succ n => simp [hn, Ir.Ty.ptrs, Ir.Ty.isInt] at ht
  rw [hzero, Ir.Ty.ptrs] at ht ⊢
  cases ty with
  | prim p n =>
    have hlevels : 0 ≤ n := hg.levels
    obtain rfl : n = 0 := by
      have : n.toNat = 0 := hzero
      omega
    refine ⟨names, hn, ?_⟩
    show (Ty.prim p 1).lower names = _
    simp [Ty.lower, show p.lower? = some u from hu, Ir.Ty.ptrs]
  | struct s n | inst s n => cases u <;> simp_all [Ir.Ty.isAggregate, Ir.Ty.isInt]
  | fn ret n =>
    obtain ⟨r, -, rfl⟩ := hu
    simp [Ir.Ty.isInt] at ht

/-- An integer behind its address. A string is not one, for its address is no pointer level. -/
theorem LowersTo.deref (h : ty.LowersTo (.ptr t)) (ht : t.isInt)
    (hlevels : 0 ≤ (ty.addLevels (-1)).levels) : (ty.addLevels (-1)).LowersTo t := by
  obtain ⟨u, heq, hu⟩ := h.inv
  obtain ⟨names, hn, -⟩ := h
  rw [addLevels, levels_withLevels, clampLevels] at hlevels
  have hpos : ty.levels.toNat ≠ 0 := by omega
  obtain ⟨k, hk⟩ := Nat.exists_eq_succ_of_ne_zero hpos
  rw [hk, Ir.Ty.ptrs] at heq
  obtain rfl := Ir.Ty.ptr.inj heq
  obtain rfl : k = 0 := by
    cases k with
    | zero => rfl
    | succ k => simp [Ir.Ty.ptrs, Ir.Ty.isInt] at ht
  rw [Ir.Ty.ptrs] at ht ⊢
  cases ty with
  | prim p n =>
    obtain rfl : n = 1 := by
      have : n.toNat = 1 := hk
      omega
    refine ⟨names, hn, ?_⟩
    show (Ty.prim p 0).lower names = _
    simp [Ty.lower, show p.lower? = some u from hu, Ir.Ty.ptrs]
  | struct s n | inst s n => cases u <;> simp_all [Ir.Ty.isAggregate, Ir.Ty.isInt]
  | fn ret n =>
    obtain ⟨r, -, rfl⟩ := hu
    simp [Ir.Ty.isInt] at ht

/-- The type of a register with a parameter of the type, or with what is read of a variable: a
struct is known by its address. -/
def PassedAs (ty : Ty) (t : Ir.Ty) : Prop :=
  ∃ u, ty.LowersTo u ∧ t = if u.isAggregate then .ptr u else u

theorem PassedAs.isAggregate (h : ty.PassedAs t) : t.isAggregate = false := by
  obtain ⟨u, -, rfl⟩ := h
  cases hu : u.isAggregate
  · simpa using hu
  · rfl

theorem PassedAs.depth (h : ty.PassedAs t) : t.depth = ty.rank := by
  obtain ⟨u, hlow, rfl⟩ := h
  cases hu : u.isAggregate with
  | false => simpa using hlow.depth hu
  | true =>
    rw [hlow.rank_of_isAggregate hu]
    cases u <;> simp_all [Ir.Ty.isAggregate, Ir.Ty.depth]

theorem PassedAs.flat (h : ty.PassedAs t) : t.Flat := by
  obtain ⟨u, hlow, rfl⟩ := h
  split
  · trivial
  · exact hlow.flat

/-- The type of a register with a value of the type. Only a function that was named has
parameters. -/
inductive CarriedAs (ty : Ty) (t : Ir.Ty) : Prop where
  | lowered : ty.LowersTo t → CarriedAs ty t
  | passed : ty.PassedAs t → CarriedAs ty t
  | function {ret r params} : ty = .fn ret 0 → ret.LowersTo r → t = .fn params r → CarriedAs ty t

theorem CarriedAs.depth (h : ty.CarriedAs t) (hagg : t.isAggregate = false) :
    t.depth = ty.rank := by
  cases h with
  | lowered h => exact h.depth hagg
  | passed h => exact h.depth
  | function hty _ ht =>
    rw [hty, ht]
    rfl

/-- Integers and their addresses are what the type is lowered to. -/
theorem CarriedAs.integer (h : ty.CarriedAs t) {i : Ir.Ty} (hi : i.isInt)
    (ht : t = i ∨ t = .ptr i) : ty.LowersTo t := by
  cases h with
  | lowered h => exact h
  | passed h =>
    obtain ⟨u, hlow, rfl⟩ := h
    cases hu : u.isAggregate with
    | false => simpa [hu] using hlow
    | true =>
      simp only [hu, if_true] at ht
      rcases ht with rfl | ht
      · simp [Ir.Ty.isInt] at hi
      · obtain rfl := Ir.Ty.ptr.inj ht
        cases u <;> simp_all [Ir.Ty.isAggregate, Ir.Ty.isInt]
  | function _ _ hfn =>
    subst hfn
    rcases ht with rfl | ht
    · simp [Ir.Ty.isInt] at hi
    · cases ht

/-- What a function of the type returns. -/
theorem CarriedAs.returns {params : List Ir.Ty} {r : Ir.Ty} (h : ty.CarriedAs (.fn params r))
    {rty : Ty} (hret : ty.return? = some rty) : rty.LowersTo r := by
  have hlowered : ty.LowersTo (.fn params r) → rty.LowersTo r := by
    intro h
    obtain ⟨u, heq, hu⟩ := h.inv
    cases ty with
    | fn ret n =>
      obtain rfl := Option.some.inj hret
      obtain ⟨r', hr', rfl⟩ := hu
      cases hn : (Ty.fn ret n).levels.toNat with
      | zero =>
        rw [hn] at heq
        obtain ⟨-, rfl⟩ := Ir.Ty.fn.inj heq
        exact hr'
      | succ k =>
        rw [hn] at heq
        cases heq
    | _ => simp [return?] at hret
  cases h with
  | lowered h => exact hlowered h
  | passed h =>
    obtain ⟨u, hlow, heq⟩ := h
    split at heq
    · cases heq
    · exact hlowered (heq ▸ hlow)
  | function hty hr heq =>
    subst hty
    obtain rfl := Option.some.inj hret
    obtain ⟨-, rfl⟩ := Ir.Ty.fn.inj heq
    exact hr

end Ty

end Frontend
