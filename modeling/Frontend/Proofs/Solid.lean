import Frontend.Proofs.Contents

/-!
Places where nothing in sight is of type `void`. A variable, a member or an argument is not, then,
and has the type it is declared with.
-/
namespace Frontend

open List (Forall₂)

namespace Ty

/-- The type of what has no value. -/
def isHollow : Ty → Bool
  | .prim .void n => n ≤ 0
  | _ => false

variable {ty : Ty} {t : Ir.Ty}

theorem LowersTo.isHollow_iff (h : ty.LowersTo t) : ty.isHollow ↔ t = .void := by
  obtain ⟨u, rfl, hu⟩ := h.inv
  cases hn : ty.levels.toNat with
  | succ n =>
    have hsome : ty.isHollow = false := by
      cases ty with
      | prim p m =>
        have : ¬ m ≤ 0 := by
          have : m.toNat = n + 1 := hn
          omega
        cases p <;> simp [isHollow, this]
      | _ => rfl
    simp [hsome, Ir.Ty.ptrs]
  | zero =>
    rw [Ir.Ty.ptrs]
    cases ty with
    | prim p m =>
      have hm : m ≤ 0 := by
        have : m.toNat = 0 := hn
        omega
      cases p <;> cases hu <;> simp [isHollow, hm]
    | struct s m | inst s m =>
      have hu : u.isAggregate := hu
      cases u <;> simp_all [isHollow, Ir.Ty.isAggregate]
    | fn ret m =>
      obtain ⟨r, -, rfl⟩ := hu
      simp [isHollow]

theorem PassedAs.isHollow_iff (h : ty.PassedAs t) : ty.isHollow ↔ t = .void := by
  obtain ⟨u, hlow, rfl⟩ := h
  rw [hlow.isHollow_iff]
  cases u <;> simp [Ir.Ty.isAggregate]

/-- Only what has no value is held in a register of that type. -/
theorem CarriedAs.eq_void (h : ty.CarriedAs t) (hty : ty.isHollow) : t = .void := by
  cases h with
  | lowered h => exact h.isHollow_iff.mp hty
  | passed h => exact h.isHollow_iff.mp hty
  | function hfn _ _ => simp [hfn, isHollow] at hty

theorem LowersTo.ne_void (h : ty.LowersTo t) (hty : ty.isHollow = false) : t ≠ .void := by
  intro hvoid
  simp [h.isHollow_iff.mpr hvoid] at hty

theorem PassedAs.ne_void (h : ty.PassedAs t) (hty : ty.isHollow = false) : t ≠ .void := by
  intro hvoid
  simp [h.isHollow_iff.mpr hvoid] at hty

theorem PassedAs.all_ne_void {tys : List Ty} {ts : List Ir.Ty} (h : Forall₂ PassedAs tys ts)
    (hsolid : ∀ ty ∈ tys, ty.isHollow = false) : ∀ t ∈ ts, t ≠ .void := by
  induction h with
  | nil => exact nofun
  | cons ht _ ih =>
    obtain ⟨hty, hrest⟩ := List.forall_mem_cons.mp hsolid
    exact List.forall_mem_cons.mpr ⟨ht.ne_void hty, ih hrest⟩

theorem not_isHollow_of_isNumeric (h : ty.isNumeric) : ty.isHollow = false := by
  cases ty with
  | prim p n =>
    cases p <;>
      first
      | rfl
      | simp [isNumeric, isInteger, isFloat, base, Base.isInteger, Base.isFloat] at h
  | _ => rfl

theorem not_isHollow_of_isVoid (hlevels : 0 ≤ ty.levels) (h : ty.isVoid = false) :
    ty.isHollow = false := by
  cases ty with
  | prim p n =>
    have hn : 0 ≤ n := hlevels
    cases p with
    | void =>
      have hne : n ≠ 0 := by
        rintro rfl
        cases h
      simp only [isHollow, decide_eq_false_iff_not]
      omega
    | _ => rfl
  | _ => rfl

end Ty

theorem Value.Matches.not_isHollow {v : Value} {ty : Ty} (h : v.Matches ty) :
    ty.isHollow = false := by
  cases v with
  | int n => exact Ty.not_isHollow_of_isNumeric (by simp [Ty.isNumeric, show ty.isInteger from h])
  | float x => exact Ty.not_isHollow_of_isNumeric (by simp [Ty.isNumeric, show ty.isFloat from h])
  | str s =>
    obtain rfl : ty = .string := h
    rfl
  | bool b =>
    obtain rfl : ty = .bool := h
    rfl

def Item.isHollow : Item → Bool
  | .literal _ _ => false
  | .variable ty | .parameter ty | .member ty => ty.isHollow

/-- Nothing in sight is of type `void`, and no function takes it. -/
structure Vantage.Solid (w : Vantage) : Prop where
  names : ∀ x ∈ w.sight, x.ty.isHollow = false
  members : ∀ x ∈ w.sight, ∀ ms ∈ x.members, ∀ m ∈ ms, m.ty.isHollow = false
  routines : ∀ r ∈ w.outlook.routines, ∀ ty ∈ r.params, ty.isHollow = false

namespace Vantage.Solid

variable {w : Vantage} {e : Expr} {ty : Ty}

theorem ident (h : w.Solid) {id : Ident} (hty : (Expr.ident id).typeIn? w.sight = some ty) :
    ty.isHollow = false := by
  obtain ⟨x, hx, rfl⟩ := Option.map_eq_some_iff.mp hty
  exact h.names x (List.mem_of_find?_eq_some hx)

theorem member (h : w.Solid) {object : Expr} {field : Ident} {arrow : Bool} {s : Span}
    (hty : (Expr.member object field arrow s).typeIn? w.sight = some ty) : ty.isHollow = false := by
  obtain ⟨x, hx, members, hmembers, m, hm, rfl⟩ := Expr.typeIn?_member hty
  exact h.members x hx members hmembers m hm

theorem parameters (h : w.Solid) (e : Expr) :
    ∀ ty ∈ e.parameters w.outlook, ty.isHollow = false := by
  induction e using Expr.parameters.induct with
  | case1 id =>
    rw [Expr.parameters]
    cases hr : w.outlook.routine? (.ident id) with
    | none => exact List.forall_mem_nil _
    | some r => exact h.routines r (Outlook.mem_routines hr)
  | case2 inner s ih => exact ih
  | case3 e hident hparen =>
    rw [Expr.parameters]
    · exact List.forall_mem_nil _
    · exact hident
    · exact hparen

/-- What is passed to a function is not of type `void`. -/
theorem params (h : w.Solid) (e : Expr) {params : List Ir.Ty}
    (hp : Forall₂ Ty.PassedAs (e.parameters w.outlook) params) : ∀ t ∈ params, t ≠ .void :=
  Ty.PassedAs.all_ne_void hp (h.parameters e)

theorem start : Vantage.start.Solid where
  names := by
    intro x hx
    obtain rfl := List.mem_singleton.mp hx
    rfl
  members := by
    intro x hx
    obtain rfl := List.mem_singleton.mp hx
    exact nofun
  routines := by
    intro r hr
    obtain rfl := List.mem_singleton.mp hr
    exact List.forall_mem_singleton.mpr rfl

end Vantage.Solid

/-- The operation loads nothing of type `void`. -/
def Ir.Op.loadsNoVoid : Op → Bool
  | .load _ ty => ty ≠ .void
  | _ => true

theorem Ir.Op.loadsNoVoid_of_isLoad {op : Op} (h : op.isLoad = false) : op.loadsNoVoid := by
  cases op <;> first | rfl | cases h

end Frontend
