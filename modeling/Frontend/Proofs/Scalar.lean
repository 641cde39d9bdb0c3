import Frontend.Ir.Module
import Frontend.Tree

/-!
Scalar values and what the operators of the source language do to them. Integers are words of a
fixed width and wrap around; a truth value is a word of one bit. Of floats nothing is assumed: their
arithmetic is a parameter.
-/
namespace Frontend

variable {F : Type}

/-- Width of a truth value or an integer. -/
def Ir.Ty.width? : Ir.Ty → Option Nat
  | .bool => some 1
  | .i8 => some 8
  | .i16 => some 16
  | .i32 => some 32
  | .i64 => some 64
  | _ => none

@[simp] theorem Ir.Ty.width?_of_isFloat {t : Ir.Ty} (h : t.isFloat = true) : t.width? = none := by
  cases t <;> first | rfl | cases h

theorem Ir.Ty.width?_eq_one {t : Ir.Ty} : t.width? = some 1 ↔ t = .bool := by
  cases t <;> simp [width?]

def Ir.Ty.IsScalar (t : Ir.Ty) : Prop := t.width?.isSome = true ∨ t.isFloat = true

def Prim.scalar? : Prim → Option Ir.Ty
  | .bool => some .bool
  | .i8 => some .i8
  | .i16 => some .i16
  | .i32 => some .i32
  | .i64 => some .i64
  | .f32 => some .f32
  | .f64 => some .f64
  | .void | .string | .any | .scope => none

/-- The representation of a type of truth values or numbers. -/
def Ty.scalar? : Ty → Option Ir.Ty
  | .prim p n => if n ≤ 0 then p.scalar? else none
  | _ => none

/-- Arithmetic of floats of each type. -/
structure FloatArith (F : Type) where
  literal : Ir.Ty → Float → F
  add : Ir.Ty → F → F → F
  sub : Ir.Ty → F → F → F
  mul : Ir.Ty → F → F → F
  div : Ir.Ty → F → F → F
  neg : Ir.Ty → F → F
  eq : F → F → Bool
  lt : F → F → Bool
  le : F → F → Bool
  ofInt : Ir.Ty → Int → F
  toInt : F → Int
  resize : Ir.Ty → F → F

/-- What comes from outside, to be read as a scalar of the type that is asked for. -/
structure Raw (F : Type) where
  word : Int
  float : F

inductive Val (F : Type) where
  | int (width : Nat) (v : BitVec width)
  | float (ty : Ir.Ty) (x : F)
  /-- Address of a cell of the current function. -/
  | cell (index : Nat)
  /-- Of no scalar type. -/
  | foreign (r : Raw F)

namespace Val

def HasTy (v : Val F) (t : Ir.Ty) : Prop :=
  match v with
  | .int w _ => t.width? = some w
  | .float ty _ => ty = t ∧ t.isFloat = true
  | _ => False

@[simp] theorem hasTy_int {w : Nat} {x : BitVec w} {t : Ir.Ty} :
    (Val.int (F := F) w x).HasTy t ↔ t.width? = some w := Iff.rfl

@[simp] theorem hasTy_float {ty t : Ir.Ty} {x : F} :
    (Val.float ty x).HasTy t ↔ ty = t ∧ t.isFloat = true := Iff.rfl

/-- A scalar is a word or a float. -/
theorem HasTy.cases {v : Val F} {t : Ir.Ty} (h : v.HasTy t) :
    (∃ w x, v = .int w x ∧ t.width? = some w) ∨ (∃ x, v = .float t x ∧ t.isFloat = true) := by
  cases v with
  | int w x => exact .inl ⟨w, x, rfl, h⟩
  | float ty x =>
    obtain ⟨rfl, hf⟩ := h
    exact .inr ⟨x, rfl, hf⟩
  | cell n => exact h.elim
  | foreign r => exact h.elim

def read (t : Ir.Ty) (r : Raw F) : Val F :=
  match t.width? with
  | some w => .int w (.ofInt w r.word)
  | none => if t.isFloat then .float t r.float else .foreign r

variable {t : Ir.Ty} {v : Val F}

theorem hasTy_read (h : t.IsScalar) (r : Raw F) : (read t r).HasTy t := by
  cases hw : t.width? with
  | some w => simp [read, hw]
  | none =>
    have hf : t.isFloat = true := by simpa [Ir.Ty.IsScalar, hw] using h
    simp [read, hf]

theorem HasTy.isScalar (h : v.HasTy t) : t.IsScalar := by
  obtain ⟨w, x, rfl, hw⟩ | ⟨x, rfl, hf⟩ := h.cases
  · exact .inl (by simp [hw])
  · exact .inr hf

theorem HasTy.unique {t' : Ir.Ty} (h : v.HasTy t) (h' : v.HasTy t') : t = t' := by
  cases v with
  | int w x =>
    have hw := hasTy_int.mp h
    have hw' := hasTy_int.mp h'
    cases t <;> cases hw <;> cases t' <;> first | rfl | cases hw'
  | float ty x => exact h.1.symm.trans h'.1
  | cell n => exact h.elim
  | foreign r => exact h.elim

def bit (b : Bool) : Val F := .int 1 (.ofBool b)

/-- Whether a scalar is not zero. -/
def truth? (A : FloatArith F) : Val F → Option Bool
  | .int _ v => some (v != 0)
  | .float ty x => some (!A.eq x (A.literal ty 0))
  | _ => none

theorem HasTy.truth? (h : v.HasTy t) (A : FloatArith F) : ∃ b, v.truth? A = some b := by
  obtain ⟨w, x, rfl, -⟩ | ⟨x, rfl, -⟩ := h.cases
  · exact ⟨_, rfl⟩
  · exact ⟨_, rfl⟩

@[simp] theorem hasTy_bit (b : Bool) : (bit (F := F) b).HasTy .bool := rfl

theorem ofBool_ne_zero : ∀ x : BitVec 1, BitVec.ofBool (x != 0) = x := by decide

/-- A truth value is its own truth. -/
theorem HasTy.bit_truth (h : v.HasTy .bool) {A : FloatArith F} {b : Bool}
    (hb : v.truth? A = some b) : bit b = v := by
  obtain ⟨w, x, rfl, hw⟩ | ⟨x, rfl, hf⟩ := h.cases
  · obtain rfl : 1 = w := Option.some.inj hw
    obtain rfl : (x != 0) = b := Option.some.inj hb
    rw [bit, ofBool_ne_zero]
  · cases hf

/-- A scalar as a number of another type. A truth value counts as zero or one, and is no float; a
negative integer stays negative in a wider type, and wraps around in a narrower one. -/
def number? (A : FloatArith F) (t : Ir.Ty) (v : Val F) : Option (Val F) :=
  match v, t.width? with
  | .int w x, some n => some (.int n (if w = 1 then x.setWidth n else x.signExtend n))
  | .int w x, none => if t.isFloat ∧ w ≠ 1 then some (.float t (A.ofInt t x.toInt)) else none
  | .float _ x, some n => some (.int n (.ofInt n (A.toInt x)))
  | .float ty x, none =>
    if t.isFloat then some (.float t (if ty = t then x else A.resize t x)) else none
  | _, _ => none

/-- As a truth value, a scalar says whether it is not zero. -/
def convert (A : FloatArith F) (t : Ir.Ty) (v : Val F) : Option (Val F) :=
  if t = .bool then (v.truth? A).map bit else v.number? A t

/-- What is of the type already stays what it is. -/
theorem HasTy.convert_self (h : v.HasTy t) (A : FloatArith F) : v.convert A t = some v := by
  by_cases ht : t = .bool
  · subst ht
    obtain ⟨b, hb⟩ := h.truth? A
    rw [convert, if_pos rfl, hb, Option.map_some, h.bit_truth hb]
  · obtain ⟨w, x, rfl, hw⟩ | ⟨x, rfl, hf⟩ := h.cases
    · have h1 : w ≠ 1 := fun e => ht (Ir.Ty.width?_eq_one.mp (e ▸ hw))
      simp [convert, number?, ht, hw, h1]
    · simp [convert, number?, ht, hf]

/-- Two operands of one type. -/
inductive Pair (F : Type) where
  | ints (width : Nat) (a b : BitVec width)
  | floats (ty : Ir.Ty) (x y : F)

def pair? : Val F → Val F → Option (Pair F)
  | .int w a, .int w' b => if w = w' then some (.ints w a (b.setWidth w)) else none
  | .float t x, .float t' y => if t = t' then some (.floats t x y) else none
  | _, _ => none

theorem HasTy.pair? {a b : Val F} (ha : a.HasTy t) (hb : b.HasTy t) :
    (∃ w x y, t.width? = some w ∧ a.pair? b = some (.ints w x y)) ∨
    (∃ x y, t.isFloat = true ∧ a.pair? b = some (.floats t x y)) := by
  obtain ⟨w, x, rfl, hw⟩ | ⟨x, rfl, hf⟩ := ha.cases
  · obtain ⟨w', y, rfl, hw'⟩ | ⟨y, rfl, hf⟩ := hb.cases
    · obtain rfl : w = w' := Option.some.inj (hw.symm.trans hw')
      exact .inl ⟨w, x, y, hw, by simp [Val.pair?]⟩
    · simp [hf] at hw
  · obtain ⟨w, y, rfl, hw⟩ | ⟨y, rfl, -⟩ := hb.cases
    · simp [hf] at hw
    · exact .inr ⟨x, y, hf, by simp [Val.pair?]⟩

end Val

def UnaryOp.apply (A : FloatArith F) : UnaryOp → Val F → Option (Val F)
  | .not, v => (v.truth? A).map fun b => .bit !b
  | .neg, .int w x => some (.int w (-x))
  | .neg, .float ty x => some (.float ty (A.neg ty x))
  | .bitNot, .int w x => some (.int w (~~~x))
  | _, _ => none

namespace BinaryOp

/-- Integers are compared as signed ones. -/
def holds {w : Nat} (a b : BitVec w) : BinaryOp → Bool
  | .eq => a == b
  | .ne => a != b
  | .lt => a.slt b
  | .le => a.sle b
  | .gt => b.slt a
  | .ge => b.sle a
  | _ => false

def holdsFloat (A : FloatArith F) (x y : F) : BinaryOp → Bool
  | .eq => A.eq x y
  | .ne => !A.eq x y
  | .lt => A.lt x y
  | .le => A.le x y
  | .gt => A.lt y x
  | .ge => A.le y x
  | _ => false

/-- The amount of a shift is taken without its sign. Integers are not divided. -/
def word? {w : Nat} (a b : BitVec w) : BinaryOp → Option (BitVec w)
  | .add => some (a + b)
  | .sub => some (a - b)
  | .mul => some (a * b)
  | .shl => some (a <<< b.toNat)
  | .shr => some (a.sshiftRight b.toNat)
  | .bitAnd => some (a &&& b)
  | .bitOr => some (a ||| b)
  | .bitXor => some (a ^^^ b)
  | _ => none

def float? (A : FloatArith F) (ty : Ir.Ty) (x y : F) : BinaryOp → Option F
  | .add => some (A.add ty x y)
  | .sub => some (A.sub ty x y)
  | .mul => some (A.mul ty x y)
  | .div => some (A.div ty x y)
  | _ => none

/-- An operator other than a logical one, on two operands of one type. -/
def apply (A : FloatArith F) (op : BinaryOp) (a b : Val F) : Option (Val F) := do
  match ← a.pair? b with
  | .ints w a b =>
    if op.isComparison then return .bit (op.holds a b) else return .int w (← op.word? a b)
  | .floats ty x y =>
    if op.isComparison then return .bit (op.holdsFloat A x y)
    else return .float ty (← op.float? A ty x y)

/-- A logical operator. -/
def connect (op : BinaryOp) (a b : Bool) : Bool := if op = .and then a && b else a || b

end BinaryOp

structure Call (F : Type) where
  func : String
  args : List (Val F)

/-- All that a function meets while it runs: how floats behave, what calls answer, given the calls
made before, and what a new cell holds. -/
structure World (F : Type) where
  floats : FloatArith F
  answer : List (Call F) → Call F → Raw F
  fresh : Nat → Raw F

/-- How a function ends. -/
inductive Outcome (F : Type) where
  | returned (v : Option (Val F))
  /-- A function that has to return a value came to its end without one. -/
  | unreachable

end Frontend
