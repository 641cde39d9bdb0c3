import Frontend.Ir.Module

/-!
Types of registers. A judgment gives the type of what an operation yields from the types of the
registers it reads; it rests only on those registers, so it keeps when more registers and more
functions become known.
-/
namespace Frontend.Ir

/-- Registers that an operation reads. -/
def Op.uses : Op → List Reg
  | .const _ _ | .alloca _ | .funcRef _ => []
  | .binary _ a b | .icmp _ a b | .fcmp _ a b | .store a b => [a, b]
  | .unary _ a | .convert _ a _ | .load a _ | .fieldPtr a _ => [a]
  | .call _ args => args
  | .callPtr f args => f :: args

def Terminator.uses : Terminator → List Reg
  | .ret (some r) | .condBr r _ _ => [r]
  | .ret none | .br _ | .unreachable => []

/-- Blocks that a terminator may go to. -/
def Terminator.targets : Terminator → List BlockId
  | .br b => [b]
  | .condBr _ yes no => [yes, no]
  | .ret _ | .unreachable => []

def BinOp.onFloats : BinOp → Bool
  | .fadd | .fsub | .fmul | .fdiv => true
  | _ => false

/-- Integers of any width, a single bit among them. -/
def Ty.isBits (t : Ty) : Bool := t.isInt || t = .bool

/-- The payload of a constant is of the class of its type. -/
def Constant.Fits (ty : Ty) : Constant → Prop
  | .int _ => ty.isInt
  | .float _ => ty.isFloat
  | .bool _ => ty = .bool
  | .str _ => ty = .ptr .i8

/-- Type of the value that a call to a function returning `ret` has. -/
def callResult (ret : Ty) : Option Ty := if ret = .void then none else some ret

/-- What is asked of constants and of returned values. Zeros of a number type and running off the
end of a function that returns nothing are always let through. -/
structure Policy where
  const : Ty → Constant → Prop
  /-- The return type of a function, and the type of what is returned. -/
  ret : Ty → Option Ty → Prop
  zero : ∀ ty, ty.isInt → const ty (.int 0)
  floatZero : ∀ ty, ty.isFloat → const ty (.float 0)
  void : ret .void none

/-- Everything is let through. -/
def Policy.any : Policy where
  const := fun _ _ => True
  ret := fun _ _ => True
  zero := fun _ _ => trivial
  floatZero := fun _ _ => trivial
  void := trivial

/-- Constants fit their type, and functions return what they are declared to. -/
def Policy.strict : Policy where
  const := Constant.Fits
  ret := fun ret v => v = callResult ret
  zero := fun _ h => h
  floatZero := fun _ h => h
  void := by simp [callResult]

/-- Each argument that has a parameter has its type; the others have some type. -/
def ArgsTyped (has : Reg → Ty → Prop) : List Ty → List Reg → Prop
  | _, [] => True
  | [], r :: rs => (∃ ty, has r ty) ∧ ArgsTyped has [] rs
  | ty :: tys, r :: rs => has r ty ∧ ArgsTyped has tys rs

/-- An operation and the type of its value, `none` where it has none. `declared` gives the parameter
and return types of functions by name, `has` the types of registers. -/
inductive Op.Typed (P : Policy) (declared : String → List Ty → Ty → Prop)
    (has : Reg → Ty → Prop) : Op → Option Ty → Prop where
  | const {ty c} : P.const ty c → Typed P declared has (.const ty c) (some ty)
  | bits {op a b ty} : op.onFloats = false → ty.isBits → has a ty → has b ty →
      Typed P declared has (.binary op a b) (some ty)
  | floats {op a b ty} : op.onFloats → ty.isFloat → has a ty → has b ty →
      Typed P declared has (.binary op a b) (some ty)
  | neg {a ty} : ty.isInt → has a ty → Typed P declared has (.unary .neg a) (some ty)
  | fneg {a ty} : ty.isFloat → has a ty → Typed P declared has (.unary .fneg a) (some ty)
  | not {a ty} : ty.isBits → has a ty → Typed P declared has (.unary .not a) (some ty)
  | icmp {cmp a b ty} : ty.isBits ∨ ty.isPtr → has a ty → has b ty →
      Typed P declared has (.icmp cmp a b) (some .bool)
  | fcmp {cmp a b ty} : ty.isFloat → has a ty → has b ty →
      Typed P declared has (.fcmp cmp a b) (some .bool)
  | sext {a s t m n} : has a s → s.isInt → t.isInt → s.bits? = some m → t.bits? = some n → m < n →
      Typed P declared has (.convert .sext a t) (some t)
  | trunc {a s t m n} : has a s → s.isInt → t.isInt → s.bits? = some m → t.bits? = some n →
      n < m → Typed P declared has (.convert .trunc a t) (some t)
  | fpext {a s t m n} : has a s → s.isFloat → t.isFloat → s.bits? = some m → t.bits? = some n →
      m < n → Typed P declared has (.convert .fpext a t) (some t)
  | fptrunc {a s t m n} : has a s → s.isFloat → t.isFloat → s.bits? = some m →
      t.bits? = some n → n < m → Typed P declared has (.convert .fptrunc a t) (some t)
  | zext {a t} : has a .bool → t.isInt → Typed P declared has (.convert .zext a t) (some t)
  | sitofp {a s t} : has a s → s.isInt → t.isFloat →
      Typed P declared has (.convert .sitofp a t) (some t)
  | fptosi {a s t} : has a s → s.isFloat → t.isInt →
      Typed P declared has (.convert .fptosi a t) (some t)
  | inttoptr {a t} : has a t → t.isInt →
      Typed P declared has (.convert .inttoptr a (.ptr t)) (some (.ptr t))
  | ptrtoint {a t} : has a (.ptr t) → t.isInt →
      Typed P declared has (.convert .ptrtoint a t) (some t)
  | alloca {ty} : Typed P declared has (.alloca ty) (some (.ptr ty))
  | load {p ty} : has p (.ptr ty) → Typed P declared has (.load p ty) (some ty)
  | store {p v ty} : has p (.ptr ty) → has v ty → Typed P declared has (.store p v) none
  /-- The address of a field may be used as a pointer to anything. -/
  | fieldPtr {p i s ty} : has p (.ptr s) → s.isAggregate →
      Typed P declared has (.fieldPtr p i) (some (.ptr ty))
  | call {f args params ret} : declared f params ret → ArgsTyped has params args →
      Typed P declared has (.call f args) (callResult ret)
  | callPtr {r args params ret} : has r (.fn params ret) → ArgsTyped has params args →
      Typed P declared has (.callPtr r args) (callResult ret)
  | funcRef {f params ret} : declared f params ret →
      Typed P declared has (.funcRef f) (some (.fn params ret))

section Monotone

variable {has has' : Reg → Ty → Prop} {declared declared' : String → List Ty → Ty → Prop}

theorem ArgsTyped.mono (hr : ∀ r ty, has r ty → has' r ty) {tys : List Ty} {args : List Reg}
    (h : ArgsTyped has tys args) : ArgsTyped has' tys args := by
  induction args generalizing tys with
  | nil => cases tys <;> trivial
  | cons r rs ih =>
    cases tys with
    | nil =>
      obtain ⟨⟨ty, hty⟩, ht⟩ := h
      exact ⟨⟨ty, hr r ty hty⟩, ih ht⟩
    | cons ty tys => exact ⟨hr r ty h.1, ih h.2⟩

theorem ArgsTyped.typed {tys : List Ty} {args : List Reg} (h : ArgsTyped has tys args) :
    ∀ r ∈ args, ∃ ty, has r ty := by
  induction args generalizing tys with
  | nil => simp
  | cons r rs ih =>
    intro x hx
    cases tys with
    | nil =>
      rcases List.mem_cons.mp hx with rfl | hx
      · exact h.1
      · exact ih h.2 x hx
    | cons ty tys =>
      rcases List.mem_cons.mp hx with rfl | hx
      · exact ⟨ty, h.1⟩
      · exact ih h.2 x hx

/-- More typed registers and more declared functions keep what is typed. -/
theorem Op.Typed.mono {P : Policy} (hd : ∀ f ps r, declared f ps r → declared' f ps r)
    (hr : ∀ r ty, has r ty → has' r ty) {op : Op} {t : Option Ty}
    (h : op.Typed P declared has t) : op.Typed P declared' has' t := by
  cases h with
  | const h => exact .const h
  | bits ho ht ha hb => exact .bits ho ht (hr _ _ ha) (hr _ _ hb)
  | floats ho ht ha hb => exact .floats ho ht (hr _ _ ha) (hr _ _ hb)
  | neg ht ha => exact .neg ht (hr _ _ ha)
  | fneg ht ha => exact .fneg ht (hr _ _ ha)
  | not ht ha => exact .not ht (hr _ _ ha)
  | icmp ht ha hb => exact .icmp ht (hr _ _ ha) (hr _ _ hb)
  | fcmp ht ha hb => exact .fcmp ht (hr _ _ ha) (hr _ _ hb)
  | sext ha hs ht hm hn hlt => exact .sext (hr _ _ ha) hs ht hm hn hlt
  | trunc ha hs ht hm hn hlt => exact .trunc (hr _ _ ha) hs ht hm hn hlt
  | fpext ha hs ht hm hn hlt => exact .fpext (hr _ _ ha) hs ht hm hn hlt
  | fptrunc ha hs ht hm hn hlt => exact .fptrunc (hr _ _ ha) hs ht hm hn hlt
  | zext ha ht => exact .zext (hr _ _ ha) ht
  | sitofp ha hs ht => exact .sitofp (hr _ _ ha) hs ht
  | fptosi ha hs ht => exact .fptosi (hr _ _ ha) hs ht
  | inttoptr ha ht => exact .inttoptr (hr _ _ ha) ht
  | ptrtoint ha ht => exact .ptrtoint (hr _ _ ha) ht
  | alloca => exact .alloca
  | load hp => exact .load (hr _ _ hp)
  | store hp hv => exact .store (hr _ _ hp) (hr _ _ hv)
  | fieldPtr hp hs => exact .fieldPtr (hr _ _ hp) hs
  | call hf ha => exact .call (hd _ _ _ hf) (ha.mono hr)
  | callPtr hp ha => exact .callPtr (hr _ _ hp) (ha.mono hr)
  | funcRef hf => exact .funcRef (hd _ _ _ hf)

/-- An operation reads typed registers only. -/
theorem Op.Typed.uses {P : Policy} {op : Op} {t : Option Ty} (h : op.Typed P declared has t) :
    ∀ r ∈ op.uses, ∃ ty, has r ty := by
  cases h with
  | call _ ha => exact ha.typed
  | callPtr hp ha =>
    intro r hr
    rcases List.mem_cons.mp hr with rfl | hr
    · exact ⟨_, hp⟩
    · exact ha.typed r hr
  | _ => simp_all [Op.uses] <;> grind

end Monotone

end Frontend.Ir
