import Frontend.Ty

/-!
Scopes of names. A table keeps every scope it ever opened, numbered in order of opening, each with
its enclosing scope and its bindings, newest first. One scope is current; closing it returns to the
enclosing one and leaves its bindings where they are, so a scope's number stays good for looking up
members later.
-/
namespace Frontend

/-- Marks on a binding, one bit each. -/
structure Attributes where
  isPrivate : Bool := false
  isExposed : Bool := false
  isDoable : Bool := false
  /-- Declared without a body. -/
  isExternal : Bool := false
  isVariadic : Bool := false
  deriving DecidableEq, Repr

namespace Attributes

def none : Attributes := {}

def toBits (a : Attributes) : Nat :=
  a.isPrivate.toNat + 2 * a.isExposed.toNat + 4 * a.isDoable.toNat + 8 * a.isExternal.toNat +
    16 * a.isVariadic.toNat

/-- Bits that mark nothing are dropped. -/
def ofBits (n : Nat) : Attributes :=
  ⟨n.testBit 0, n.testBit 1, n.testBit 2, n.testBit 3, n.testBit 4⟩

end Attributes

/-- What a name stands for: a type, marks, and a value of `V`. -/
structure Binding (V : Type) where
  name : String
  ty : Ty
  attributes : Attributes
  /-- The scope that a struct or a scope marker leads to. -/
  scope : Option Nat
  value : V
  deriving Repr

/-- A binding with no marks. -/
def Binding.plain (name : String) (ty : Ty) (value : V) : Binding V :=
  ⟨name, ty, .none, none, value⟩

structure Scope (V : Type) where
  parent : Option Nat
  /-- Newest first. -/
  bindings : List (Binding V)
  deriving Repr

def Scope.find? (s : Scope V) (name : String) : Option (Binding V) :=
  s.bindings.find? (·.name = name)

structure ScopeTable (V : Type) where
  scopes : List (Scope V)
  current : Nat
  deriving Repr

namespace ScopeTable

/-- The root scope alone, with nothing in it. -/
def empty : ScopeTable V := ⟨[⟨none, []⟩], 0⟩

def size (t : ScopeTable V) : Nat := t.scopes.length

/-- The new binding hides earlier ones of its name in the current scope. -/
def add (t : ScopeTable V) (b : Binding V) : ScopeTable V :=
  { t with scopes := t.scopes.modify t.current fun s => { s with bindings := b :: s.bindings } }

@[simp] theorem size_add (t : ScopeTable V) (b : Binding V) : (t.add b).size = t.size := by
  simp [add, size]

@[simp] theorem current_add (t : ScopeTable V) (b : Binding V) :
    (t.add b).current = t.current := rfl

/-- Opens a scope inside the current one. -/
def enter (t : ScopeTable V) : ScopeTable V := ⟨t.scopes ++ [⟨some t.current, []⟩], t.size⟩

@[simp] theorem size_enter (t : ScopeTable V) : t.enter.size = t.size + 1 := by
  simp [enter, size]

@[simp] theorem current_enter (t : ScopeTable V) : t.enter.current = t.size := rfl

/-- Opens a scope that a binding named `marker` in the current one leads to. -/
def enterMarked (t : ScopeTable V) (marker : String) (value : V) : ScopeTable V :=
  (t.add ⟨marker, .prim .scope 0, .none, some t.size, value⟩).enter

/-- The root has nothing to return to. -/
def leave? (t : ScopeTable V) : Option (ScopeTable V) := do
  let s ← t.scopes[t.current]?
  let p ← s.parent
  return { t with current := p }

def findIn? (t : ScopeTable V) (scope : Nat) (name : String) : Option (Binding V) :=
  t.scopes[scope]?.bind (·.find? name)

theorem findIn?_add_of_scope_ne (t : ScopeTable V) (b : Binding V) {scope : Nat}
    (h : t.current ≠ scope) (name : String) :
    (t.add b).findIn? scope name = t.findIn? scope name := by
  simp [findIn?, add, h]

def findLocal? (t : ScopeTable V) (name : String) : Option (Binding V) := t.findIn? t.current name

/-- The nearest binding from a scope outward. An enclosing scope was opened earlier. -/
def findFrom? (t : ScopeTable V) (scope : Nat) (name : String) : Option (Binding V) :=
  match t.scopes[scope]? with
  | none => none
  | some s =>
    match s.find? name, s.parent with
    | some b, _ => some b
    | none, none => none
    | none, some p => if p < scope then t.findFrom? p name else none
termination_by scope

/-- The binding that a name has in the current scope. -/
def find? (t : ScopeTable V) (name : String) : Option (Binding V) := t.findFrom? t.current name

/-- Whether a name stands for a struct. -/
def isStruct (t : ScopeTable V) (name : String) : Bool :=
  match t.find? name with
  | some b => b.ty.base = .struct
  | none => false

end ScopeTable

end Frontend
