import Frontend.Scope

/-!
Functions that every program may call without declaring them. They are linked from elsewhere.
-/
namespace Frontend

structure PreludeFn where
  name : String
  ret : Prim
  params : List (String × Prim)
  attributes : Attributes
  deriving Repr

def PreludeFn.ty (f : PreludeFn) : Ty := .fn (.prim f.ret 0) 0

def prelude : List PreludeFn :=
  [⟨"printf", .i32, [("fmt", .string)],
    { Attributes.none with isExternal := true, isVariadic := true }⟩]

namespace ScopeTable

def addPrelude (t : ScopeTable V) (value : PreludeFn → V) : ScopeTable V :=
  prelude.foldl (fun t f => t.add ⟨f.name, f.ty, f.attributes, none, value f⟩) t

/-- The scopes in which a program starts. -/
def start : ScopeTable Unit := empty.addPrelude fun _ => ()

end ScopeTable

end Frontend
