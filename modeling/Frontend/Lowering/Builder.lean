import Frontend.Ir.Module

/-!
Functions under construction. Instructions go to the block that was started last; earlier blocks
are not returned to. Registers and blocks are numbered in the order in which they are asked for,
registers after the parameters.
-/
namespace Frontend.Ir

structure Builder where
  /-- Tells functions of a module apart. -/
  id : Nat
  name : String
  params : List (Reg × Ty)
  ret : Ty
  earlier : List Block
  block : Block
  nextReg : Nat
  nextBlock : Nat
  deriving Repr

/-- Parameters take the first registers. -/
def numbered (params : List Ty) : List (Reg × Ty) := params.mapIdx fun i ty => (⟨i⟩, ty)

namespace Builder

/-- The entry block is open. -/
def start (id : Nat) (name : String) (params : List Ty) (ret : Ty) : Builder :=
  ⟨id, name, numbered params, ret, [], ⟨⟨0⟩, some "entry", [], none⟩, params.length, 1⟩

def blocks (b : Builder) : List Block := b.earlier ++ [b.block]

/-- Reserves a block, to be started later. -/
def freshBlock (b : Builder) : BlockId × Builder :=
  (⟨b.nextBlock⟩, { b with nextBlock := b.nextBlock + 1 })

def startBlock (b : Builder) (id : BlockId) (label : String) : Builder :=
  { b with earlier := b.blocks, block := ⟨id, some label, [], none⟩ }

def push (b : Builder) (i : Instr) : Builder :=
  { b with block := { b.block with instrs := b.block.instrs ++ [i] } }

/-- An instruction with a value, in a new register. -/
def emit (b : Builder) (op : Op) : Reg × Builder :=
  (⟨b.nextReg⟩, { b.push ⟨some ⟨b.nextReg⟩, op⟩ with nextReg := b.nextReg + 1 })

def isTerminated (b : Builder) : Bool := b.block.terminator.isSome

end Builder

/-- The first terminator of a block stands. -/
def Block.terminate (b : Block) (t : Terminator) : Block :=
  { b with terminator := some (b.terminator.getD t) }

namespace Builder

def terminate (b : Builder) (t : Terminator) : Builder := { b with block := b.block.terminate t }

/-- Where control may run off the end of a block, a void function returns; no other gets there. -/
def fallback (ret : Ty) : Terminator := if ret = .void then .ret none else .unreachable

def finish (b : Builder) : Func :=
  ⟨b.name, b.params, b.ret, b.blocks.map (·.terminate (fallback b.ret)), false, false⟩

end Builder

/-- A function that is defined elsewhere. -/
def Func.external (name : String) (params : List Ty) (ret : Ty) (variadic : Bool) : Func :=
  ⟨name, numbered params, ret, [], true, variadic⟩

end Frontend.Ir
