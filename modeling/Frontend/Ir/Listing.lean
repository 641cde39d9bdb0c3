import Frontend.Decimal.Numeral
import Frontend.Ir.Module
import Frontend.Text.Quoted

/-!
Modules as text. Structs come first, one a line; each function follows after an empty line, its
blocks headed by their name and label and their instructions indented.
-/
namespace Frontend.Ir

def Reg.text (r : Reg) : String := "%" ++ toString r.index

def BlockId.text (b : BlockId) : String := "bb" ++ toString b.index

def commas (items : List String) : String := ", ".intercalate items

def Constant.text : Constant → String
  | .int v => toString v
  | .float v => Decimal.text v
  | .bool v => if v then "true" else "false"
  | .str v => Text.quoted v

def BinOp.text : BinOp → String
  | .add => "add"
  | .sub => "sub"
  | .mul => "mul"
  | .fadd => "fadd"
  | .fsub => "fsub"
  | .fmul => "fmul"
  | .fdiv => "fdiv"
  | .and => "and"
  | .or => "or"
  | .xor => "xor"
  | .shl => "shl"
  | .ashr => "ashr"

def UnOp.text : UnOp → String
  | .neg => "neg"
  | .fneg => "fneg"
  | .not => "not"

/-- Integers compare as signed. -/
def Cmp.intText : Cmp → String
  | .eq => "eq"
  | .ne => "ne"
  | .lt => "slt"
  | .le => "sle"
  | .gt => "sgt"
  | .ge => "sge"

/-- Floats compare as ordered: nothing holds of a NaN. -/
def Cmp.floatText : Cmp → String
  | .eq => "oeq"
  | .ne => "one"
  | .lt => "olt"
  | .le => "ole"
  | .gt => "ogt"
  | .ge => "oge"

def Conv.text : Conv → String
  | .sext => "sext"
  | .zext => "zext"
  | .trunc => "trunc"
  | .fptosi => "fptosi"
  | .sitofp => "sitofp"
  | .fpext => "fpext"
  | .fptrunc => "fptrunc"
  | .ptrtoint => "ptrtoint"
  | .inttoptr => "inttoptr"

def argsText (args : List Reg) : String := "(" ++ commas (args.map Reg.text) ++ ")"

def Op.text : Op → String
  | .const ty v => "const " ++ ty.text ++ " " ++ v.text
  | .binary op a b => op.text ++ " " ++ a.text ++ ", " ++ b.text
  | .unary op a => op.text ++ " " ++ a.text
  | .icmp cmp a b => "icmp " ++ cmp.intText ++ " " ++ a.text ++ ", " ++ b.text
  | .fcmp cmp a b => "fcmp " ++ cmp.floatText ++ " " ++ a.text ++ ", " ++ b.text
  | .convert op a ty => op.text ++ " " ++ a.text ++ " to " ++ ty.text
  | .alloca ty => "alloca " ++ ty.text
  | .load ptr ty => "load " ++ ty.text ++ ", " ++ ptr.text
  | .store ptr v => "store " ++ ptr.text ++ ", " ++ v.text
  | .fieldPtr ptr i => "getfieldptr " ++ ptr.text ++ ", 0, " ++ toString i
  | .call f args => "call @" ++ f ++ argsText args
  | .callPtr ptr args => "callptr " ++ ptr.text ++ argsText args
  | .funcRef f => "funcref @" ++ f

def Instr.text (i : Instr) : String :=
  match i.result with
  | none => i.op.text
  | some r => r.text ++ " = " ++ i.op.text

def Terminator.text : Terminator → String
  | .ret none => "ret void"
  | .ret (some r) => "ret " ++ r.text
  | .br b => "br " ++ b.text
  | .condBr c yes no => "br " ++ c.text ++ ", " ++ yes.text ++ ", " ++ no.text
  | .unreachable => "unreachable"

def Block.text (b : Block) : String :=
  let head := match b.label with
    | none => b.id.text ++ ":\n"
    | some label => b.id.text ++ ": ; " ++ label ++ "\n"
  let body := String.join (b.instrs.map fun i => "  " ++ i.text ++ "\n")
  let last := match b.terminator with
    | none => ""
    | some t => "  " ++ t.text ++ "\n"
  head ++ body ++ last

/-- A function defined elsewhere shows its parameter types only. -/
def Func.text (f : Func) : String :=
  let param : Reg × Ty → String := fun (r, ty) =>
    if f.isExternal then ty.text else ty.text ++ " " ++ r.text
  let params := f.params.map param ++ if f.isVariadic then ["..."] else []
  let head := f.ret.text ++ " @" ++ f.name ++ "(" ++ commas params ++ ")"
  if f.isExternal then "declare " ++ head ++ "\n"
  else "define " ++ head ++ " \x7b\n" ++ String.join (f.blocks.map Block.text) ++ "\x7d\n"

def Module.text (m : Module) : String :=
  "; module " ++ m.name ++ "\n" ++
    String.join (m.structs.map fun l => "struct " ++ l.name ++ " = " ++ l.ty.text ++ "\n") ++
    String.join (m.funcs.map fun f => "\n" ++ f.text)

end Frontend.Ir
