import Frontend.Check
import Frontend.Diagnostic
import Frontend.Grammar.Statements
import Frontend.Ir.Listing
import Frontend.Lowering.Statements
import Frontend.Text.Stem
import Frontend.Token.Scan
import Frontend.Tree.Outline

/-!
Compiling one source text: tokens, tree, checked tree, module, each from the one before, up to the
first error.
-/
namespace Frontend

/-- What is written out. -/
inductive Emit where
  | tokens
  /-- The checked tree. -/
  | tree
  | ir
  deriving DecidableEq, Repr

structure Output where
  warnings : List Diagnostic
  artifact : String
  deriving DecidableEq, Repr

inductive CompileError where
  /-- A fault of the source. -/
  | diagnostic (d : Diagnostic)
  /-- A fault of the compiler, which has no place in the source. -/
  | breach (b : Breach)
  deriving DecidableEq, Repr

namespace CompileError

def message : CompileError → String
  | diagnostic d => d.message
  | breach b => "internal compiler error: " ++ b.message

def exitCode : CompileError → Nat
  | diagnostic _ => 2
  | breach _ => 101

def render (file src : String) : CompileError → Option String
  | diagnostic d => d.render file src
  | e@(breach _) => some e.message

def ofFault (e : Located Fault) : CompileError :=
  diagnostic (.critical e.value.code e.span.pos e.value.message)

def ofParse (e : Located ParseError) : CompileError :=
  match e.value with
  | .breach b => breach b
  | v => diagnostic (.critical v.code e.span.pos v.message)

def ofCheck (e : Located CheckError) : CompileError :=
  match e.value with
  | .breach b => breach b
  | v => diagnostic (.critical v.code e.span.pos v.message)

def ofLower (e : Located LowerError) : CompileError :=
  match e.value with
  | .breach b => breach b
  | v => diagnostic (.critical v.code e.span.pos v.message)

end CompileError

def Warning.diagnostic (w : Located Warning) : Diagnostic := .warning w.span.pos w.value.message

/-- A module has the name of its file without directory and extension. -/
def moduleName (file : String) : String := (Text.stem? file).getD file

def compile (file : String) (emit : Emit) (src : String) : Except CompileError Output := do
  let tokens ← (tokenize src).mapError .ofFault
  if emit = .tokens then return ⟨[], Token.listing tokens⟩
  let parsed ← (Program.ofTokens (Text.endSpan src) tokens).mapError .ofParse
  let (checked, warnings) ← (Program.check parsed).mapError .ofCheck
  let warnings := warnings.map Warning.diagnostic
  if emit = .tree then
    match Program.outline checked with
    | some outline => return ⟨warnings, outline⟩
    | none => throw (.breach .tooWide)
  let module ← (Program.lower checked (moduleName file)).mapError .ofLower
  return ⟨warnings, module.text⟩

end Frontend
