import Frontend.Text.Blank
import Frontend.Text.Lines

/-!
Messages about a source text, and how they are shown: a heading, the line, a caret under the column,
a stroke that leads to it, and the message.
-/
namespace Frontend

inductive Severity where
  /-- Ends the compilation. -/
  | critical
  | warning
  deriving DecidableEq, Repr

def Severity.heading : Severity → String
  | .critical => "CRITICAL ERROR"
  | .warning => "WARNING"

structure Diagnostic where
  severity : Severity
  /-- Warnings have none. -/
  code : Option String
  pos : Position
  message : String
  deriving DecidableEq, Repr

namespace Diagnostic

def critical (code : String) (pos : Position) (message : String) : Diagnostic :=
  ⟨.critical, some code, pos, message⟩

def warning (pos : Position) (message : String) : Diagnostic := ⟨.warning, none, pos, message⟩

/-- Lines count from one, and a line that is not there is empty. -/
def sourceLine (src : String) (line : Nat) : String :=
  String.ofList ((Text.lines src)[line - 1]?.getD [])

/-- Nothing is shown if the caret stands too far to the right to be indented. -/
def render (file src : String) (d : Diagnostic) : Option String := do
  let indent ← Text.blanks? (d.pos.column - 1)
  return d.severity.heading ++ " line " ++ toString d.pos.line ++ ", column " ++
    toString d.pos.column ++ ", " ++ file ++ "\n" ++ sourceLine src d.pos.line ++ "\n" ++
    indent ++ "^\n" ++ String.ofList (List.replicate (d.pos.column - 2) '_') ++ "/\n" ++ d.message

end Diagnostic

end Frontend
