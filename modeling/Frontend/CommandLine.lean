import Frontend.Compile

/-!
What the command does with one file: what goes to standard output and standard error, and the exit
status. Reading the file is left to the caller.
-/
namespace Frontend.CommandLine

structure Response where
  stdout : String
  stderr : String
  exitCode : Nat
  deriving DecidableEq, Repr

/-- Why a file cannot be compiled at all. -/
inductive ReadError where
  | notFound
  | notText
  | other (reason : String)
  deriving DecidableEq, Repr

def ReadError.message : ReadError → String
  | notFound => "No such file or directory (os error 2)"
  | notText => "stream did not contain valid UTF-8"
  | other reason => reason

def unreadable (file : String) (e : ReadError) : Response :=
  ⟨"", "failed to read " ++ file ++ ": " ++ e.message ++ "\n", 1⟩

/-- The exit status where a message cannot be shown. -/
def abandoned : Nat := 101

/-- Warnings are shown before the artifact is written, up to the first that cannot be. -/
def respond (file : String) (emit : Emit) (src : String) : Response :=
  match compile file emit src with
  | .ok out =>
    let texts := out.warnings.map (·.render file src)
    let shown := String.join ((texts.takeWhile (·.isSome)).map fun t => t.getD "" ++ "\n\n")
    if texts.all (·.isSome) then ⟨out.artifact, shown, 0⟩ else ⟨"", shown, abandoned⟩
  | .error e =>
    match e.render file src with
    | some text => ⟨"", text ++ "\n", e.exitCode⟩
    | none => ⟨"", "", abandoned⟩

/-- `content` is `none` if there is no such file. -/
def run (file : String) (emit : Emit) (content : Option ByteArray) : Response :=
  match content with
  | none => unreadable file .notFound
  | some bytes =>
    match String.fromUTF8? bytes with
    | none => unreadable file .notText
    | some src => respond file emit src

/-- The name of an artifact on the command line. -/
def emit? : String → Option Emit
  | "tokens" => some .tokens
  | "ast" => some .tree
  | "ir" => some .ir
  | _ => none

structure Arguments where
  file : String
  emit : Emit
  deriving DecidableEq, Repr

/-- One file, `--emit` with the artifact (the last one counts), and any number of `-v`. -/
def arguments? (args : List String) : Option Arguments := go args none .ir
where
  go : List String → Option String → Emit → Option Arguments
    | [], file, emit => file.map (⟨·, emit⟩)
    | "--emit" :: name :: args, file, _ => (emit? name).bind (go args file)
    | "-v" :: args, file, emit => go args file emit
    | "--verbose" :: args, file, emit => go args file emit
    | arg :: args, none, emit => if arg.startsWith "-" then none else go args (some arg) emit
    | _ :: _, some _, _ => none

def usage : String := "Usage: tavc [--emit <tokens|ast|ir>] [-v]... <FILE>\n"

end Frontend.CommandLine
