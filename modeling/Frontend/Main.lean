import Frontend.CommandLine

/-!
The command: reads the file named on the command line and prints what compiling it gives.
-/
namespace Frontend.CommandLine

def readError : IO.Error → ReadError
  | .noFileOrDirectory .. => .notFound
  | e => .other (toString e)

def runOn (a : Arguments) : IO Response := do
  try
    let bytes ← IO.FS.readBinFile a.file
    return run a.file a.emit (some bytes)
  catch e => return unreadable a.file (readError e)

end Frontend.CommandLine

open Frontend.CommandLine in
def main (args : List String) : IO UInt32 := do
  match arguments? args with
  | none =>
    IO.eprint usage
    return 2
  | some a =>
    let r ← runOn a
    IO.eprint r.stderr
    IO.print r.stdout
    return r.exitCode.toUInt32
