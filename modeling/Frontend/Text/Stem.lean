/-!
The stem of a file name: the last component of the path without its extension. Empty components and
single dots do not count, and a path that leads to a parent directory has no stem.
-/
namespace Frontend.Text

def components : List Char → List (List Char)
  | [] => [[]]
  | '/' :: cs => [] :: components cs
  | c :: cs =>
    match components cs with
    | [] => [[c]]
    | w :: ws => (c :: w) :: ws

/-- A leading dot starts no extension, so a name with no other dot is its own stem. -/
def withoutExtension (name : List Char) : List Char :=
  match name.reverse.dropWhile (· ≠ '.') with
  | [] => name
  | _ :: before => if before.isEmpty then name else before.reverse

def stem? (path : String) : Option String :=
  match ((components path.toList).filter fun w => w ≠ [] ∧ w ≠ ['.']).getLast? with
  | none => none
  | some name => if name = ['.', '.'] then none else some (String.ofList (withoutExtension name))

end Frontend.Text
