/-!
Paths of files: names between slashes. Empty names and single dots do not count, and two
dots stand for the directory above.
-/

namespace LiveSheet.Path

def parts (path : String) : List (List Char) :=
  (path.toList.splitOn '/').filter fun p => p ≠ [] ∧ p ≠ ['.']

/-- The last name of a path. A path that ends in two dots has none. -/
def fileName? (path : String) : Option (List Char) := (parts path).getLast?.filter (· ≠ ['.', '.'])

/-- What follows the last dot of the file name, if something stands before it. -/
def extension? (path : String) : Option String :=
  (fileName? path).bind fun name =>
    let extension := name.reverse.takeWhile (· ≠ '.')
    if extension.length + 1 < name.length then some (String.ofList extension.reverse) else none

/-- The path of the directory above: all before the last slash. -/
def parent? (path : String) : Option String :=
  match path.toList.reverse.dropWhile (· ≠ '/') with
  | [] => none
  | above => some (String.ofList above.reverse)

def child (directory name : String) : String :=
  if directory.endsWith "/" then directory ++ name else directory ++ "/" ++ name

end LiveSheet.Path
