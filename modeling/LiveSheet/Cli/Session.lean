import LiveSheet.Cli
import LiveSheet.FileTree

/-!
The command line over files held in memory, with all that it prints kept.
-/

namespace LiveSheet.Cli

structure Session where
  files : FileTree
  printed : List String
  complaints : List String

namespace Session

def start (files : FileTree) : Session := ⟨files, [], []⟩

/-- Surroundings where every command takes the same time. A file that cannot be written is left
as it is. -/
def surroundings (elapsed : String) : Surroundings (StateM Session) where
  read path := return (← get).files.read path
  write path text := modify fun s => { s with files := (s.files.write path text).toOption.getD s.files }
  isDirectory path := return (← get).files.isDirectory path
  files path recursive := return (← get).files.filesBelow path recursive
  print text := modify fun s => { s with printed := s.printed ++ [text] }
  complain text := modify fun s => { s with complaints := s.complaints ++ [text] }
  elapsed := return elapsed

end Session

end LiveSheet.Cli
