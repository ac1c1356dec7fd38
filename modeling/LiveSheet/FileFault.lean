/-!
Why a file cannot be read, with the number that the operating system gives the reason.
-/

namespace LiveSheet

inductive FileFault where
  | notFound
  | notDirectory
  | isDirectory
  | other (message : String)
  deriving DecidableEq, Repr

namespace FileFault

def message : FileFault → String
  | notFound => "No such file or directory (os error 2)"
  | notDirectory => "Not a directory (os error 20)"
  | isDirectory => "Is a directory (os error 21)"
  | other message => message

def isMissing : FileFault → Bool
  | notFound => true
  | notDirectory => true
  | _ => false

end FileFault

end LiveSheet
