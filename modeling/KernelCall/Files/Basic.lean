/-!
# Files

What the command line asks of a file system: to read and write text, and to tell whether a path
leads to a file. Anything that answers this can stand for a file system.
-/

namespace KernelCall

/-- Why a file cannot be read or written. -/
inductive FileError where
  | notFound
  | notDirectory
  | isDirectory
  | nameTooLong
  | other (text : String)
  deriving DecidableEq, Repr

namespace FileError

def text : FileError → String
  | notFound => "No such file or directory (os error 2)"
  | notDirectory => "Not a directory (os error 20)"
  | isDirectory => "Is a directory (os error 21)"
  | nameTooLong => "File name too long (os error 36)"
  | other text => text

end FileError

/-- Actions on a file system. -/
class MonadFiles (m : Type → Type) where
  readText : (path : String) → m (Except FileError String)
  isFile : (path : String) → m Bool
  writeText : (path text : String) → m (Except FileError Unit)

instance {ε : Type} {m : Type → Type} [Monad m] [MonadFiles m] : MonadFiles (ExceptT ε m) where
  readText path := ExceptT.lift (MonadFiles.readText path)
  isFile path := ExceptT.lift (MonadFiles.isFile path)
  writeText path text := ExceptT.lift (MonadFiles.writeText path text)

end KernelCall
