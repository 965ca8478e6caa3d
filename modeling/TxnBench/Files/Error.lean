/-!
# File errors

What a file system says when it refuses a request, in its own words.
-/

namespace TxnBench

/-- Why a file system refused. -/
inductive FileError where
  | notFound
  | exists
  | notDirectory
  | isDirectory
  | noSpace
  | nameTooLong
  /-- The name holds a character that ends names. -/
  | nulByte
  /-- Any other refusal, in words. -/
  | system (text : String)
  deriving DecidableEq, Repr

/-- The text of a refusal. -/
def FileError.message : FileError → String
  | .notFound => "No such file or directory (os error 2)"
  | .exists => "File exists (os error 17)"
  | .notDirectory => "Not a directory (os error 20)"
  | .isDirectory => "Is a directory (os error 21)"
  | .noSpace => "No space left on device (os error 28)"
  | .nameTooLong => "File name too long (os error 36)"
  | .nulByte => "file name contained an unexpected NUL byte"
  | .system text => text

end TxnBench
