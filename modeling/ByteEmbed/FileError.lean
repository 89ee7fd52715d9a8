/-!
# Errors of a file system

The reasons for which a step on a file fails, and the system's wording for each.
-/

namespace ByteEmbed

/-- Why the file system refuses an operation.  A path with a zero byte is refused
before the system is asked; `invalidArgument` is what the system itself says.  The
reasons that have nothing to do with the paths, such as a full disk, are known by
their wording only. -/
inductive FileError where
  | notFound
  | notADirectory
  | isADirectory
  | nameTooLong
  | linkLoop
  | busy
  | zeroByte
  | invalidArgument
  | other (wording : String)
  deriving DecidableEq, Repr

/-- The wording of an error. -/
def FileError.message : FileError → String
  | .notFound => "No such file or directory (os error 2)"
  | .notADirectory => "Not a directory (os error 20)"
  | .isADirectory => "Is a directory (os error 21)"
  | .nameTooLong => "File name too long (os error 36)"
  | .linkLoop => "Too many levels of symbolic links (os error 40)"
  | .busy => "Device or resource busy (os error 16)"
  | .zeroByte => "file name contained an unexpected NUL byte"
  | .invalidArgument => "Invalid argument (os error 22)"
  | .other wording => wording

end ByteEmbed
