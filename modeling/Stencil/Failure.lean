import Stencil.Symbols

/-!
# Failures

What can go wrong, by cause.  A failure inside a larger operation keeps its
cause and gains a context in front of its wording.
-/

namespace Stencil

/-- Why the file system refused. -/
inductive Refusal where
  | notExist
  | isDirectory
  | notDirectory
  | tooManyLinks
  | exists
  /-- The permission is missing. -/
  | denied
  /-- The disk is full. -/
  | noSpace
  deriving DecidableEq

/-- The wording of a refusal. -/
def Refusal.message : Refusal → Bytes
  | .notExist => bytes "no such file or directory"
  | .isDirectory => bytes "is a directory"
  | .notDirectory => bytes "not a directory"
  | .tooManyLinks => bytes "too many levels of symbolic links"
  | .exists => bytes "file exists"
  | .denied => bytes "permission denied"
  | .noSpace => bytes "no space left on device"

/-- What went wrong. -/
inductive Cause where
  /-- A mark is empty. -/
  | symbols (fault : Symbols.Fault)
  /-- A rule has no pattern. -/
  | emptyPattern
  /-- A rule file is of no known format. -/
  | unknownFormat
  /-- A rule file is not readable as YAML. -/
  | malformedYaml
  /-- A rule file is not readable as TOML. -/
  | malformedToml
  /-- A cache file is not readable. -/
  | malformedCache
  /-- The file system refused an action on a path. -/
  | refused (action path : Bytes) (refusal : Refusal)
  /-- The file system refused, and it is not said what. -/
  | unnamed (refusal : Refusal)
  /-- The run was canceled. -/
  | canceled
  /-- The run took too long. -/
  | deadline
  /-- Anything else, in words. -/
  | other (text : Bytes)
  deriving DecidableEq

/-- The wording of a cause. -/
def Cause.message : Cause → Bytes
  | .symbols fault => fault.message
  | .emptyPattern => bytes "rule pattern must not be empty"
  | .unknownFormat => bytes "unknown rule file format"
  | .malformedYaml => bytes "failed to parse YAML: malformed text"
  | .malformedToml => bytes "failed to parse TOML: malformed text"
  | .malformedCache => bytes "failed to decode cache file: malformed text"
  | .refused action path refusal =>
      action ++ byte ' ' :: path ++ bytes ": " ++ refusal.message
  | .unnamed refusal => refusal.message
  | .canceled => bytes "context canceled"
  | .deadline => bytes "context deadline exceeded"
  | .other text => text

/-- A cause, possibly inside contexts or beside other failures. -/
inductive Failure where
  | because (cause : Cause)
  /-- A failure inside an operation that the context names. -/
  | inside (context : Bytes) (failure : Failure)
  /-- Two failures reported together. -/
  | both (first second : Failure)
  deriving DecidableEq

namespace Failure

/-- The wording of a failure: contexts come first, and failures reported
together stand on lines of their own. -/
def message : Failure → Bytes
  | .because cause => cause.message
  | .inside context failure => context ++ bytes ": " ++ failure.message
  | .both first second => first.message ++ byte '\n' :: second.message

/-- The causes of a failure, in order. -/
def causes : Failure → List Cause
  | .because cause => [cause]
  | .inside _ failure => failure.causes
  | .both first second => first.causes ++ second.causes

/-- A file or directory is missing. -/
def isNotExist (failure : Failure) : Bool :=
  failure.causes.any fun
    | .refused _ _ .notExist | .unnamed .notExist => true
    | _ => false

/-- A failure in words. -/
def ofText (text : Bytes) : Failure :=
  .because (.other text)

/-- A fault of the symbols an engine was asked to use. -/
def ofSymbols (fault : Symbols.Fault) : Failure :=
  .inside (bytes "invalid symbols") (.because (.symbols fault))

end Failure

end Stencil
