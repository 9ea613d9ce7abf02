import LayoutScript.Path

/-! Why an operation on files fails. -/
namespace LayoutScript

inductive DiskCause where
  | missing
  | notDirectory
  | isDirectory
  | present
  | badPath
  | nameTooLong
  deriving DecidableEq, Repr

inductive DiskAction where
  | openFile | readFile | stat | list | makeDirectory
  deriving DecidableEq, Repr

structure DiskError where
  action : DiskAction
  path : Path
  cause : DiskCause
  deriving DecidableEq, Repr

def DiskCause.message : DiskCause → String
  | .missing => "no such file or directory"
  | .notDirectory => "not a directory"
  | .isDirectory => "is a directory"
  | .present => "file exists"
  | .badPath => "invalid argument"
  | .nameTooLong => "file name too long"

def DiskAction.name : DiskAction → String
  | .openFile => "open"
  | .readFile => "read"
  | .stat => "stat"
  | .list => "lstat"
  | .makeDirectory => "mkdir"

def DiskError.message (e : DiskError) : String :=
  e.action.name ++ " " ++ e.path.text ++ ": " ++ e.cause.message

end LayoutScript
