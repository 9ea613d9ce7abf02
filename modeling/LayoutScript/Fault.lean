import LayoutScript.Command.Error
import LayoutScript.Disk.Error
import LayoutScript.Manifest.Error
import LayoutScript.Project.Error
import LayoutScript.Script.Lowering
import LayoutScript.Syntax.Error
import LayoutScript.Token.Error

/-! Faults: everything that can go wrong, with the context that callers put around it. -/
namespace LayoutScript

inductive Fault where
  | lexical (e : LexError)
  | grammar (e : SyntaxError)
  | unknownNode (e : UnknownNode)
  | manifest (e : ManifestError)
  | disk (e : DiskError)
  | project (e : ProjectError)
  | command (e : CommandError)
  | plain (text : String)
  | file (path : String) (cause : Fault)
  | labelled (label : String) (cause : Fault)
  | joined (text : String) (cause : Fault)
  deriving DecidableEq, Repr

inductive FaultKind where
  | lexical | grammar | unknownNode | file | other
  deriving DecidableEq, Repr

namespace FaultKind

def name : FaultKind → String
  | .lexical => "lex error"
  | .grammar => "syntax error"
  | .unknownNode => "unknown node"
  | .file => "i/o error"
  | .other => "error"

def searched : List FaultKind := [.lexical, .grammar, .unknownNode, .file]

/-- Kinds are numbered from one in this order; zero stands for no fault. -/
def nameOfCode : Nat → String
  | 0 => "none"
  | 1 => lexical.name
  | 2 => grammar.name
  | 3 => unknownNode.name
  | 4 => file.name
  | _ => other.name

end FaultKind

namespace Fault

def message : Fault → String
  | .lexical e => e.message
  | .grammar e => e.message
  | .unknownNode e => e.message
  | .manifest e => e.message
  | .disk e => e.message
  | .project e => e.message
  | .command e => e.message
  | .plain text => text
  | .file path cause => path ++ ": " ++ cause.message
  | .labelled label cause => label ++ ": " ++ cause.message
  | .joined text cause => text ++ "\n" ++ cause.message

def base : Fault → Fault
  | .file _ cause | .labelled _ cause | .joined _ cause => cause.base
  | f => f

def causes : Fault → List Fault
  | .file path cause => .file path cause :: cause.causes
  | .labelled label cause => .labelled label cause :: cause.causes
  | .joined text cause => .joined text cause :: .plain text :: cause.causes
  | f => [f]

def ownKind : Fault → FaultKind
  | .lexical _ => .lexical
  | .grammar _ => .grammar
  | .unknownNode _ => .unknownNode
  | .file _ _ => .file
  | _ => .other

def ownSpan? : Fault → Option Span
  | .lexical e => some e.span
  | .grammar e => some e.span
  | .unknownNode e => some e.span
  | _ => none

def has (f : Fault) (k : FaultKind) : Bool := f.causes.any fun g => g.ownKind == k

/-- The first kind that some cause has; files come last, so they never hide a stage. -/
def kind (f : Fault) : FaultKind := (FaultKind.searched.find? f.has).getD .other

def span? (f : Fault) : Option Span := f.causes.findSome? ownSpan?

/-- Faults without a place are shown at the start of the text. -/
def diagnostic (f : Fault) : Diagnostic := (f.span?.getD .origin).diagnostic f.message

end Fault

end LayoutScript
