import LayoutScript.Script.Line

/-! Statements of the generated script and their lines. Expressions are text. -/
namespace LayoutScript.Script

structure MethodOf (σ : Type) where
  name : String
  params : List String
  body : List σ
  deriving Repr

structure BranchOf (σ : Type) where
  condition : String
  body : List σ
  deriving Repr

inductive Statement where
  | letVar (name value : String)
  | setVar (name value : String)
  | setField (target value : String)
  | eval (text : String)
  | give (value : Option String)
  | branch (first : BranchOf Statement) (others : List (BranchOf Statement))
    (otherwise : Option (List Statement))
  | function (f : MethodOf Statement)
  | classDecl (name : String) (members : List (MethodOf Statement))
  deriving Repr

abbrev Method := MethodOf Statement

def paramList (params : List String) : String := ", ".intercalate params

namespace Statement

mutual

def lines (indent : Nat) : Statement → List Line
  | .letVar name value => [⟨indent, "let " ++ name ++ " = " ++ value ++ ";"⟩]
  | .setVar name value => [⟨indent, name ++ " = " ++ value ++ ";"⟩]
  | .setField target value => [⟨indent, target ++ " = " ++ value ++ ";"⟩]
  | .eval text => [⟨indent, text ++ ";"⟩]
  | .give none => [⟨indent, "return;"⟩]
  | .give (some value) => [⟨indent, "return " ++ value ++ ";"⟩]
  | .branch ⟨condition, body⟩ others otherwise =>
    ⟨indent, "if (" ++ condition ++ ") \x7b"⟩ :: allLines (indent + 1) body ++
      branchLines indent others ++ elseLines indent otherwise ++ [⟨indent, "\x7d"⟩]
  | .function ⟨name, params, body⟩ =>
    ⟨indent, "function " ++ name ++ "(" ++ paramList params ++ ") \x7b"⟩ ::
      allLines (indent + 1) body ++ [⟨indent, "\x7d"⟩, .blank]
  | .classDecl name members =>
    ⟨indent, "class " ++ name ++ " \x7b"⟩ :: memberLines indent members ++
      [⟨indent, "\x7d"⟩, .blank]

def branchLines (indent : Nat) : List (BranchOf Statement) → List Line
  | [] => []
  | ⟨condition, body⟩ :: others =>
    ⟨indent, "\x7d else if (" ++ condition ++ ") \x7b"⟩ :: allLines (indent + 1) body ++
      branchLines indent others

def elseLines (indent : Nat) : Option (List Statement) → List Line
  | none => []
  | some body => ⟨indent, "\x7d else \x7b"⟩ :: allLines (indent + 1) body

def memberLines (indent : Nat) : List (MethodOf Statement) → List Line
  | [] => []
  | ⟨name, params, body⟩ :: members =>
    ⟨indent + 1, name ++ "(" ++ paramList params ++ ") \x7b"⟩ :: allLines (indent + 2) body ++
      ⟨indent + 1, "\x7d"⟩ :: (if members.isEmpty then [] else [.blank]) ++
      memberLines indent members

def allLines (indent : Nat) : List Statement → List Line
  | [] => []
  | s :: ss => lines indent s ++ allLines indent ss

end

end Statement

end LayoutScript.Script
