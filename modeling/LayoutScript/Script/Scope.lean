/-! Scopes: the variables that a body may use, and what instance variables mean in it. -/
namespace LayoutScript.Script

structure Scope where
  declared : List String
  state : List String
  methods : List String
  inComponent : Bool
  deriving DecidableEq, Repr

namespace Scope

def empty : Scope := ⟨[], [], [], false⟩

def declare (scope : Scope) (name : String) : Scope :=
  { scope with declared := name :: scope.declared }

def declareAll (scope : Scope) (names : List String) : Scope := names.foldl declare scope

def isDeclared (scope : Scope) (name : String) : Bool := scope.declared.contains name

def isState (scope : Scope) (name : String) : Bool := scope.state.contains name

def isMethod (scope : Scope) (name : String) : Bool := scope.methods.contains name

/-- State and methods of a component are local names; everything else is a field of the
receiver. -/
def instanceVar (scope : Scope) (name : String) : String :=
  if scope.isState name || scope.isMethod name then name else "this." ++ name

/-- Methods of a component are local functions; those of a class belong to the receiver. -/
def instanceMethod (scope : Scope) (name : String) : String :=
  if scope.inComponent then name else "this." ++ name

end Scope

end LayoutScript.Script
