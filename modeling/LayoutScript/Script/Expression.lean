import LayoutScript.Script.Literal
import LayoutScript.Script.Template
import LayoutScript.Syntax

/-! The text of an expression. Operators are written flat, with the parentheses of the source. -/
namespace LayoutScript

open LayoutScript.Script (Scope)

namespace Expr

mutual

def emit (scope : Scope) : Expr → String
  | .string value _ => Script.quote value
  | .template raw _ => Script.Template.emit scope raw
  | .number raw _ => raw
  | .boolean value _ => if value then "true" else "false"
  | .null _ => "null"
  | .identifier name _ => name
  | .instanceVar name _ => scope.instanceVar name
  | .instanceVarAccess name properties _ =>
    scope.instanceVar name ++ "." ++ ".".intercalate properties
  | .propertyAccess object properties _ => emit scope object ++ "." ++ ".".intercalate properties
  | .construct className args _ =>
    "new " ++ className ++ "(" ++ ", ".intercalate (emitAll scope args) ++ ")"
  | .call callee args _ => callee ++ "(" ++ ", ".intercalate (emitAll scope args) ++ ")"
  | .methodCall object method args _ =>
    emit scope object ++ "." ++ method ++ "(" ++ ", ".intercalate (emitAll scope args) ++ ")"
  | .instanceMethodCall method args _ =>
    scope.instanceMethod method ++ "(" ++ ", ".intercalate (emitAll scope args) ++ ")"
  | .binary left operator right grouped _ =>
    let code := emit scope left ++ " " ++ operator ++ " " ++ emit scope right
    if grouped then "(" ++ code ++ ")" else code
  | .interpolation raw _ => Script.Template.stripSigils raw

def emitAll (scope : Scope) : List Expr → List String
  | [] => []
  | e :: es => emit scope e :: emitAll scope es

end

@[simp] theorem emitAll_eq_map (scope : Scope) (es : List Expr) :
    emitAll scope es = es.map (emit scope) := by
  induction es with
  | nil => rfl
  | cons e es ih => simp [emitAll, ih]

def emitArgs (scope : Scope) (args : List Expr) : String := ", ".intercalate (emitAll scope args)

end Expr

end LayoutScript
