import LayoutScript.Script.Expression
import LayoutScript.Script.Name
import LayoutScript.Script.Statement
import LayoutScript.Syntax.Outline

/-! From the syntax tree to statements of the script. A variable is declared where it is first
assigned; branches and functions see the variables around them and keep their own. -/
namespace LayoutScript

open LayoutScript.Script (Scope Statement Method)

structure UnknownNode where
  kind : NodeKind
  span : Span
  deriving DecidableEq, Repr

def UnknownNode.message (e : UnknownNode) : String :=
  "no code generation rule for node kind " ++ e.kind.name

def Param.names (params : List Param) : List String := params.map Param.name

/-- What a class emits: the first constructor, then every other method in order. -/
def constructorFirst (members : List (Bool × α)) : List α :=
  ((members.find? Prod.fst).toList ++ members.filter fun m => !m.1).map Prod.snd

def allOk : List (Except ε α) → Except ε (List α)
  | [] => .ok []
  | .error e :: _ => .error e
  | .ok a :: rest =>
    match allOk rest with
    | .error e => .error e
    | .ok as => .ok (a :: as)

namespace Stmt

def lowerExpr (scope : Scope) (e : Expr) : Except UnknownNode Statement :=
  match e with
  | .propertyAccess .. | .call .. | .methodCall .. | .instanceMethodCall .. =>
    .ok (.eval (e.emit scope))
  | _ => .error ⟨e.kind, e.span⟩

mutual

def lower (scope : Scope) : Stmt → Except UnknownNode (Statement × Scope)
  | .function f =>
    match lowerFunction scope f with
    | .error e => .error e
    | .ok f => .ok (.function f, scope)
  | .classDecl ⟨name, _, methods, _⟩ =>
    match allOk (constructorFirst (lowerMembers methods)) with
    | .error e => .error e
    | .ok members => .ok (.classDecl name members, scope)
  | .component c => .error ⟨.componentDeclaration, c.span⟩
  | .assign name value _ =>
    if scope.isDeclared name then .ok (.setVar name (value.emit scope), scope)
    else .ok (.letVar name (value.emit scope), scope.declare name)
  | .assignProperty object properties target value _ =>
    .ok (.setField ((Expr.propertyAccess object properties target).emit scope) (value.emit scope),
      scope)
  | .assignInstanceVar name value _ =>
    if scope.isState name then
      .ok (.eval (Script.setterName name ++ "(" ++ value.emit scope ++ ")"), scope)
    else .ok (.setField ("this." ++ name) (value.emit scope), scope)
  | .print value _ => .ok (.eval ("print(" ++ value.emit scope ++ ")"), scope)
  | .give value _ => .ok (.give (value.map (Expr.emit scope)), scope)
  | .branch condition body elsifs otherwise hasElse _ =>
    match lowerAll scope body with
    | .error e => .error e
    | .ok body =>
      match lowerElsifs scope elsifs with
      | .error e => .error e
      | .ok elsifs =>
        match if hasElse then (lowerAll scope otherwise).map some else .ok none with
        | .error e => .error e
        | .ok otherwise =>
          .ok (.branch ⟨condition.emit scope, body⟩ elsifs otherwise, scope)
  | .expr e =>
    match lowerExpr scope e with
    | .error e => .error e
    | .ok s => .ok (s, scope)

def lowerFunction (scope : Scope) : FunctionOf Stmt → Except UnknownNode (Script.MethodOf Statement)
  | ⟨name, params, _, body, _⟩ =>
    match lowerAll (scope.declareAll (Param.names params)) body with
    | .error e => .error e
    | .ok body => .ok ⟨name, Param.names params, body⟩

/-- Methods of a class, which see nothing outside it, each with the mark of a constructor. -/
def lowerMembers :
    List (FunctionOf Stmt) → List (Bool × Except UnknownNode (Script.MethodOf Statement))
  | [] => []
  | ⟨name, params, _, body, _⟩ :: fs =>
    let isConstructor := name == "construct"
    let member : Except UnknownNode (Script.MethodOf Statement) :=
      match lowerAll (Scope.empty.declareAll (Param.names params)) body with
      | .error e => .error e
      | .ok body =>
        .ok ⟨if isConstructor then "constructor" else name, Param.names params, body⟩
    (isConstructor, member) :: lowerMembers fs

def lowerElsifs (scope : Scope) :
    List (ElsifOf Stmt) → Except UnknownNode (List (Script.BranchOf Statement))
  | [] => .ok []
  | ⟨condition, body⟩ :: es =>
    match lowerAll scope body with
    | .error e => .error e
    | .ok body =>
      match lowerElsifs scope es with
      | .error e => .error e
      | .ok es => .ok (⟨condition.emit scope, body⟩ :: es)

def lowerAll (scope : Scope) : List Stmt → Except UnknownNode (List Statement)
  | [] => .ok []
  | s :: ss =>
    match lower scope s with
    | .error e => .error e
    | .ok (s, scope) =>
      match lowerAll scope ss with
      | .error e => .error e
      | .ok ss => .ok (s :: ss)

end

end Stmt

end LayoutScript
