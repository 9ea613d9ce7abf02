import LayoutScript.Token.Layout

/-! What an editor shows for the token under the cursor. -/
namespace LayoutScript

/-- The token of a text at a position. Layout is never found, and neither is anything in a text
that has no tokens. -/
def Token.at? (code : List Char) (pos : Position) : Option Token :=
  match Token.ofText "" code with
  | .error _ => none
  | .ok tokens => tokens.find? fun t => !t.kind.isLayout && t.span.contains pos

def Keyword.doc? : Keyword → Option String
  | .defWord => some "Declares a function, or a method inside a class or component."
  | .endWord => some "Closes the innermost block."
  | .print => some "Prints a value through the runtime `print` helper."
  | .classWord => some "Declares a class. `def construct` becomes its constructor."
  | .new => some "Instantiates a class."
  | .construct => some "Names the class constructor."
  | .component => some "Declares a React function component."
  | .props => some "Lists the component's props with optional defaults."
  | .state => some "Lists state variables; each becomes a `useState` hook."
  | .render => some "Describes the element tree the component returns."
  | .style => some "Declares style rules, emitted as a styles object."
  | _ => none

def Token.hover (t : Token) : String :=
  let doc :=
    match t.lexeme with
    | .keyword k => (k.doc?.map fun doc => "\n" ++ doc ++ "\n").getD ""
    | _ => ""
  "```loto\n" ++ t.describe ++ "\n```\n" ++ doc

end LayoutScript
