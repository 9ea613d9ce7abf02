import LayoutScript.Script.Literal
import LayoutScript.Text.LetterCase
import LayoutScript.Text.Lines
import LayoutScript.Token.Scan

/-! Names in the generated script. -/
namespace LayoutScript.Script

def setterName (name : String) : String := "set" ++ Text.capitalize name

def camelCase (s : String) : String :=
  match (Text.split '-' s.toList).map String.ofList with
  | [] => ""
  | first :: rest => first ++ String.join (rest.map Text.capitalize)

def objectKey (key : String) : String := if isWord key then key else quote key

def eventName? (name : String) : Option String :=
  match name.toList with
  | 'o' :: 'n' :: ':' :: event => some (String.ofList event)
  | _ => none

def attributeName (name : String) : String :=
  match eventName? name with
  | some event => "on" ++ Text.capitalize (camelCase event)
  | none => if name = "class" then "className" else name

/-- The constant that holds the styles of a component, which is shared by name only if there is
no other. -/
def stylesName (styledCount : Nat) (component : String) : String :=
  if 1 < styledCount then Text.lowerFirst component ++ "Styles" else "styles"

end LayoutScript.Script
