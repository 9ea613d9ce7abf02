/-! Why a text is no manifest. -/
namespace LayoutScript

inductive ManifestField where
  | name | version | src | out
  deriving DecidableEq, Repr

namespace ManifestField

def title : ManifestField → String
  | .name => "Name"
  | .version => "Version"
  | .src => "Src"
  | .out => "Out"

def rule : ManifestField → String
  | .name | .version => "required"
  | .src | .out => "excludesall"

def problem (field : ManifestField) : String :=
  "Key: 'LotoToml." ++ field.title ++ "' Error:Field validation for '" ++ field.title ++
    "' failed on the '" ++ field.rule ++ "' tag"

end ManifestField

inductive ManifestError where
  | malformed
  | invalid (fields : List ManifestField)
  deriving DecidableEq, Repr

def ManifestError.message : ManifestError → String
  | .malformed => "malformed manifest"
  | .invalid fields => "\n".intercalate (fields.map ManifestField.problem)

end LayoutScript
