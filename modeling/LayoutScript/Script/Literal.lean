import LayoutScript.Text.Hex

/-! String literals of the generated script. -/
namespace LayoutScript.Script

def escapeChar (c : Char) : List Char :=
  match c.toNat with
  | 0x22 => ['\\', '"']
  | 0x5c => ['\\', '\\']
  | 0x08 => ['\\', 'b']
  | 0x09 => ['\\', 't']
  | 0x0a => ['\\', 'n']
  | 0x0c => ['\\', 'f']
  | 0x0d => ['\\', 'r']
  | 0x2028 => "\\u2028".toList
  | 0x2029 => "\\u2029".toList
  | n => if n < 0x20 then '\\' :: 'u' :: Text.hex 4 n else [c]

def quote (s : String) : String :=
  String.ofList ('"' :: s.toList.flatMap escapeChar ++ ['"'])

end LayoutScript.Script
