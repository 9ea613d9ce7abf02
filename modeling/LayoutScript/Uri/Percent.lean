import LayoutScript.Text.Hex
import LayoutScript.Uri.Error

/-! Percent escapes: a byte as `%` and two hexadecimal digits. -/
namespace LayoutScript.Uri

/-- The character of a byte; those from 128 on are in no class of this file. -/
def charOf (b : UInt8) : Char := Char.ofNat b.toNat

def byteOf (c : Char) : UInt8 := UInt8.ofNat c.toNat

def isLetter (b : UInt8) : Bool :=
  let c := charOf b
  ('a' ≤ c && c ≤ 'z') || ('A' ≤ c && c ≤ 'Z')

def isWord (b : UInt8) : Bool := isLetter b || Text.isDigit (charOf b)

def isPathByte (b : UInt8) : Bool :=
  isWord b || ['-', '_', '.', '~', '$', '&', '+', ',', '/', ':', ';', '=', '@'].contains (charOf b)

def isHostByte (b : UInt8) : Bool :=
  isWord b || ['-', '_', '.', '~', '!', '$', '&', '\'', '(', ')', '*', '+', ',', ';', '=', ':',
    '[', ']', '<', '>', '"'].contains (charOf b)

def escape (b : UInt8) : List UInt8 :=
  [byteOf '%', byteOf (Text.hexDigitUpper (b.toNat / 16)),
    byteOf (Text.hexDigitUpper (b.toNat % 16))]

def encodePath (bs : List UInt8) : List UInt8 :=
  bs.flatMap fun b => if isPathByte b then [b] else escape b

inductive Part where
  | path | host
  | zone
  deriving DecidableEq, Repr

/-- Whether a part may hold this byte as an escape. Hosts escape no ASCII but the percent sign. -/
def Part.mayEscape : Part → UInt8 → Bool
  | .path, _ => true
  | .host, b => 0x80 ≤ b || b == byteOf '%'
  | .zone, b => b == byteOf '%' || b == byteOf ' ' || isHostByte b

def Part.mayHold : Part → UInt8 → Bool
  | .path, _ => true
  | .host, b | .zone, b => 0x80 ≤ b || isHostByte b

def isHexByte (b : UInt8) : Bool := Text.isHexDigit (charOf b)

def decode (part : Part) : List UInt8 → Except UriCause (List UInt8)
  | [] => .ok []
  | b :: bs =>
    if b = byteOf '%' then
      match bs with
      | high :: low :: rest =>
        let value := UInt8.ofNat (Text.hexNumber [charOf high, charOf low])
        if isHexByte high && isHexByte low && part.mayEscape value then
          match decode part rest with
          | .ok decoded => .ok (value :: decoded)
          | .error e => .error e
        else .error (.escape [b, high, low])
      | _ => .error (.escape (b :: bs))
    else if part.mayHold b then
      match decode part bs with
      | .ok decoded => .ok (b :: decoded)
      | .error e => .error e
    else .error (.hostByte b)

end LayoutScript.Uri
