import LayoutScript.Text.Hex
import LayoutScript.Text.Printable
import LayoutScript.Text.Utf8

/-! Quoted texts in messages: double quotes around the text, with everything that is not
printable written as an escape, also bytes that are part of no character. -/
namespace LayoutScript.Text.Quoted

def letterEscape? (c : Char) : Option Char :=
  match c.toNat with
  | 0x07 => some 'a'
  | 0x08 => some 'b'
  | 0x09 => some 't'
  | 0x0a => some 'n'
  | 0x0b => some 'v'
  | 0x0c => some 'f'
  | 0x0d => some 'r'
  | _ => none

def escape (c : Char) : List Char :=
  if c = '"' || c = '\\' then ['\\', c]
  else if isPrintable c then [c]
  else
    match letterEscape? c with
    | some letter => ['\\', letter]
    | none =>
      if c.toNat < 0x20 || c.toNat = 0x7f then '\\' :: 'x' :: hex 2 c.toNat
      else if c.toNat < 0x10000 then '\\' :: 'u' :: hex 4 c.toNat
      else '\\' :: 'U' :: hex 8 c.toNat

def ofPiece : Utf8.Piece → List Char
  | .char c => escape c
  | .stray b => '\\' :: 'x' :: hex 2 b.toNat

def ofBytes (bs : List UInt8) : String :=
  String.ofList ('"' :: (Utf8.pieces bs).flatMap ofPiece ++ ['"'])

def ofString (s : String) : String :=
  String.ofList ('"' :: s.toList.flatMap escape ++ ['"'])

end LayoutScript.Text.Quoted
