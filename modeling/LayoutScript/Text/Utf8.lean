/-! Decoding bytes that need not be well formed. A byte that begins no sequence of the UTF-8
syntax stands for one replacement character, so every byte sequence has a reading. -/
namespace LayoutScript.Text.Utf8

inductive Piece where
  | char (c : Char)
  | stray (b : UInt8)
  deriving DecidableEq, Repr

def replacement : Char := Char.ofNat 0xfffd

def Piece.toChar : Piece → Char
  | .char c => c
  | .stray _ => replacement

def isTail (b : UInt8) : Bool := 0x80 ≤ b && b ≤ 0xbf

/-- The second byte excludes overlong forms, surrogates and values past the last plane. -/
def isSecond (lead b : UInt8) : Bool :=
  if lead = 0xe0 then 0xa0 ≤ b && b ≤ 0xbf
  else if lead = 0xed then 0x80 ≤ b && b ≤ 0x9f
  else if lead = 0xf0 then 0x90 ≤ b && b ≤ 0xbf
  else if lead = 0xf4 then 0x80 ≤ b && b ≤ 0x8f
  else isTail b

def spell (high : Nat) (tail : List UInt8) : Char :=
  Char.ofNat (tail.foldl (fun n b => n * 64 + (b.toNat - 0x80)) high)

/-- The piece at the front of `b :: rest` and the number of bytes that it takes. -/
def leading (b : UInt8) (rest : List UInt8) : Piece × Nat :=
  if b < 0x80 then (.char (Char.ofNat b.toNat), 1)
  else
    match rest with
    | b₁ :: b₂ :: b₃ :: _ =>
      if 0xc2 ≤ b && b ≤ 0xdf && isTail b₁ then (.char (spell (b.toNat - 0xc0) [b₁]), 2)
      else if 0xe0 ≤ b && b ≤ 0xef && isSecond b b₁ && isTail b₂ then
        (.char (spell (b.toNat - 0xe0) [b₁, b₂]), 3)
      else if 0xf0 ≤ b && b ≤ 0xf4 && isSecond b b₁ && isTail b₂ && isTail b₃ then
        (.char (spell (b.toNat - 0xf0) [b₁, b₂, b₃]), 4)
      else (.stray b, 1)
    | [b₁, b₂] =>
      if 0xc2 ≤ b && b ≤ 0xdf && isTail b₁ then (.char (spell (b.toNat - 0xc0) [b₁]), 2)
      else if 0xe0 ≤ b && b ≤ 0xef && isSecond b b₁ && isTail b₂ then
        (.char (spell (b.toNat - 0xe0) [b₁, b₂]), 3)
      else (.stray b, 1)
    | [b₁] =>
      if 0xc2 ≤ b && b ≤ 0xdf && isTail b₁ then (.char (spell (b.toNat - 0xc0) [b₁]), 2)
      else (.stray b, 1)
    | [] => (.stray b, 1)

/-- All pieces; `covered` bytes at the front belong to the piece before. -/
def piecesFrom : Nat → List UInt8 → List Piece
  | _, [] => []
  | covered + 1, _ :: bs => piecesFrom covered bs
  | 0, b :: bs =>
    let (piece, width) := leading b bs
    piece :: piecesFrom (width - 1) bs

def pieces (bs : List UInt8) : List Piece := piecesFrom 0 bs

def decode (bs : List UInt8) : List Char := (pieces bs).map Piece.toChar

def encode (cs : List Char) : List UInt8 := cs.flatMap String.utf8EncodeChar

def leading? : List UInt8 → Option (Char × Nat)
  | [] => none
  | b :: bs =>
    let (piece, width) := leading b bs
    some (piece.toChar, width)

structure Reader where
  input : List UInt8
  offset : Nat
  /-- The character at `offset` and its width in bytes, if the line goes on there. -/
  ahead : Option (Char × Nat)
  deriving DecidableEq, Repr

namespace Reader

def rest (r : Reader) : List UInt8 := r.input.drop r.offset

def look (r : Reader) : Reader := { r with ahead := leading? r.rest }

/-- One carriage return at the end of the line is not read. -/
def ofLine (bs : List UInt8) : Reader :=
  look ⟨if bs.getLast? = some 0x0d then bs.dropLast else bs, 0, none⟩

def peek (r : Reader) : Option Char := r.ahead.map Prod.fst

def next (r : Reader) : Option Char × Reader :=
  match r.ahead with
  | none => (none, r)
  | some (c, width) => (some c, look { r with offset := r.offset + width })

/-- How many bytes were read; at the end all of them. -/
def pos (r : Reader) : Nat := if r.ahead.isSome then r.offset else r.input.length

theorem next_fst (r : Reader) : r.next.1 = r.peek := by
  rw [next, peek]
  cases r.ahead <;> rfl

end Reader

end LayoutScript.Text.Utf8
