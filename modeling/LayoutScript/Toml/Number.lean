import LayoutScript.Text.Hex

/-! Numbers of a TOML text. -/
namespace LayoutScript.Toml

/-- Every underscore follows a digit of some base, and the text ends in a digit. -/
def underscoresFit (cs : List Char) : Bool :=
  let step := fun (state : Bool × Bool) c =>
    (state.1 && (c != '_' || state.2), Text.isHexDigit c)
  let (fit, digit) := cs.foldl step (true, false)
  fit && digit

def hasLeadingZero : List Char → Bool
  | '0' :: c :: _ => !(['b', 'o', 'x'].contains c)
  | sign :: '0' :: _ :: _ => sign == '+' || sign == '-'
  | _ => false

def dropUnderscores (cs : List Char) : List Char := cs.filter (· != '_')

def digitsValue (base : Nat) (cs : List Char) : Nat :=
  cs.foldl (fun n c => n * base + Text.hexValue c) 0

def magnitude : List Char → Nat
  | '0' :: 'x' :: cs => digitsValue 16 cs
  | '0' :: 'o' :: cs => digitsValue 8 cs
  | '0' :: 'b' :: cs => digitsValue 2 cs
  | cs => digitsValue 10 cs

def fitsWord (n : Int) : Bool := -9223372036854775808 ≤ n && n ≤ 9223372036854775807

def integer? (cs : List Char) : Option Int :=
  if !underscoresFit cs || hasLeadingZero cs then none
  else
    let value : Int :=
      match dropUnderscores cs with
      | '-' :: digits => -(magnitude digits)
      | '+' :: digits => magnitude digits
      | digits => magnitude digits
    if fitsWord value then some value else none

def pointsFit : List Char → Bool
  | [] => true
  | c :: cs => (c != '.' || (cs.head?.map Text.isDigit).getD false) && pointsFit cs

def isPower (c : Char) : Bool := c == 'e' || c == 'E'

def dropSign : List Char → List Char
  | '+' :: cs | '-' :: cs => cs
  | cs => cs

/-- Whether `digits · 10 ^ power` rounds to a finite number of 53 bits and eleven bits of
exponent. -/
def isFinite (digits : Nat) (power : Int) : Bool :=
  let width : Int := (Nat.repr digits).length
  if digits = 0 || width + power < 309 then true
  else if 310 < width + power then false
  else
    let limit := Nat.pow 2 1024 - Nat.pow 2 970
    if 0 ≤ power then digits * Nat.pow 10 power.toNat < limit
    else digits < limit * Nat.pow 10 (-power).toNat

def isDecimal (cs : List Char) : Bool :=
  let body := dropSign cs
  let whole := body.takeWhile Text.isDigit
  let (fraction, rest) :=
    match body.dropWhile Text.isDigit with
    | '.' :: rest => (rest.takeWhile Text.isDigit, rest.dropWhile Text.isDigit)
    | rest => ([], rest)
  let digits := digitsValue 10 (whole ++ fraction)
  match rest with
  | [] => isFinite digits (-(fraction.length : Int))
  | c :: power =>
    let magnitude := dropSign power
    let value : Int := digitsValue 10 magnitude
    let signed := if power.head? = some '-' then -value else value
    isPower c && !magnitude.isEmpty && magnitude.all Text.isDigit &&
      isFinite digits (signed - fraction.length)

def isFloat (cs : List Char) : Bool :=
  let parts := (cs.splitBy fun a b => (a == '.' || isPower a) == (b == '.' || isPower b)).filter
    fun part => !(part.any fun c => c == '.' || isPower c)
  parts.all underscoresFit && !((parts.head?.map hasLeadingZero).getD false) && pointsFit cs &&
    isDecimal (dropUnderscores cs)

end LayoutScript.Toml
