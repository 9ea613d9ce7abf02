import LayoutScript.Path
import LayoutScript.Uri.Percent

/-! URIs of files. Reading a URI checks all its parts and keeps the scheme and the path. -/
namespace LayoutScript

structure Uri where
  scheme : List UInt8
  path : List UInt8
  deriving DecidableEq, Repr

namespace Uri

def cut (divider : Char) (bs : List UInt8) : List UInt8 × Option (List UInt8) :=
  match bs.dropWhile (· != byteOf divider) with
  | [] => (bs, none)
  | _ :: rest => (bs.takeWhile (· != byteOf divider), some rest)

def cutLast (divider : Char) (bs : List UInt8) : Option (List UInt8 × List UInt8) :=
  match bs.reverse.dropWhile (· != byteOf divider) with
  | [] => none
  | _ :: before => some (before.reverse, (bs.reverse.takeWhile (· != byteOf divider)).reverse)

def lower (b : UInt8) : UInt8 := if isLetter b then byteOf (charOf b).toLower else b

def isSchemeByte (b : UInt8) : Bool := isWord b || ['+', '-', '.'].contains (charOf b)

/-- The scheme and the text after its colon. A text that does not start like a scheme has none. -/
def readScheme (bs : List UInt8) : Except UriCause (List UInt8 × List UInt8) :=
  match bs with
  | [] => .ok ([], bs)
  | b :: _ =>
    if b = byteOf ':' then .error .missingScheme
    else if !isLetter b then .ok ([], bs)
    else
      match bs.dropWhile isSchemeByte with
      | c :: rest => .ok (if c = byteOf ':' then (bs.takeWhile isSchemeByte, rest) else ([], bs))
      | [] => .ok ([], bs)

def isHostNumber : List UInt8 → Bool
  | [] => true
  | b :: bs => b == byteOf ':' && bs.all fun d => Text.isDigit (charOf d)

/-- Where an address in brackets ends and its zone begins. -/
def cutZone : List UInt8 → List UInt8 × List UInt8
  | [] => ([], [])
  | b :: bs =>
    if (b :: bs).take 3 = ['%', '2', '5'].map byteOf then ([], b :: bs)
    else
      let (address, zone) := cutZone bs
      (b :: address, zone)

def checkHost (bs : List UInt8) : Except UriCause Unit :=
  if bs.head? = some (byteOf '[') then
    match cutLast ']' bs with
    | none => .error .openBracket
    | some (inside, tail) =>
      if !isHostNumber tail then .error (.hostNumber tail)
      else
        match cutZone inside with
        | (_, []) => do let _ ← decode .host bs
        | (address, zone) => do
          let _ ← decode .host address
          let _ ← decode .zone zone
          let _ ← decode .host (byteOf ']' :: tail)
  else
    match cutLast ':' bs with
    | some (_, digits) =>
      if !isHostNumber (byteOf ':' :: digits) then .error (.hostNumber (byteOf ':' :: digits))
      else do let _ ← decode .host bs
    | none => do let _ ← decode .host bs

def isUserByte (b : UInt8) : Bool :=
  isWord b || ['-', '.', '_', ':', '~', '!', '$', '&', '\'', '(', ')', '*', '+', ',', ';', '=',
    '%', '@'].contains (charOf b)

def checkUser (bs : List UInt8) : Except UriCause Unit :=
  if !bs.all isUserByte then .error .user
  else do
    let (name, password) := cut ':' bs
    let _ ← decode .path name
    let _ ← decode .path (password.getD [])

/-- The host is checked before the user that stands in front of it. -/
def checkAuthority (bs : List UInt8) : Except UriCause Unit :=
  match cutLast '@' bs with
  | none => checkHost bs
  | some (user, host) => do
    checkHost host
    checkUser user

def isControl (b : UInt8) : Bool := b < 0x20 || b == 0x7f

def slashes (n : Nat) : List UInt8 := List.replicate n (byteOf '/')

/-- Reads what stands before the fragment. A text with a scheme whose rest does not start with a
slash has no path. -/
def readWhole (bs : List UInt8) : Except UriCause Uri := do
  if bs.any isControl then throw .controlByte
  if bs = [byteOf '*'] then return ⟨[], bs⟩
  let (scheme, rest) ← readScheme bs
  let scheme := scheme.map lower
  let rest := (cut '?' rest).1
  if rest.head? != some (byteOf '/') then
    if !scheme.isEmpty then return ⟨scheme, []⟩
    if (cut '/' rest).1.contains (byteOf ':') then throw .colonInFirstName
  if (slashes 2).isPrefixOf rest && !(scheme.isEmpty && (slashes 3).isPrefixOf rest) then
    let authority := rest.drop 2
    checkAuthority (authority.takeWhile (· != byteOf '/'))
    return ⟨scheme, ← decode .path (authority.dropWhile (· != byteOf '/'))⟩
  return ⟨scheme, ← decode .path rest⟩

/-- Reads a URI. Errors show the text before the fragment, except errors in the fragment. -/
def read (bs : List UInt8) : Except UriError Uri :=
  let (whole, fragment) := cut '#' bs
  match readWhole whole with
  | .error cause => .error (.malformed whole cause)
  | .ok uri =>
    match decode .path (fragment.getD []) with
    | .error cause => .error (.malformed bs cause)
    | .ok _ => .ok uri

def ofPath (p : Path) : String :=
  if p.isEmpty then "file:"
  else
    let bytes := Text.Utf8.encode p
    let escaped := if p = ['*'] then bytes else encodePath bytes
    "file://" ++ String.ofList (escaped.map charOf)

/-- The path of a file's URI. Escapes in the path of the URI are replaced once more. -/
def toPath (uri : String) : Except UriError Path :=
  match read (Text.Utf8.encode uri.toList) with
  | .error e => .error e
  | .ok ⟨scheme, path⟩ =>
    if scheme ≠ "file".toList.map byteOf then .error (.scheme scheme)
    else
      match decode .path path with
      | .error cause => .error (.path cause)
      | .ok bytes => .ok (Text.Utf8.decode bytes)

end Uri

end LayoutScript
