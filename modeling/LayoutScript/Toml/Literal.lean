import LayoutScript.Toml.Moment
import LayoutScript.Toml.Text

/-! Keys and values as they are written in a TOML text. Each reader gives what it read and what
follows it. -/
namespace LayoutScript.Toml

structure Key where
  parents : List String
  last : String
  deriving DecidableEq, Repr

inductive Literal where
  | string (s : String)
  | integer (n : Int)
  | float (text : String)
  | boolean (b : Bool)
  | moment (text : String)
  | array (items : List Literal)
  | table (pairs : List (Key × Literal))
  deriving Repr

def Literal.isArray : Literal → Bool
  | .array _ => true
  | _ => false

def skipSpaces (cs : List Char) : List Char := cs.dropWhile isSpace

def skipFrom (inComment : Bool) : List Char → List Char
  | [] => []
  | c :: cs =>
    if inComment then skipFrom (!isLineEnd c) cs
    else if isSpace c || isLineEnd c then skipFrom false cs
    else if c = '#' then skipFrom true cs
    else c :: cs

def skipLines (cs : List Char) : List Char := skipFrom false cs

def isBare (c : Char) : Bool := c.isAlphanum || c == '_' || c == '-'

def name? (cs : List Char) : Option (String × List Char) :=
  match lineString? cs with
  | some (name, rest) => some (.ofList name, rest)
  | none =>
    let name := cs.takeWhile isBare
    if name.isEmpty then none else some (.ofList name, cs.dropWhile isBare)

def keyWithin : Nat → List Char → Option (Key × List Char)
  | 0, _ => none
  | fuel + 1, cs => do
    let (name, rest) ← name? (skipSpaces cs)
    match skipSpaces rest with
    | '.' :: rest =>
      let (key, rest) ← keyWithin fuel rest
      return (⟨name :: key.parents, key.last⟩, rest)
    | rest => return (⟨[], name⟩, rest)

def key? (cs : List Char) : Option (Key × List Char) := keyWithin cs.length cs

def word? (word : String) (cs : List Char) : Option (List Char) :=
  if word.toList.isPrefixOf cs then some (cs.drop word.toList.length) else none

def isFloatChar (c : Char) : Bool := Text.isDigit c || ['_', '.', '-', '+', 'e', 'E'].contains c

def isMomentChar (c : Char) : Bool :=
  Text.isDigit c || ['-', ':', 'T', 't', ' ', '.', 'Z', 'z', '+'].contains c

def baseDigit? : Char → Option (Char → Bool)
  | 'x' => some Text.isHexDigit
  | 'o' => some fun c => '0' ≤ c && c ≤ '7'
  | 'b' => some fun c => c == '0' || c == '1'
  | _ => none

def based? : List Char → Option (Literal × List Char)
  | mark :: cs => do
    let isDigit ← baseDigit? mark
    guard ((cs.head?.map isDigit).getD false)
    let n ← integer? ('0' :: mark :: cs.takeWhile fun c => isDigit c || c == '_')
    return (.integer n, cs.dropWhile fun c => isDigit c || c == '_')
  | [] => none

def decimal? (sign cs : List Char) : Option (Literal × List Char) :=
  let isBody := fun c => Text.isDigit c || c == '_'
  match cs.dropWhile isBody with
  | c :: rest =>
    if c = '.' || isPower c then do
      let text := sign ++ cs.takeWhile isFloatChar
      guard (isFloat text)
      return (.float (.ofList text), cs.dropWhile isFloatChar)
    else do return (.integer (← integer? (sign ++ cs.takeWhile isBody)), c :: rest)
  | [] => do return (.integer (← integer? (sign ++ cs)), [])

def special? (cs : List Char) : Option (String × List Char) :=
  match word? "inf" cs, word? "nan" cs with
  | some rest, _ => some ("inf", rest)
  | none, some rest => some ("nan", rest)
  | none, none => none

/-- A number or a moment. Moments have no sign, and neither have numbers in another base. -/
def number? (cs : List Char) : Option (Literal × List Char) :=
  match cs with
  | '0' :: rest =>
    if (rest.head?.bind baseDigit?).isSome then based? rest else unsigned cs
  | c :: rest =>
    if c = '+' || c = '-' then
      match special? rest with
      | some (text, rest) => some (.float (c.toString ++ text), rest)
      | none => if (rest.head?.map Text.isDigit).getD false then decimal? [c] rest else none
    else if Text.isDigit c then unsigned cs
    else none
  | [] => none
where
  /-- Digits that a dash or a colon follows are the start of a moment. -/
  unsigned (cs : List Char) : Option (Literal × List Char) :=
    match cs.dropWhile Text.isDigit with
    | '-' :: _ | ':' :: _ => do
      let text := Text.trim (cs.takeWhile isMomentChar)
      guard (isMoment text)
      return (.moment (.ofList text), cs.dropWhile isMomentChar)
    | _ => decimal? [] cs

def scalar? (cs : List Char) : Option (Literal × List Char) :=
  match string? cs with
  | some (s, rest) => some (.string (.ofList s), rest)
  | none =>
    match word? "true" cs, word? "false" cs, special? cs with
    | some rest, _, _ => some (.boolean true, rest)
    | _, some rest, _ => some (.boolean false, rest)
    | _, _, some (text, rest) => some (.float text, rest)
    | _, _, _ => number? cs

mutual

/-- A value. The bound limits how deep values are nested and how many there are. -/
def valueWithin : Nat → List Char → Option (Literal × List Char)
  | 0, _ => none
  | fuel + 1, cs =>
    match cs with
    | '[' :: rest => do
      let (items, rest) ← itemsWithin fuel rest
      return (.array items, rest)
    | '{' :: rest =>
      match skipSpaces rest with
      | '}' :: rest => some (.table [], rest)
      | rest => do
        let (pairs, rest) ← pairsWithin fuel rest
        return (.table pairs, rest)
    | _ => scalar? cs

def itemsWithin : Nat → List Char → Option (List Literal × List Char)
  | 0, _ => none
  | fuel + 1, cs =>
    match skipLines cs with
    | ']' :: rest => some ([], rest)
    | cs => do
      let (item, rest) ← valueWithin fuel cs
      match skipLines rest with
      | ']' :: rest => return ([item], rest)
      | ',' :: rest =>
        let (items, rest) ← itemsWithin fuel rest
        return (item :: items, rest)
      | _ => none

def pairsWithin : Nat → List Char → Option (List (Key × Literal) × List Char)
  | 0, _ => none
  | fuel + 1, cs => do
    let (key, rest) ← key? cs
    let (item, rest) ← valueWithin fuel (skipSpaces (← expect? '=' rest))
    match skipSpaces rest with
    | '}' :: rest => return ([(key, item)], rest)
    | ',' :: rest =>
      let (pairs, rest) ← pairsWithin fuel rest
      return ((key, item) :: pairs, rest)
    | _ => none

end

def value? (cs : List Char) : Option (Literal × List Char) := valueWithin (2 * cs.length + 1) cs

inductive Item where
  | table (key : Key)
  | element (key : Key)
  | pair (key : Key) (value : Literal)
  deriving Repr

def item? (cs : List Char) : Option (Item × List Char) :=
  match cs with
  | '[' :: '[' :: rest => do
    let (key, rest) ← key? rest
    return (.element key, ← expect? ']' (← expect? ']' rest))
  | '[' :: rest => do
    let (key, rest) ← key? rest
    return (.table key, ← expect? ']' rest)
  | _ => do
    let (key, rest) ← key? cs
    let (value, rest) ← value? (skipSpaces (← expect? '=' rest))
    return (.pair key value, rest)

def endsLine (cs : List Char) : Bool :=
  match skipSpaces cs with
  | [] => true
  | c :: _ => isLineEnd c || c == '#'

def entriesWithin : Nat → List Char → Option (List Item)
  | 0, _ => none
  | fuel + 1, cs =>
    match skipLines cs with
    | [] => some []
    | cs => do
      let (item, rest) ← item? cs
      guard (endsLine rest)
      return item :: (← entriesWithin fuel rest)

def items? (cs : List Char) : Option (List Item) :=
  let cs := if cs.head? = some '\ufeff' then cs.tail else cs
  if hasControl cs then none else entriesWithin (cs.length + 1) cs

end LayoutScript.Toml
