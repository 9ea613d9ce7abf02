import Mathlib.Algebra.Ring.Nat
import LayoutScript.Script.Literal

/-! String literals, read back. A reader of the JSON syntax for strings finds in the literal of a
text that text and nothing else, and nothing in the literal could be taken for the end of its
line. -/
namespace LayoutScript

namespace Text

/-! ### Hexadecimal digits -/

theorem hexDigit_facts :
    ∀ n < 16, isHexDigit (hexDigit n) = true ∧ hexValue (hexDigit n) = n := by decide

@[simp] theorem length_hex (width n : Nat) : (hex width n).length = width := by
  induction width generalizing n with
  | zero => rfl
  | succ width ih => rw [hex, List.length_append, ih, List.length_singleton]

theorem isHexDigit_of_mem_hex {width n : Nat} {c : Char} (h : c ∈ hex width n) :
    isHexDigit c = true := by
  induction width generalizing n with
  | zero => cases h
  | succ width ih =>
    rcases List.mem_append.1 h with h | h
    · exact ih h
    · rw [List.mem_singleton.1 h]
      exact (hexDigit_facts _ (Nat.mod_lt n (by decide))).1

theorem hexNumber_hex {width n : Nat} (h : n < 16 ^ width) : hexNumber (hex width n) = n := by
  induction width generalizing n with
  | zero =>
    rw [Nat.pow_zero, Nat.lt_one_iff] at h
    rw [h]
    rfl
  | succ width ih =>
    rw [Nat.pow_succ] at h
    have hfront := ih (Nat.div_lt_of_lt_mul (by rwa [Nat.mul_comm] at h))
    rw [hexNumber] at hfront
    rw [hex, hexNumber, List.foldl_append, hfront, List.foldl_cons, List.foldl_nil,
      (hexDigit_facts _ (Nat.mod_lt n (by decide))).2]
    omega

end Text

namespace Script

/-! ### The syntax of strings -/

def unescape? (c : Char) : Option Char :=
  [('"', '"'), ('\\', '\\'), ('/', '/'), ('b', Char.ofNat 0x08), ('f', Char.ofNat 0x0c),
    ('n', '\n'), ('r', '\r'), ('t', '\t')].lookup c

def codeUnit? (cs : List Char) : Option (Nat × List Char) :=
  let digits := cs.take 4
  if digits.length = 4 && digits.all Text.isHexDigit then some (Text.hexNumber digits, cs.drop 4)
  else none

def isHighSurrogate (n : Nat) : Bool := 0xd800 ≤ n && n < 0xdc00

def isLowSurrogate (n : Nat) : Bool := 0xdc00 ≤ n && n < 0xe000

def lowSurrogate? : List Char → Option (Nat × List Char)
  | '\\' :: 'u' :: cs => (codeUnit? cs).filter fun (n, _) => isLowSurrogate n
  | _ => none

/-- A character that is written as one number, or as two where one is too small. -/
def numbered? (cs : List Char) : Option (Char × List Char) :=
  match codeUnit? cs with
  | none => none
  | some (n, cs) =>
    if isLowSurrogate n then none
    else if isHighSurrogate n then
      (lowSurrogate? cs).map fun (m, cs) =>
        (Char.ofNat (0x10000 + (n - 0xd800) * 0x400 + (m - 0xdc00)), cs)
    else some (Char.ofNat n, cs)

def escaped? : List Char → Option (Char × List Char)
  | [] => none
  | c :: cs => if c = 'u' then numbered? cs else (unescape? c).map (·, cs)

def nextChar? : List Char → Option (Char × List Char)
  | [] => none
  | c :: cs =>
    if c = '\\' then escaped? cs
    else if c = '"' || c.toNat < 0x20 then none
    else some (c, cs)

def charsWithin : Nat → List Char → Option (List Char)
  | 0, cs => if cs = ['"'] then some [] else none
  | n + 1, cs =>
    if cs = ['"'] then some []
    else (nextChar? cs).bind fun next => (charsWithin n next.2).map (next.1 :: ·)

/-- The text of a literal in double quotes. Each of its characters takes one or more, so the length
bounds their number. -/
def readLiteral? : List Char → Option (List Char)
  | [] => none
  | c :: cs => if c = '"' then charsWithin cs.length cs else none

example : readLiteral? "\"a\\n\\ud83d\\ude00\\u00e9/\"".toList =
    some ['a', '\n', Char.ofNat 0x1f600, Char.ofNat 0xe9, '/'] := by
  decide +kernel

example : readLiteral? "\"a\nb\"".toList = none ∧ readLiteral? "\"a\"b\"".toList = none := by
  decide +kernel

/-! ### The literal of a text -/

theorem codeUnit?_hex {n : Nat} (h : n < 0x20) (cs : List Char) :
    codeUnit? (Text.hex 4 n ++ cs) = some (n, cs) := by
  have hlength := Text.length_hex 4 n
  have hall : (Text.hex 4 n).all Text.isHexDigit = true :=
    List.all_eq_true.2 fun _ hc => Text.isHexDigit_of_mem_hex hc
  rw [codeUnit?, List.take_left' hlength, List.drop_left' hlength, hall,
    Text.hexNumber_hex (by omega), hlength]
  rfl

theorem numbered?_hex {c : Char} (h : c.toNat < 0x20) (cs : List Char) :
    numbered? (Text.hex 4 c.toNat ++ cs) = some (c, cs) := by
  have hlow : isLowSurrogate c.toNat = false := by
    simp only [isLowSurrogate, Bool.and_eq_false_iff, decide_eq_false_iff_not]
    omega
  have hhigh : isHighSurrogate c.toNat = false := by
    simp only [isHighSurrogate, Bool.and_eq_false_iff, decide_eq_false_iff_not]
    omega
  simp only [numbered?, codeUnit?_hex h, hlow, hhigh, Bool.false_eq_true, if_false,
    Char.ofNat_toNat]

theorem nextChar?_escapeChar (c : Char) (cs : List Char) :
    nextChar? (escapeChar c ++ cs) = some (c, cs) := by
  have heq {n : Nat} (h : c.toNat = n) : c = Char.ofNat n := by rw [← h, Char.ofNat_toNat]
  unfold escapeChar
  split
  case h_10 n hquote hslash _ _ _ _ _ _ _ =>
    split
    · next hcontrol => exact numbered?_hex hcontrol cs
    · next hcontrol =>
      have hplain : (c = '"' || decide (c.toNat < 0x20)) = false := by
        rw [Bool.or_eq_false_iff, decide_eq_false_iff_not, decide_eq_false_iff_not]
        exact ⟨fun hc => hquote (hc ▸ rfl), hcontrol⟩
      have hne : c ≠ '\\' := fun hc => hslash (hc ▸ rfl)
      rw [List.singleton_append, nextChar?, if_neg hne, hplain]
      rfl
  all_goals
    next h =>
      rw [heq h]
      rfl

theorem charsWithin_escape (text : List Char) {n : Nat} (h : text.length ≤ n) :
    charsWithin n (text.flatMap escapeChar ++ ['"']) = some text := by
  induction text generalizing n with
  | nil => cases n <;> rfl
  | cons c text ih =>
    obtain ⟨n, rfl⟩ : ∃ m, n = m + 1 := ⟨n - 1, by simp at h; omega⟩
    have hnext := nextChar?_escapeChar c (text.flatMap escapeChar ++ ['"'])
    rw [List.flatMap_cons, List.append_assoc, charsWithin, if_neg, hnext, Option.bind_some,
      ih (by simpa using h)]
    · rfl
    · intro hend
      rw [hend] at hnext
      cases hnext

theorem length_escape (text : List Char) : text.length ≤ (text.flatMap escapeChar).length := by
  have hone (c : Char) : 1 ≤ (escapeChar c).length := by
    cases hc : escapeChar c with
    | nil =>
      have hnext := nextChar?_escapeChar c []
      rw [hc] at hnext
      cases hnext
    | cons d ds => simp
  induction text with
  | nil => exact Nat.le_refl 0
  | cons c text ih =>
    rw [List.flatMap_cons, List.length_append, List.length_cons]
    have := hone c
    omega

theorem readLiteral?_quote (s : String) : readLiteral? (quote s).toList = some s.toList := by
  have hlength := length_escape s.toList
  rw [quote, String.toList_ofList, List.cons_append, readLiteral?, if_pos rfl, charsWithin_escape]
  rw [List.length_append]
  omega

def staysOnLine (c : Char) : Bool := 0x20 ≤ c.toNat && c.toNat != 0x2028 && c.toNat != 0x2029

theorem staysOnLine_escapeChar (c : Char) : (escapeChar c).all staysOnLine = true := by
  unfold escapeChar
  split
  case h_10 n _ _ _ _ _ _ _ hline hparagraph =>
    split
    · next hcontrol =>
      have hdigits : ∀ n < 0x20, ('\\' :: 'u' :: Text.hex 4 n).all staysOnLine = true := by decide
      exact hdigits c.toNat hcontrol
    · next hcontrol =>
      rw [List.all_cons, List.all_nil, Bool.and_true, staysOnLine, Bool.and_eq_true,
        Bool.and_eq_true, decide_eq_true_eq, bne_iff_ne, bne_iff_ne]
      exact ⟨⟨Nat.le_of_not_lt hcontrol, hline⟩, hparagraph⟩
  all_goals decide

theorem staysOnLine_quote (s : String) : (quote s).toList.all staysOnLine = true := by
  have htext : (s.toList.flatMap escapeChar).all staysOnLine = true := by
    rw [List.all_flatMap, List.all_eq_true]
    exact fun c _ => staysOnLine_escapeChar c
  rw [quote, String.toList_ofList, List.cons_append, List.all_cons, List.all_append, htext]
  rfl

end Script

end LayoutScript
