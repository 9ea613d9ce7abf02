/-! White space: which characters separate tokens and are trimmed from the ends of a text. -/
namespace LayoutScript.Text

/-- The characters with the Unicode property `White_Space`. -/
def isBlank (c : Char) : Bool :=
  let n := c.toNat
  (0x09 ≤ n && n ≤ 0x0d) || n == 0x20 || n == 0x85 || n == 0xa0 || n == 0x1680 ||
    (0x2000 ≤ n && n ≤ 0x200a) || n == 0x2028 || n == 0x2029 || n == 0x202f || n == 0x205f ||
    n == 0x3000

def allBlank (cs : List Char) : Bool := cs.all isBlank

def trimLeft (cs : List Char) : List Char := cs.dropWhile isBlank

def trimRight (cs : List Char) : List Char := (cs.reverse.dropWhile isBlank).reverse

def trim (cs : List Char) : List Char := trimRight (trimLeft cs)

theorem trimLeft_eq_nil_iff (cs : List Char) : trimLeft cs = [] ↔ allBlank cs = true := by
  simp only [trimLeft, allBlank]
  induction cs with
  | nil => simp
  | cons c cs ih =>
    rw [List.dropWhile_cons, List.all_cons]
    cases isBlank c
    · simp
    · exact ih.trans (by simp)

end LayoutScript.Text
