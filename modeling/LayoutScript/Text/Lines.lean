/-! Texts that are divided by a character. A text with `n` dividers has `n + 1` parts, each of
which may be empty; the parts between line feeds are its lines. -/
namespace LayoutScript.Text

def split (divider : Char) : List Char → List (List Char)
  | [] => [[]]
  | c :: cs =>
    if c = divider then [] :: split divider cs
    else
      match split divider cs with
      | [] => [[c]]
      | part :: rest => (c :: part) :: rest

@[simp] theorem split_ne_nil (divider : Char) (cs : List Char) : split divider cs ≠ [] := by
  cases cs with
  | nil => simp [split]
  | cons c cs =>
    unfold split
    split
    · simp
    · split <;> simp

def lines (cs : List Char) : List (List Char) := split '\n' cs

@[simp] theorem lines_ne_nil (cs : List Char) : lines cs ≠ [] := split_ne_nil _ cs

/-- A line that ended in a carriage return and a line feed still holds the return. -/
def dropReturn (line : List Char) : List Char :=
  if line.getLast? = some '\r' then line.dropLast else line

end LayoutScript.Text
