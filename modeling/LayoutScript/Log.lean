/-! Log texts. -/
namespace LayoutScript

/-- Entries as lines with a mark in front. An entry that ends in a line feed gets no other. -/
def logText (mark : String) (entries : List String) : String :=
  String.join (entries.map fun entry =>
    let line := mark ++ entry
    if line.toList.getLast? = some '\n' then line else line ++ "\n")

end LayoutScript
