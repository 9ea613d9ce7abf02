/-! Reserved words. The set is closed. -/
namespace LayoutScript

inductive Keyword where
  | defWord | endWord | print | ifWord | elseWord | elsif | returnWord | trueWord | falseWord
  | null | classWord | new | construct | component | props | state | render | style
  deriving DecidableEq, Repr

namespace Keyword

def text : Keyword → String
  | .defWord => "def"
  | .endWord => "end"
  | .print => "print"
  | .ifWord => "if"
  | .elseWord => "else"
  | .elsif => "elsif"
  | .returnWord => "return"
  | .trueWord => "true"
  | .falseWord => "false"
  | .null => "null"
  | .classWord => "class"
  | .new => "new"
  | .construct => "construct"
  | .component => "component"
  | .props => "props"
  | .state => "state"
  | .render => "render"
  | .style => "style"

def all : List Keyword :=
  [.defWord, .endWord, .print, .ifWord, .elseWord, .elsif, .returnWord, .trueWord, .falseWord,
    .null, .classWord, .new, .construct, .component, .props, .state, .render, .style]

@[simp] theorem mem_all (k : Keyword) : k ∈ all := by cases k <;> decide

def ofText? (s : String) : Option Keyword := all.find? fun k => k.text == s

theorem ofText?_text (k : Keyword) : ofText? k.text = some k := by cases k <;> decide

theorem text_of_ofText? {s : String} {k : Keyword} (h : ofText? s = some k) : k.text = s := by
  simpa using List.find?_some h

end Keyword

end LayoutScript
