/-! Last in, first out. -/
namespace LayoutScript

structure Stack (α : Type) where
  elements : List α
  deriving DecidableEq, Repr

namespace Stack

def toList (s : Stack α) : List α := s.elements.reverse

def ofList (xs : List α) : Stack α := ⟨xs.reverse⟩

def push (s : Stack α) (a : α) : Stack α := ⟨a :: s.elements⟩

def peek? (s : Stack α) : Option α := s.elements.head?

def pop (s : Stack α) : Stack α := ⟨s.elements.tail⟩

def size (s : Stack α) : Nat := s.elements.length

def isEmpty (s : Stack α) : Bool := s.elements.isEmpty

@[simp] theorem toList_ofList (xs : List α) : (ofList xs).toList = xs := by
  simp [toList, ofList]

@[simp] theorem toList_push (s : Stack α) (a : α) : (s.push a).toList = s.toList ++ [a] := by
  simp [toList, push]

@[simp] theorem toList_pop (s : Stack α) : s.pop.toList = s.toList.dropLast := by
  simp [toList, pop, List.dropLast_reverse]

theorem peek?_eq_getLast? (s : Stack α) : s.peek? = s.toList.getLast? := by
  simp [peek?, toList]

end Stack

end LayoutScript
