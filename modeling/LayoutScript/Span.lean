/-! Source positions. Lines and columns of a span count from one and are 32-bit words;
positions of an editor count from zero. -/
namespace LayoutScript

structure Span where
  lineStart : UInt32
  columnStart : UInt32
  lineEnd : UInt32
  columnEnd : UInt32
  source : String
  deriving DecidableEq, Repr

structure Position where
  line : UInt32
  character : UInt32
  deriving DecidableEq, Repr

/-- A half-open range of positions. -/
structure Range where
  first : Position
  stop : Position
  deriving DecidableEq, Repr

namespace Span

def origin : Span := ⟨1, 1, 1, 1, ""⟩

def onLine (source : String) (line first last : Nat) : Span :=
  ⟨.ofNat line, .ofNat first, .ofNat line, .ofNat last, source⟩

/-- The columns of `width` characters from `first` on, at least one. Where the line is too long for
the word after them, the first one stands for all. -/
def ofWidth (source : String) (line first width : Nat) : Span :=
  ⟨.ofNat line, .ofNat first, .ofNat line, max (.ofNat (first + width) - 1) (.ofNat first), source⟩

theorem ofWidth_eq_onLine {source : String} {line first width : Nat} (hpos : 0 < width)
    (h : first + width ≤ UInt32.size) :
    ofWidth source line first width = onLine source line first (first + width - 1) := by
  obtain ⟨n, rfl⟩ := Nat.exists_eq_add_of_lt hpos
  have hend : (.ofNat (first + (0 + n + 1)) - 1 : UInt32) = .ofNat (first + (0 + n + 1) - 1) := by
    rw [← Nat.add_assoc, UInt32.ofNat_add, Nat.add_sub_cancel]
    exact UInt32.add_sub_cancel _ _
  have hle : (.ofNat first : UInt32) ≤ .ofNat (first + (0 + n + 1) - 1) := by
    rw [UInt32.le_iff_toNat_le, UInt32.toNat_ofNat_of_lt' (by omega),
      UInt32.toNat_ofNat_of_lt' (by omega)]
    omega
  have hmax : max (.ofNat (first + (0 + n + 1) - 1)) (.ofNat first) =
      (.ofNat (first + (0 + n + 1) - 1) : UInt32) := by
    show (if _ ≤ _ then _ else _) = _
    split
    · next hge => exact UInt32.le_antisymm hle hge
    · rfl
  rw [ofWidth, onLine, hend, hmax]

@[simp] theorem ofWidth_one (source : String) (line first : Nat) :
    ofWidth source line first 1 = onLine source line first first := by
  have hend : (.ofNat (first + 1) - 1 : UInt32) = .ofNat first := by
    rw [UInt32.ofNat_add]
    exact UInt32.add_sub_cancel _ _
  rw [ofWidth, onLine, hend]
  congr 1
  show (if _ ≤ _ then _ else _) = _
  split <;> rfl

def join (first last : Span) : Span :=
  { first with lineEnd := last.lineEnd, columnEnd := last.columnEnd }

/-- Zero stays where it is. -/
def zeroBased (n : UInt32) : UInt32 := if n ≤ 1 then 0 else n - 1

/-- The last column is inclusive and the range is not, so it is not moved. -/
def toRange (s : Span) : Range where
  first := ⟨zeroBased s.lineStart, zeroBased s.columnStart⟩
  stop := ⟨zeroBased s.lineEnd, s.columnEnd⟩

def contains (s : Span) (pos : Position) : Bool :=
  let line := pos.line + 1
  let column := pos.character + 1
  !(line < s.lineStart || s.lineEnd < line) &&
    !(line == s.lineStart && column < s.columnStart) &&
    !(line == s.lineEnd && s.columnEnd < column)

def toText (s : Span) : String :=
  s!"{s.lineStart.toNat}:{s.columnStart.toNat}-{s.lineEnd.toNat}:{s.columnEnd.toNat} ({s.source})"

end Span

structure Diagnostic where
  range : Range
  message : String
  deriving DecidableEq, Repr

def Span.diagnostic (s : Span) (message : String) : Diagnostic := ⟨s.toRange, message⟩

end LayoutScript
