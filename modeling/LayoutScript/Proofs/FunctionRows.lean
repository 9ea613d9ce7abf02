import Mathlib.Data.List.Forall2
import LayoutScript.Proofs.ModuleFacts

/-! The lines at which the functions of a script start. A header is told from every other line by
how it starts and ends, so each function of a script can be found in its text, with its body behind
it. -/
namespace LayoutScript

open LayoutScript.Script (Scope Line Statement Method)

namespace Script

/-! ### Headers -/

/-- Whether the text of a line, without its indentation, starts as a header with parameters: by the
keyword, or by the name alone as the members of a class. -/
def startsNamed (text : List Char) : Bool :=
  "function ".toList.isPrefixOf text || (text.dropWhile isWordChar).head? == some '('

def opensFunction (row : List Char) : Bool :=
  let text := row.dropWhile (· == ' ')
  ") \x7b".toList.isSuffixOf row && startsNamed text ||
    "> \x7b".toList.isSuffixOf row && "const ".toList.isPrefixOf text

theorem getLast?_of_opensFunction {row : List Char} (h : opensFunction row = true) :
    row.getLast? = some '{' := by
  have hends {ending : List Char} (hlast : ending.getLast? = some '{')
      (hsuffix : ending.isSuffixOf row = true) :
      row.getLast? = some '{' := by
    obtain ⟨front, rfl⟩ := List.isSuffixOf_iff_suffix.1 hsuffix
    rw [List.getLast?_append, hlast]
    rfl
  rw [opensFunction, Bool.or_eq_true, Bool.and_eq_true, Bool.and_eq_true] at h
  rcases h with h | h
  · exact hends rfl h.1
  · exact hends rfl h.1

section Rows

variable {indent : Nat} {text : String}

theorem opensFunction_of_getLast? (h : text.toList.getLast? ≠ some '{') :
    opensFunction (Line.row ⟨indent, text⟩) = false := by
  rw [Bool.eq_false_iff]
  intro hopens
  have hlast := getLast?_of_opensFunction hopens
  rw [Line.row, List.getLast?_append] at hlast
  cases htext : text.toList.getLast? with
  | some c =>
    rw [htext] at hlast
    exact h (htext.trans hlast)
  | none =>
    -- The brace would be one of the blanks in front.
    rw [htext] at hlast
    cases (List.mem_replicate.1 (List.mem_of_getLast? hlast)).2

theorem opensFunction_append {front ending : String}
    (h : ending.toList.getLast?.any (· != '{') = true) :
    opensFunction (Line.row ⟨indent, front ++ ending⟩) = false := by
  refine opensFunction_of_getLast? ?_
  rw [String.toList_append, List.getLast?_append]
  cases hlast : ending.toList.getLast? with
  | none =>
    rw [hlast] at h
    cases h
  | some c =>
    rw [hlast, Option.any_some, bne_iff_ne] at h
    exact fun heq => h (Option.some.inj heq)

theorem dropWhile_row (h : ∀ c ∈ text.toList.head?, c ≠ ' ') :
    (Line.row ⟨indent, text⟩).dropWhile (· == ' ') = text.toList :=
  dropWhile_append_of_head (fun c hc => by rw [(List.mem_replicate.1 hc).2]; rfl) fun c hc => by
    simp [h c hc]

theorem opensFunction_of_start (h : (text.toList.head? != some ' ' && !startsNamed text.toList &&
    !"const ".toList.isPrefixOf text.toList) = true) : opensFunction (Line.row ⟨indent,
      text⟩) = false := by
  rw [Bool.and_eq_true, Bool.and_eq_true, bne_iff_ne, Bool.not_eq_true', Bool.not_eq_true'] at h
  have hblank : ∀ c ∈ text.toList.head?, c ≠ ' ' := by
    rintro c hc rfl
    exact h.1.1 hc
  rw [opensFunction, dropWhile_row hblank, h.1.2, h.2, Bool.and_false, Bool.and_false]
  rfl

theorem isSuffixOf_append {ending front back : List Char} (h : ending.length ≤ back.length) :
    ending.isSuffixOf (front ++ back) = ending.isSuffixOf back := by
  rw [Bool.eq_iff_iff, List.isSuffixOf_iff_suffix, List.isSuffixOf_iff_suffix]
  exact ⟨fun hs => List.suffix_of_suffix_length_le hs (List.suffix_append front back) h,
    fun hs => hs.trans (List.suffix_append front back)⟩

theorem opensFunction_of_end {front ending : List Char} (htext : text.toList = front ++ ending)
    (hlength : 3 ≤ ending.length) (hparams : ") \x7b".toList.isSuffixOf ending = false)
    (harrow : "> \x7b".toList.isSuffixOf ending = false) :
    opensFunction (Line.row ⟨indent, text⟩) = false := by
  have hend (sign : List Char) (hsign : sign.length = 3) :
      sign.isSuffixOf (Line.row ⟨indent, text⟩) = sign.isSuffixOf ending := by
    rw [Line.row, htext, ← List.append_assoc, isSuffixOf_append (hsign ▸ hlength)]
  rw [opensFunction, hend _ rfl, hend _ rfl, hparams, harrow, Bool.false_and, Bool.false_and]
  rfl

theorem isSuffixOf_row {front ending : List Char} (htext : text.toList = front ++ ending) :
    ending.isSuffixOf (Line.row ⟨indent, text⟩) = true := by
  rw [Line.row, htext, ← List.append_assoc, List.isSuffixOf_iff_suffix]
  exact List.suffix_append _ ending

theorem opensFunction_of_named (front : List Char) (htext : text.toList = front ++ ") \x7b".toList)
    (hblank : ∀ c ∈ text.toList.head?, c ≠ ' ') (hnamed : startsNamed text.toList = true) :
    opensFunction (Line.row ⟨indent, text⟩) = true := by
  rw [opensFunction, isSuffixOf_row htext, dropWhile_row hblank, hnamed]
  rfl

theorem opensFunction_of_arrow (middle : List Char)
    (htext : text.toList = "const ".toList ++ middle ++ "> \x7b".toList) :
    opensFunction (Line.row ⟨indent, text⟩) = true := by
  have hblank : ∀ c ∈ text.toList.head?, c ≠ ' ' := by
    rw [htext]
    simp
  rw [opensFunction, isSuffixOf_row htext, dropWhile_row hblank, htext, Bool.or_eq_true]
  exact .inr rfl

end Rows

theorem head?_of_isWord {name : String} (h : isWord name = true) (rest : List Char) :
    ∀ c ∈ (name.toList ++ '(' :: rest).head?, c ≠ ' ' := by
  rw [List.head?_append]
  rintro c hc rfl
  cases hname : name.toList.head? with
  | none =>
    rw [hname] at hc
    cases hc
  | some first =>
    rw [hname] at hc
    cases hc
    exact absurd (Template.isWordChar_of_mem h (List.mem_of_head? hname)) (by decide)

theorem startsNamed_of_isWord {name : String} (h : isWord name = true) (rest : List Char) :
    startsNamed (name.toList ++ '(' :: rest) = true := by
  have hparams : ∀ c ∈ ('(' :: rest).head?, isWordChar c = false := by simp +decide
  rw [startsNamed, dropWhile_append_of_head (fun c => Template.isWordChar_of_mem h) hparams,
    Bool.or_eq_true]
  exact .inr rfl

/-! ### Rows that are not blank -/

def rowsOf (lines : List Line) : List (List Char) :=
  (lines.map Line.row).filter fun row => !row.isEmpty

@[simp] theorem rowsOf_append (lines lines' : List Line) :
    rowsOf (lines ++ lines') = rowsOf lines ++ rowsOf lines' := by
  rw [rowsOf, List.map_append, List.filter_append]
  rfl

theorem rowsOf_cons {line : Line} (h : line.row ≠ []) (lines : List Line) :
    rowsOf (line :: lines) = line.row :: rowsOf lines := by
  rw [rowsOf, List.map_cons, List.filter_cons_of_pos (by simpa using h)]
  rfl

theorem row_ne_nil {indent : Nat} {text : String} (h : text ≠ "") :
    Line.row ⟨indent, text⟩ ≠ [] := by
  intro hnil
  rw [Line.row, List.append_eq_nil_iff, String.toList_eq_nil_iff] at hnil
  exact h hnil.2

theorem ne_nil_of_opensFunction {row : List Char} (h : opensFunction row = true) : row ≠ [] := by
  rintro rfl
  cases h

/-! ### Where functions start -/

/-- The rows from each header to the end. -/
def starts : List (List Char) → List (List (List Char))
  | [] => []
  | row :: rows => if opensFunction row then (row :: rows) :: starts rows else starts rows

@[simp] theorem starts_append (rows rows' : List (List Char)) :
    starts (rows ++ rows') = (starts rows).map (· ++ rows') ++ starts rows' := by
  induction rows with
  | nil => rfl
  | cons row rows ih =>
    rw [List.cons_append, starts, starts, ih]
    split
    · rw [List.map_cons]
      rfl
    · rfl

theorem starts_eq_nil {rows : List (List Char)} (h : ∀ row ∈ rows, opensFunction row = false) :
    starts rows = [] := by
  induction rows with
  | nil => rfl
  | cons row rows ih =>
    obtain ⟨hrow, hrows⟩ := List.forall_mem_cons.1 h
    rw [starts, if_neg (by rw [hrow]; exact Bool.false_ne_true), ih hrows]

end Script

/-! ### What starts there -/

inductive Script.Form where
  | statement
  | member
  | constant

namespace Script.Form

def header (form : Form) (f : FunctionDecl) : String :=
  let params := paramList (Param.names f.params)
  match form with
  | .statement => "function " ++ f.name ++ "(" ++ params ++ ") \x7b"
  | .member => (if f.isConstructor then "constructor" else f.name) ++ "(" ++ params ++ ") \x7b"
  | .constant => "const " ++ f.name ++ " = (" ++ params ++ ") => \x7b"

def closing : Form → String
  | .statement | .member => "\x7d"
  | .constant => "\x7d;"

theorem opensFunction_header (form : Form) (level : Nat) {f : FunctionDecl}
    (hname : isWord f.name = true) :
    opensFunction (Line.row ⟨level, form.header f⟩) = true := by
  cases form with
  | statement =>
    refine opensFunction_of_named
      ("function " ++ f.name ++ "(" ++ paramList (Param.names f.params)).toList ?_ ?_ ?_
    · rw [header, String.toList_append]
    · simp [header]
    · simp only [header, String.toList_append, List.append_assoc]
      rfl
  | member =>
    have hword : isWord (if f.isConstructor then "constructor" else f.name) = true := by
      split
      · decide
      · exact hname
    rw [header]
    generalize (if f.isConstructor then "constructor" else f.name) = name at hword
    refine opensFunction_of_named (name ++ "(" ++ paramList (Param.names f.params)).toList ?_ ?_ ?_
    · rw [String.toList_append]
    · simp only [String.toList_append, List.append_assoc]
      exact head?_of_isWord hword _
    · simp only [String.toList_append, List.append_assoc]
      exact startsNamed_of_isWord hword _
  | constant =>
    refine opensFunction_of_arrow
      (f.name ++ " = (" ++ paramList (Param.names f.params) ++ ") =").toList ?_
    simp [header]

end Script.Form

/-- A function of a script: one that a program declares, or a helper or component of some name. -/
inductive Opening where
  | declared (form : Script.Form) (level : Nat) (f : FunctionDecl)
  | other (name : String)

namespace Opening

/-- The function starts with the first row. One that is declared has its whole body there: the
lowered statements one level further in, and the line that closes it. -/
def Begins : Opening → List (List Char) → Prop
  | .declared form level f, rows =>
    ∃ (scope : Scope) (ts : List Statement) (rest : List (List Char)),
    Stmt.lowerAll (scope.declareAll (Param.names f.params)) f.body = .ok ts ∧
    rows = Line.row ⟨level, form.header f⟩ :: Script.rowsOf (Statement.allLines (level + 1) ts) ++
      Line.row ⟨level, form.closing⟩ :: rest
  | .other name, rows => ∃ params : String,
    rows.head? = some ("function " ++ name ++ "(" ++ params ++ ") \x7b").toList

theorem Begins.append {o : Opening} {rows : List (List Char)} (h : o.Begins rows)
    (rows' : List (List Char)) :
    o.Begins (rows ++ rows') := by
  cases o with
  | declared form level f =>
    obtain ⟨scope, ts, rest, hts, rfl⟩ := h
    refine ⟨scope, ts, rest ++ rows', hts, ?_⟩
    rw [List.append_assoc]
    rfl
  | other name =>
    obtain ⟨params, hparams⟩ := h
    refine ⟨params, ?_⟩
    rw [List.head?_append, hparams]
    rfl

end Opening

/-- The functions that start in some rows, in order. -/
def Opened (openings : List Opening) (rows : List (List Char)) : Prop :=
  List.Forall₂ Opening.Begins openings (Script.starts rows)

namespace Opened

variable {openings others : List Opening} {rows rows' : List (List Char)}

theorem append (h : Opened openings rows) (h' : Opened others rows') :
    Opened (openings ++ others) (rows ++ rows') := by
  rw [Opened, Script.starts_append]
  refine List.rel_append ?_ h'
  rw [List.forall₂_map_right_iff]
  exact h.imp fun o start hbegins => hbegins.append rows'

theorem cons {o : Opening} {row : List Char} (hopens : Script.opensFunction row = true)
    (hbegins : o.Begins (row :: rows)) (h : Opened openings rows) :
    Opened (o :: openings) (row :: rows) := by
  rw [Opened, Script.starts, if_pos hopens]
  exact .cons hbegins h

theorem of_plain (h : ∀ row ∈ rows, Script.opensFunction row = false) : Opened [] rows := by
  rw [Opened, Script.starts_eq_nil h]
  exact .nil

theorem of_lines {lines : List Line} (h : ∀ line ∈ lines, Script.opensFunction line.row = false) :
    Opened [] (Script.rowsOf lines) := by
  refine of_plain fun row hrow => ?_
  obtain ⟨line, hline, rfl⟩ := List.mem_map.1 (List.mem_filter.1 hrow).1
  exact h line hline

theorem consPlain {line : Line} {lines : List Line} (hline : Script.opensFunction line.row = false)
    (h : Opened openings (Script.rowsOf lines)) :
    Opened openings (Script.rowsOf (line :: lines)) := by
  have hboth := append (of_lines (List.forall_mem_singleton.2 hline)) h
  rwa [List.nil_append, ← Script.rowsOf_append] at hboth

theorem appendPlain {lines lines' : List Line} (h : Opened openings (Script.rowsOf lines))
    (hplain : ∀ line ∈ lines', Script.opensFunction line.row = false) :
    Opened openings (Script.rowsOf (lines ++ lines')) := by
  have hboth := h.append (of_lines hplain)
  rwa [List.append_nil, ← Script.rowsOf_append] at hboth

end Opened

end LayoutScript
