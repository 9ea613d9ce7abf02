import LayoutScript.Script.Component
import LayoutScript.Syntax.Survey

/-! Whole scripts: the prelude, the import of the framework, and one item for each statement of
the program. -/
namespace LayoutScript

open LayoutScript.Script (Scope Line)

namespace Script

def banner : String := "// ---- Loto → JavaScript ----"

def helperLines : List String := [
  "// Runtime helpers",
  "function print(value) \x7b",
  "  // If the value has a print method, call it",
  "  if (value && typeof value.print === \"function\") \x7b",
  "    console.log(value.print());",
  "  \x7d else \x7b",
  "    console.log(value);",
  "  \x7d",
  "\x7d",
  "",
  "function defined(value) \x7b",
  "  return value !== null && value !== undefined;",
  "\x7d"]

def helpers : String := "\n".intercalate helperLines ++ "\n"

structure Options where
  banner : Bool
  deriving DecidableEq, Repr

def Options.standard : Options := ⟨true⟩

inductive Item where
  | statement (s : Statement)
  | component (c : Component)
  deriving Repr

def Item.lines : Item → List Line
  | .statement s => s.lines 0
  | .component c => c.lines

inductive Import where
  | nothing
  | framework
  | frameworkAndState
  deriving DecidableEq, Repr

def Import.lines : Import → List Line
  | .nothing => []
  | .framework => [⟨0, "import React from 'react';"⟩, .blank]
  | .frameworkAndState => [⟨0, "import React, \x7b useState \x7d from 'react';"⟩, .blank]

structure Module where
  imported : Import
  items : List Item
  deriving Repr

def preludeLines (options : Options) : List Line :=
  (if options.banner then [⟨0, banner⟩, .blank] else []) ++
    helperLines.map (⟨0, ·⟩) ++ [.blank]

def Module.lines (options : Options) (m : Module) : List Line :=
  preludeLines options ++ m.imported.lines ++ m.items.flatMap Item.lines

def Module.text (options : Options) (m : Module) : String := finish (m.lines options)

end Script

namespace Program

def lowerItems (styledCount : Nat) :
    Scope → Nat → List Stmt → Except UnknownNode (List Script.Item)
  | _, _, [] => .ok []
  | scope, before, .component c :: rest =>
    match c.lower styledCount before with
    | .error e => .error e
    | .ok c =>
      match lowerItems styledCount scope (before + 1) rest with
      | .error e => .error e
      | .ok items => .ok (.component c :: items)
  | scope, before, s :: rest =>
    match s.lower scope with
    | .error e => .error e
    | .ok (s, scope) =>
      match lowerItems styledCount scope before rest with
      | .error e => .error e
      | .ok items => .ok (.statement s :: items)

def imported (p : Program) : Script.Import :=
  if p.hasState then .frameworkAndState
  else if p.survey.hasComponent then .framework
  else .nothing

def lower (p : Program) : Except UnknownNode Script.Module :=
  match lowerItems p.styledCount .empty 0 p.body with
  | .error e => .error e
  | .ok items => .ok ⟨p.imported, items⟩

def generate (options : Script.Options) (p : Program) : Except UnknownNode String :=
  match p.lower with
  | .error e => .error e
  | .ok m => .ok (m.text options)

end Program

end LayoutScript
