import LayoutScript.Proofs.Receiver

/-! One shape for the texts of an expression. In the source, in the script and in a slot, an
expression is written with the same words and signs in the same places; only its literals and the
names that belong to the instance are written as the place wants them. -/
namespace LayoutScript

open LayoutScript.Script (Scope)

def Dialect.script (scope : Scope) : Dialect where
  string raw := (Script.quote raw).toList
  template raw := (Script.Template.emit scope raw).toList
  var name := (scope.instanceVar name).toList
  method name := (scope.instanceMethod name).toList

namespace Expr

theorem arguments_script {scope : Scope} {args : List Expr}
    (h : ∀ a ∈ args, (a.emit scope).toList = a.text (.script scope)) :
    '(' :: (", ".intercalate (emitAll scope args)).toList ++ [')'] =
      Text.arguments (texts args (.script scope)) := by
  rw [toList_emitAll, texts_eq_map]
  exact congrArg Text.arguments (List.map_congr_left h)

theorem Canonical.toList_emit_eq {role : Role} {e : Expr} (h : e.Canonical role) (scope : Scope) :
    (e.emit scope).toList = e.text (.script scope) := by
  induction h with
  | identifier _ | negative _ | instanceVar _ => simp only [emit, text, Dialect.script]
  | call _ _ ih | instanceCall _ _ ih | construct _ _ ih =>
    rw [emit, text, ← arguments_script ih]
    simp [Dialect.script]
  | methodCall _ _ _ iho iha =>
    rw [emit, text, ← arguments_script iha, ← iho]
    simp [propertiesText]
  | access _ _ ih => rw [toList_emit_accessed, text_accessed, ih]
  | atom ha _ =>
    unfold atom? at ha
    split at ha <;> cases ha <;> simp [emit, text, Dialect.script]
  | group _ _ _ ihl ihr | binary _ _ _ ihl ihr =>
    rw [emit, text, ← ihl, ← ihr]
    simp [Text.parenthesized]
  | chain _ ih | operand _ ih => exact ih

theorem Written.toList_emit_eq {e : Expr} (h : e.Written) (scope : Scope) :
    (e.emit scope).toList = e.text (.script scope) := by
  cases h with
  | value h => exact h.toList_emit_eq scope
  | target _ hne _ =>
    rw [emit, emit, text, text, ← toList_intercalate_dot hne]
    simp [Dialect.script]

end Expr

end LayoutScript
