import LayoutScript.Proofs.Components
import LayoutScript.Proofs.Concatenation
import LayoutScript.Proofs.Lowering
import LayoutScript.Script.Markup

/-! Texts in markup. A character that markup would take for its own is written as a container or as
an entity, so reading the markup gives the text back, unless the text spells an entity itself. -/
namespace LayoutScript

namespace Markup

/-! ### Reading markup -/

/-- The text that markup stands for: a container holds one quoted character, an entity names a
bracket, and every other character is itself. -/
def readText : List Char → List Char
  | '{' :: '\'' :: c :: '\'' :: '}' :: cs => c :: readText cs
  | '&' :: 'l' :: 't' :: ';' :: cs => '<' :: readText cs
  | '&' :: 'g' :: 't' :: ';' :: cs => '>' :: readText cs
  | c :: cs => c :: readText cs
  | [] => []

/-- A text with the brackets that its entities name. -/
def readEntities : List Char → List Char
  | '&' :: 'l' :: 't' :: ';' :: cs => '<' :: readEntities cs
  | '&' :: 'g' :: 't' :: ';' :: cs => '>' :: readEntities cs
  | c :: cs => c :: readEntities cs
  | [] => []

/-- Whether a text spells one of the entities that markup knows. -/
def SpellsEntity (cs : List Char) : Prop := "&lt;".toList <:+: cs ∨ "&gt;".toList <:+: cs

instance (cs : List Char) : Decidable (SpellsEntity cs) := inferInstanceAs (Decidable (_ ∨ _))

def escape (cs : List Char) : List Char := cs.flatMap escapeChar

theorem escapeChar_eq_self {c : Char} (hopen : c ≠ '{') (hclose : c ≠ '}') (hless : c ≠ '<')
    (hgreater : c ≠ '>') : escapeChar c = [c] := by
  simp [escapeChar, hopen, hclose, hless, hgreater]

/-- Escapes start with a brace or an ampersand, so any other character of markup is one of the
text. -/
theorem escape_eq_cons {cs ds : List Char} {d : Char} (hopen : d ≠ '{') (hamp : d ≠ '&')
    (h : escape cs = d :: ds) : ∃ rest, cs = d :: rest ∧ escape rest = ds := by
  cases cs with
  | nil => cases h
  | cons c cs =>
    rw [escape, List.flatMap_cons] at h
    unfold escapeChar at h
    split at h
    · exact absurd (List.cons.inj h).1.symm hopen
    · split at h
      · exact absurd (List.cons.inj h).1.symm hopen
      · split at h
        · exact absurd (List.cons.inj h).1.symm hamp
        · split at h
          · exact absurd (List.cons.inj h).1.symm hamp
          · obtain ⟨rfl, hrest⟩ := List.cons.inj h
            exact ⟨cs, rfl, hrest⟩

/-- An entity in markup whose ampersand stands in the text was in the text as a whole. -/
theorem escape_eq_entity {cs ds : List Char} {letter : Char} (hopen : letter ≠ '{')
    (hamp : letter ≠ '&') (h : escape cs = letter :: 't' :: ';' :: ds) :
    ∃ rest, cs = letter :: 't' :: ';' :: rest := by
  obtain ⟨afterLetter, rfl, hletter⟩ := escape_eq_cons hopen hamp h
  obtain ⟨afterT, rfl, ht⟩ := escape_eq_cons (by decide) (by decide) hletter
  obtain ⟨rest, rfl, _⟩ := escape_eq_cons (by decide) (by decide) ht
  exact ⟨rest, rfl⟩

/-- Whatever the text, reading its markup reads the entities that it spells, and nothing else. -/
theorem readText_escape (cs : List Char) : readText (escape cs) = readEntities cs := by
  fun_induction readEntities cs with
  | case1 cs ih => exact congrArg ('<' :: ·) ih
  | case2 cs ih => exact congrArg ('>' :: ·) ih
  | case3 c cs hless hgreater ih =>
    by_cases hspecial : c = '{' ∨ c = '}' ∨ c = '<' ∨ c = '>'
    · obtain rfl | rfl | rfl | rfl := hspecial <;> exact congrArg (_ :: ·) ih
    · simp only [not_or] at hspecial
      obtain ⟨hopen, hclose, hl, hg⟩ := hspecial
      have hself : escape (c :: cs) = c :: escape cs := by
        rw [escape, List.flatMap_cons, escapeChar_eq_self hopen hclose hl hg]
        rfl
      rw [hself, readText, ih]
      · exact fun _ _ hc => absurd hc hopen
      · rintro ds rfl hds
        obtain ⟨rest, rfl⟩ := escape_eq_entity (by decide) (by decide) hds
        exact hless rest rfl rfl
      · rintro ds rfl hds
        obtain ⟨rest, rfl⟩ := escape_eq_entity (by decide) (by decide) hds
        exact hgreater rest rfl rfl
  | case4 => rfl

theorem escape_readEntities (cs : List Char) : escape (readEntities cs) = escape cs := by
  fun_induction readEntities cs with
  | case1 cs ih => exact congrArg (['&', 'l', 't', ';'] ++ ·) ih
  | case2 cs ih => exact congrArg (['&', 'g', 't', ';'] ++ ·) ih
  | case3 c cs _ _ ih => exact congrArg (escapeChar c ++ ·) ih
  | case4 => rfl

/-! ### Texts that spell entities -/

theorem readEntities_eq_self_iff (cs : List Char) : readEntities cs = cs ↔ ¬ SpellsEntity cs := by
  fun_induction readEntities cs with
  | case1 cs ih =>
    have hspells : SpellsEntity ('&' :: 'l' :: 't' :: ';' :: cs) := .inl ⟨[], cs, rfl⟩
    simp [hspells]
  | case2 cs ih =>
    have hspells : SpellsEntity ('&' :: 'g' :: 't' :: ';' :: cs) := .inr ⟨[], cs, rfl⟩
    simp [hspells]
  | case3 c cs hless hgreater ih =>
    have hl : ¬ "&lt;".toList <+: c :: cs := by
      rintro ⟨rest, hrest⟩
      obtain ⟨rfl, rfl⟩ := List.cons.inj hrest
      exact hless rest rfl rfl
    have hg : ¬ "&gt;".toList <+: c :: cs := by
      rintro ⟨rest, hrest⟩
      obtain ⟨rfl, rfl⟩ := List.cons.inj hrest
      exact hgreater rest rfl rfl
    have hspells : SpellsEntity (c :: cs) ↔ SpellsEntity cs := by
      simp only [SpellsEntity, List.infix_cons_iff, hl, hg, false_or]
    rw [hspells, ← ih, List.cons.injEq]
    exact and_iff_right rfl
  | case4 => decide

/-- Reading the markup of a text gives the text back exactly if it spells no entity, and two texts
have the same markup exactly if they agree once their entities are read. -/
theorem readText_emitInline (s : String) (span : Span) :
    (∃ markup, (Markup.text s span).emitInline = .ok markup ∧
      (readText markup.toList = s.toList ↔ ¬ SpellsEntity s.toList)) ∧
      ∀ t span', (Markup.text s span).emitInline = (Markup.text t span').emitInline ↔
        readEntities s.toList = readEntities t.toList := by
  have hmarkup (t : String) : (escapeText t).toList = escape t.toList := by
    rw [escapeText, String.toList_ofList]
    rfl
  constructor
  · refine ⟨escapeText s, by rw [emitInline], ?_⟩
    rw [hmarkup, readText_escape, readEntities_eq_self_iff]
  · intro t span'
    rw [emitInline, emitInline, Except.ok.injEq, ← String.toList_inj, hmarkup, hmarkup]
    constructor
    · intro h
      rw [← readText_escape, h, readText_escape]
    · intro h
      rw [← escape_readEntities, h, escape_readEntities]

end Markup

def Markup.text? : Markup → Option String
  | .text value _ => some value
  | .interpolation _ _ | .element _ => none

def Program.rootTexts (p : Program) : List String :=
  p.components.flatMap fun c => c.render.toList.flatMap fun r =>
    r.elements.flatMap fun e => e.children.filterMap Markup.text?

def entitySource : List Char := "component Box\n  render\n    p \"&lt;\"\n  end\nend\n".toList

def bracketSource : List Char := "component Box\n  render\n    p \"<\"\n  end\nend\n".toList

/-- Two texts with one script: the markup of the first is read as the second. -/
theorem entity_text_lost : ∃ a b, compile ⟨false⟩ "m" entitySource = .ok a ∧
    compile ⟨false⟩ "m" bracketSource = .ok b ∧ a.program.rootTexts = ["\"&lt;\""] ∧
    b.program.rootTexts = ["\"<\""] ∧ a.script = b.script ∧
    Markup.readText (Markup.escapeText "\"&lt;\"").toList = "\"<\"".toList := by
  obtain ⟨p, hp, htest⟩ : ∃ p, check "m" entitySource = .ok p ∧
      ((check "m" bracketSource).toOption.any fun q => p.rootTexts == ["\"&lt;\""] &&
        q.rootTexts == ["\"<\""] && p.lower.toOption.any fun m => q.lower.toOption.any fun n =>
          m.imported == n.imported &&
            m.items.flatMap Script.Item.lines == n.items.flatMap Script.Item.lines) = true :=
    exists_check_ok (by decide +kernel)
  obtain ⟨q, hq, htest⟩ := exists_ok_of_any htest
  simp only [Bool.and_eq_true, beq_iff_eq] at htest
  obtain ⟨⟨hentity, hbracket⟩, hlower⟩ := htest
  obtain ⟨m, hm, hlower⟩ := exists_ok_of_any hlower
  obtain ⟨n, hn, hsame⟩ := exists_ok_of_any hlower
  simp only [Bool.and_eq_true, beq_iff_eq] at hsame
  have hscript : m.text ⟨false⟩ = n.text ⟨false⟩ := by
    rw [Script.Module.text, Script.Module.text, Script.Module.lines, Script.Module.lines, hsame.1,
      hsame.2]
  exact ⟨_, _, compile_of_lower hp hm _, compile_of_lower hq hn _, hentity, hbracket, hscript,
    by decide +kernel⟩

end LayoutScript
