import LayoutScript.Proofs.ExpressionSpelling
import LayoutScript.Proofs.SpanIndependence
import LayoutScript.Proofs.TemplateReading

/-! Names of the instance in the slot of a template. A slot resolves the names in a text, an
expression those in a tree. For the same expression both write the same script, unless a method is
called that the component around does not declare: the slot takes it for a variable. -/
namespace LayoutScript

open LayoutScript.Script (Scope)
open LayoutScript.Script.Template (mapSigils mapSigils_name mapSigils_char mapSigils_append_of_head
  mapSigils_append_of_not_mem not_mem_of_isWord Braceless)

/-- In a slot, a method of the instance is written as a variable would be. -/
def Dialect.slot (scope : Scope) : Dialect :=
  { Dialect.script scope with method := (Dialect.script scope).var }

theorem Dialect.mk_eta (d : Dialect) :
    (⟨d.string, d.template, d.var, d.method⟩ : Dialect) = d := rfl

namespace Expr

def isString : Expr → Bool
  | .string _ _ | .template _ _ => true
  | _ => false

def instanceCall? : Expr → Option String
  | .instanceMethodCall method _ _ => some method
  | _ => none

def instanceCalls (e : Expr) : List String := e.parts.filterMap instanceCall?

def allInstanceCalls (es : List Expr) : List String := (insideAll es).filterMap instanceCall?

@[simp] theorem allInstanceCalls_cons (e : Expr) (es : List Expr) :
    allInstanceCalls (e :: es) = e.instanceCalls ++ allInstanceCalls es := by
  rw [allInstanceCalls, insideAll, List.filterMap_append]
  rfl

theorem instanceCalls_methodCall (object : Expr) (method : String) (args : List Expr) (s : Span) :
    (Expr.methodCall object method args s).instanceCalls =
      object.instanceCalls ++ allInstanceCalls args := by
  rw [instanceCalls, parts, inside, List.filterMap_cons_none rfl, List.filterMap_append]
  rfl

theorem instanceCalls_instanceMethodCall (method : String) (args : List Expr) (s : Span) :
    (Expr.instanceMethodCall method args s).instanceCalls = method :: allInstanceCalls args := by
  rw [instanceCalls, parts, inside]
  rfl

theorem instanceCalls_binary (left : Expr) (operator : String) (right : Expr) (grouped : Bool)
    (s : Span) :
    (Expr.binary left operator right grouped s).instanceCalls =
      left.instanceCalls ++ right.instanceCalls := by
  rw [instanceCalls, parts, inside, List.filterMap_cons_none rfl, List.filterMap_append]
  rfl

theorem instanceCalls_propertyAccess (object : Expr) (properties : List String) (s : Span) :
    (Expr.propertyAccess object properties s).instanceCalls = object.instanceCalls := by
  rw [instanceCalls, parts, inside, List.filterMap_cons_none rfl]
  rfl

/-! ### Sigils in the text of an expression -/

theorem mapSigils_of_not_mem (f : String → String) {cs : List Char} (h : '@' ∉ cs) :
    mapSigils f cs = cs := by
  calc mapSigils f cs = mapSigils f (cs ++ []) := by rw [List.append_nil]
    _ = cs ++ mapSigils f [] := mapSigils_append_of_not_mem f h []
    _ = cs := List.append_nil cs

theorem mapSigils_properties (f : String → String) {properties : List String}
    (h : ∀ p ∈ properties, isWord p = true) (cs : List Char) :
    mapSigils f (cs ++ propertiesText properties) =
      mapSigils f cs ++ propertiesText properties := by
  have hsigil : '@' ∉ propertiesText properties := by
    intro hmem
    obtain ⟨p, hp, hmem⟩ := List.mem_flatMap.1 hmem
    rcases List.mem_cons.1 hmem with heq | hmem
    · exact absurd heq (by decide)
    · exact not_mem_of_isWord (h p hp) hmem
  have hhead : ∀ c ∈ (propertiesText properties).head?, isWordChar c = false := by
    intro c hc
    cases properties with
    | nil => cases hc
    | cons p properties =>
      cases hc
      decide
  rw [mapSigils_append_of_head f cs hhead, mapSigils_of_not_mem f hsigil]

theorem mapSigils_commas (f : String → String) (css : List (List Char)) :
    mapSigils f (Text.commas css) = Text.commas (css.map (mapSigils f)) := by
  induction css with
  | nil => rfl
  | cons cs css ih =>
    cases css with
    | nil => rw [List.map_singleton, Text.commas_singleton, Text.commas_singleton]
    | cons ds css =>
      have hcomma : ∀ c ∈ (',' :: ' ' :: Text.commas (ds :: css)).head?, isWordChar c = false := by
        rintro c ⟨⟩
        decide
      rw [Text.commas_cons_cons, mapSigils_append_of_head f cs hcomma, mapSigils_char (by simp),
        mapSigils_char (by simp), ih, List.map_cons, List.map_cons, List.map_cons,
        Text.commas_cons_cons]

theorem mapSigils_parenthesized (f : String → String) (cs : List Char) :
    mapSigils f (Text.parenthesized cs) = Text.parenthesized (mapSigils f cs) := by
  have hclose : ∀ c ∈ [')'].head?, isWordChar c = false := by
    rintro c ⟨⟩
    decide
  rw [Text.parenthesized, List.cons_append, mapSigils_char (by simp),
    mapSigils_append_of_head f _ hclose]
  rfl

theorem mapSigils_operator (f : String → String) (left right : List Char) (p : Punct) :
    mapSigils f (left ++ ' ' :: p.text.toList ++ ' ' :: right) =
      mapSigils f left ++ ' ' :: p.text.toList ++ ' ' :: mapSigils f right := by
  have hblank : ∀ cs : List Char, ∀ c ∈ (' ' :: cs).head?, isWordChar c = false := by
    rintro cs c ⟨⟩
    decide
  have hsign : '@' ∉ ' ' :: p.text.toList := by cases p <;> decide
  rw [mapSigils_append_of_head f _ (hblank _), mapSigils_append_of_head f _ (hblank _),
    mapSigils_of_not_mem f hsign, mapSigils_char (by simp)]

theorem mapSigils_arguments (f : String → String) {args : List Expr} {d : Dialect}
    (h : ∀ a ∈ args, mapSigils f a.text = a.text d) (cs : List Char) :
    mapSigils f (cs ++ Text.arguments (texts args)) =
      mapSigils f cs ++ Text.arguments (texts args d) := by
  have hopen : ∀ c ∈ (Text.arguments (texts args)).head?, isWordChar c = false := by
    intro c hc
    rw [Text.arguments] at hc
    cases hc
    decide
  have htexts : (args.map (·.text)).map (mapSigils f) = args.map (·.text d) := by
    rw [List.map_map]
    exact List.map_congr_left h
  rw [mapSigils_append_of_head f cs hopen, Text.arguments, Text.arguments, mapSigils_parenthesized,
    mapSigils_commas, texts_eq_map, texts_eq_map, htexts]

theorem Canonical.mapSigils_text {role : Role} {e : Expr} (h : e.Canonical role)
    (hs : ∀ a ∈ e.parts, a.isString = false) (scope : Scope) :
    mapSigils scope.instanceVar e.text = e.text (.slot scope) := by
  have hargs {args : List Expr} (hs : ∀ a ∈ insideAll args, a.isString = false)
      (ih : ∀ a ∈ args, (∀ b ∈ a.parts, b.isString = false) →
        mapSigils scope.instanceVar a.text = a.text (.slot scope)) :
      ∀ a ∈ args, mapSigils scope.instanceVar a.text = a.text (.slot scope) :=
    fun a ha => ih a ha fun b hb => hs b (mem_insideAll.2 ⟨a, ha, hb⟩)
  have hname {name : String} (hw : isWord name = true) :
      mapSigils scope.instanceVar ('@' :: name.toList) = (scope.instanceVar name).toList := by
    have hresolved := @mapSigils_name scope.instanceVar name [] hw (by simp)
    rwa [List.append_nil, show mapSigils scope.instanceVar [] = [] from rfl, List.append_nil]
      at hresolved
  induction h with
  | identifier hw => rw [text, text, mapSigils_of_not_mem _ (not_mem_of_isWord hw.1)]
  | instanceVar hw =>
    rw [text, text]
    exact hname hw
  | call hw _ ih =>
    rw [Expr.parts, Expr.inside, List.forall_mem_cons] at hs
    rw [text, text, mapSigils_arguments _ (hargs hs.2 ih),
      mapSigils_of_not_mem _ (not_mem_of_isWord hw.1)]
  | instanceCall hw _ ih =>
    rw [Expr.parts, Expr.inside, List.forall_mem_cons] at hs
    rw [text, text, mapSigils_arguments _ (hargs hs.2 ih)]
    exact congrArg (· ++ _) (hname hw)
  | construct hw _ ih =>
    rw [Expr.parts, Expr.inside, List.forall_mem_cons] at hs
    have hfront : '@' ∉ "new ".toList ++ _ :=
      List.not_mem_append (by decide) (not_mem_of_isWord hw.1)
    rw [text, text, mapSigils_arguments _ (hargs hs.2 ih), mapSigils_of_not_mem _ hfront]
  | methodCall _ hw _ iho iha =>
    rw [Expr.parts, Expr.inside, List.forall_mem_cons, List.forall_mem_append] at hs
    obtain ⟨_, hobject, hrest⟩ := hs
    rw [text, text, mapSigils_arguments _ (hargs hrest iha),
      mapSigils_properties _ (by simpa using hw), iho hobject]
  | access _ hp ih =>
    rw [text_accessed, text_accessed, mapSigils_properties _ hp,
      ih (forall_parts_of_accessed (fun _ _ => rfl) hs)]
  | atom ha hw =>
    have hself := hs _ List.mem_cons_self
    unfold atom? at ha
    split at ha <;> cases ha
    · cases hself
    · cases hself
    · rw [text, text, mapSigils_of_not_mem _ (Numeral.not_mem hw (by decide) (by decide))]
    · rw [text, text, mapSigils_of_not_mem _ (by decide)]
    · rw [text, text, mapSigils_of_not_mem _ (by decide)]
    · rw [text, text, mapSigils_of_not_mem _ (by decide)]
  | negative hw =>
    rw [text, text, String.toList_append, mapSigils_append_of_not_mem _ (by decide),
      mapSigils_of_not_mem _ (Numeral.not_mem hw (by decide) (by decide))]
  | group _ _ _ ihl ihr =>
    rw [Expr.parts, Expr.inside, List.forall_mem_cons, List.forall_mem_append] at hs
    rw [text, text, if_pos rfl, if_pos rfl, mapSigils_parenthesized, mapSigils_operator,
      ihl hs.2.1, ihr hs.2.2]
  | binary _ _ _ ihl ihr =>
    rw [Expr.parts, Expr.inside, List.forall_mem_cons, List.forall_mem_append] at hs
    rw [text, text, if_neg Bool.false_ne_true, if_neg Bool.false_ne_true, mapSigils_operator,
      ihl hs.2.1, ihr hs.2.2]
  | chain _ ih | operand _ ih => exact ih hs

/-! ### When a slot and an expression agree -/

mutual

/-- Only the methods that an expression calls on the instance make a difference. -/
theorem text_congr {d : Dialect} {g h : String → List Char} (e : Expr)
    (hgh : ∀ m ∈ e.instanceCalls, g m = h m) :
    e.text { d with method := g } = e.text { d with method := h } := by
  cases e with
  | string | template | number | null | identifier | instanceVar | instanceVarAccess
  | interpolation =>
    simp only [text]
  | boolean value s => cases value <;> simp only [text]
  | propertyAccess object properties s =>
    rw [instanceCalls_propertyAccess] at hgh
    rw [text, text, text_congr object hgh]
  | construct name args s | call name args s =>
    rw [text, text, texts_congr args hgh]
  | methodCall object method args s =>
    rw [instanceCalls_methodCall, List.forall_mem_append] at hgh
    rw [text, text, text_congr object hgh.1,
      texts_congr args hgh.2]
  | instanceMethodCall method args s =>
    have hmethod : g method = h method := hgh method List.mem_cons_self
    simp only [text, hmethod,
      texts_congr args fun m hm => hgh m (List.mem_cons_of_mem _ hm)]
  | binary left operator right grouped s =>
    rw [instanceCalls_binary, List.forall_mem_append] at hgh
    rw [text, text, text_congr left hgh.1, text_congr right hgh.2]

theorem texts_congr {d : Dialect} {g h : String → List Char} (es : List Expr)
    (hgh : ∀ m ∈ allInstanceCalls es, g m = h m) :
    texts es { d with method := g } = texts es { d with method := h } := by
  cases es with
  | nil => rw [texts, texts]
  | cons e es =>
    rw [allInstanceCalls_cons, List.forall_mem_append] at hgh
    rw [texts, texts, text_congr e hgh.1, texts_congr es hgh.2]

end

@[simp] theorem length_commas (css : List (List Char)) :
    (Text.commas css).length = css.flatten.length + 2 * (css.length - 1) := by
  induction css with
  | nil => rfl
  | cons cs css ih =>
    cases css with
    | nil => simp
    | cons ds css =>
      rw [Text.commas_cons_cons, List.length_append, List.length_cons, List.length_cons, ih]
      simp only [List.flatten_cons, List.length_append, List.length_cons]
      omega

@[simp] theorem length_arguments (d : Dialect) (args : List Expr) :
    (Text.arguments (texts args d)).length =
      (texts args d).flatten.length + 2 * (args.length - 1) + 2 := by
  simp [Text.arguments, Text.parenthesized, length_commas]

mutual

theorem length_text (d : Dialect) (g h : String → List Char) (e : Expr) :
    (e.text { d with method := h }).length + (e.instanceCalls.flatMap g).length =
      (e.text { d with method := g }).length + (e.instanceCalls.flatMap h).length := by
  cases e with
  | string | template | number | null | identifier | instanceVar | instanceVarAccess
  | interpolation =>
    simp only [text]
    rfl
  | boolean value s => cases value <;> simp only [text] <;> rfl
  | propertyAccess object properties s =>
    have hobject := length_text d g h object
    simp only [instanceCalls_propertyAccess, text, List.length_append]
    omega
  | construct name args s | call name args s =>
    have hargs := length_texts d g h args
    rw [allInstanceCalls] at hargs
    simp only [instanceCalls, parts, inside, List.filterMap_cons, instanceCall?, text,
      List.length_append, length_arguments]
    omega
  | methodCall object method args s =>
    have hobject := length_text d g h object
    have hargs := length_texts d g h args
    simp only [instanceCalls_methodCall, List.flatMap_append, text, List.length_append,
      length_arguments]
    omega
  | instanceMethodCall method args s =>
    have hargs := length_texts d g h args
    simp only [instanceCalls_instanceMethodCall, List.flatMap_cons, text, List.length_append,
      length_arguments]
    omega
  | binary left operator right grouped s =>
    have hleft := length_text d g h left
    have hright := length_text d g h right
    cases grouped <;>
    · simp only [instanceCalls_binary, List.flatMap_append, text, Text.parenthesized,
        List.length_append, List.length_cons, if_true, Bool.false_eq_true, if_false]
      omega

theorem length_texts (d : Dialect) (g h : String → List Char) (es : List Expr) :
    (texts es { d with method := h }).flatten.length + ((allInstanceCalls es).flatMap g).length =
      (texts es { d with method := g }).flatten.length +
        ((allInstanceCalls es).flatMap h).length := by
  cases es with
  | nil =>
    rw [texts, texts]
    rfl
  | cons e es =>
    have he := length_text d g h e
    have hes := length_texts d g h es
    simp only [allInstanceCalls_cons, List.flatMap_append, texts, List.flatten_cons,
      List.length_append]
    omega

end

theorem length_flatMap_le {g h : String → List Char} {names : List String}
    (hle : ∀ name, (g name).length ≤ (h name).length) :
    (names.flatMap g).length ≤ (names.flatMap h).length ∧
      ((names.flatMap g).length = (names.flatMap h).length →
        ∀ name ∈ names, (g name).length = (h name).length) := by
  induction names with
  | nil => exact ⟨Nat.le_refl _, fun _ _ hname => by cases hname⟩
  | cons name names ih =>
    obtain ⟨hrest, heach⟩ := ih
    have hname := hle name
    rw [List.flatMap_cons, List.flatMap_cons, List.length_append, List.length_append]
    refine ⟨by omega, fun heq => List.forall_mem_cons.2 ⟨by omega, heach (by omega)⟩⟩

end Expr

namespace Script.Scope

theorem length_instanceVar (scope : Scope) (name : String) :
    (scope.instanceVar name).toList.length = name.toList.length +
      if scope.isState name || scope.isMethod name then 0 else 5 := by
  unfold instanceVar
  split
  · rfl
  · rw [String.toList_append, List.length_append, Nat.add_comm]
    rfl

theorem length_instanceMethod (scope : Scope) (name : String) :
    (scope.instanceMethod name).toList.length = name.toList.length +
      if scope.inComponent then 0 else 5 := by
  unfold instanceMethod
  split
  · rfl
  · rw [String.toList_append, List.length_append, Nat.add_comm]
    rfl

/-- The members of a component are written as its own names, and nothing else in it is; outside
there are none. Then a variable and a method of the instance are written alike. -/
theorem length_instanceVar_eq_iff (scope : Scope) (name : String) :
    (scope.instanceVar name).toList.length = (scope.instanceMethod name).toList.length ↔
      scope.inComponent = (scope.isState name || scope.isMethod name) := by
  rw [length_instanceVar, length_instanceMethod]
  cases scope.inComponent <;> cases scope.isState name || scope.isMethod name <;> simp

theorem instanceVar_eq_instanceMethod {scope : Scope} {name : String}
    (h : scope.inComponent = (scope.isState name || scope.isMethod name)) :
    scope.instanceVar name = scope.instanceMethod name := by
  rw [instanceVar, instanceMethod, h]

theorem length_instance_le (scope : Scope) :
    (∀ name, (scope.instanceMethod name).toList.length ≤ (scope.instanceVar name).toList.length) ∨
      ∀ name, (scope.instanceVar name).toList.length ≤
        (scope.instanceMethod name).toList.length := by
  simp only [length_instanceVar, length_instanceMethod]
  cases scope.inComponent with
  | true => exact .inl fun name => by simp
  | false =>
    refine .inr fun name => ?_
    split <;> simp

end Script.Scope

/-- A slot is written like the expression exactly if each method that is called on the instance is
written there like a variable. -/
theorem Expr.text_slot_iff (scope : Scope) (e : Expr) :
    e.text (.slot scope) = e.text (.script scope) ↔
      ∀ m ∈ e.instanceCalls, scope.inComponent = (scope.isState m || scope.isMethod m) := by
  constructor
  · intro heq m hm
    have hgrowth :=
      length_text (.script scope) (Dialect.script scope).var (Dialect.script scope).method e
    rw [Dialect.mk_eta, ← Dialect.slot] at hgrowth
    have hsame := hgrowth.trans (congrArg (fun cs => cs.length + _) heq)
    -- All calls change their length in the same direction, so none can make up for another.
    rw [← scope.length_instanceVar_eq_iff]
    rcases scope.length_instance_le with hle | hle
    · exact ((length_flatMap_le hle).2 (Nat.add_left_cancel hsame).symm m hm).symm
    · exact (length_flatMap_le hle).2 (Nat.add_left_cancel hsame) m hm
  · intro halike
    have hmethods : ∀ m ∈ e.instanceCalls,
        (Dialect.script scope).var m = (Dialect.script scope).method m :=
      fun m hm => congrArg String.toList (Scope.instanceVar_eq_instanceMethod (halike m hm))
    have hcongr := text_congr (d := .script scope) e hmethods
    rwa [Dialect.mk_eta, ← Dialect.slot] at hcongr

/-! ### Expressions in slots -/

/-- Characters that neither end a slot nor the string around it. -/
def fitsSlot (c : Char) : Bool := c != '{' && c != '}' && c != '"' && c != '\n'

theorem fitsSlot_of_isWordChar {c : Char} (h : isWordChar c = true) : fitsSlot c = true := by
  have hne (d : Char) (hd : isWordChar d = false) : (c != d) = true := by
    rw [bne_iff_ne]
    rintro rfl
    rw [h] at hd
    cases hd
  rw [fitsSlot, hne _ (by decide), hne _ (by decide), hne _ (by decide), hne _ (by decide)]
  rfl

/-- A text that a slot keeps as it is. -/
structure FitsSlot (cs : List Char) : Prop where
  head : ∃ c ds, cs = c :: ds ∧ Text.isBlank c = false
  last : ∃ ds c, cs = ds ++ [c] ∧ Text.isBlank c = false
  all : cs.all fitsSlot = true

namespace FitsSlot

variable {cs ds : List Char}

theorem append (hc : FitsSlot cs) {sep : List Char} (hs : sep.all fitsSlot = true)
    (hd : FitsSlot ds) :
    FitsSlot (cs ++ sep ++ ds) where
  head := by
    obtain ⟨c, cs, rfl, hhead⟩ := hc.head
    exact ⟨c, cs ++ sep ++ ds, rfl, hhead⟩
  last := by
    obtain ⟨ds, d, rfl, hlast⟩ := hd.last
    exact ⟨cs ++ sep ++ ds, d, (List.append_assoc ..).symm, hlast⟩
  all := by rw [List.all_append, List.all_append, hc.all, hs, hd.all]; rfl

theorem concat (hc : FitsSlot cs) (hd : FitsSlot ds) : FitsSlot (cs ++ ds) := by
  have hempty : [].all fitsSlot = true := rfl
  simpa using hc.append hempty hd

theorem of_solid (hne : cs ≠ []) (h : ∀ c ∈ cs, Text.isBlank c = false ∧ fitsSlot c = true) :
    FitsSlot cs where
  head := by
    obtain ⟨c, ds, rfl⟩ := List.exists_cons_of_ne_nil hne
    exact ⟨c, ds, rfl, (h c List.mem_cons_self).1⟩
  last := by
    obtain ⟨ds, c, rfl⟩ := List.eq_nil_or_concat cs |>.resolve_left hne
    exact ⟨ds, c, List.concat_eq_append, (h c (by simp)).1⟩
  all := List.all_eq_true.2 fun c hc => (h c hc).2

theorem of_signs (hne : cs ≠ []) (h : cs.all (fun c => !Text.isBlank c && fitsSlot c) = true) :
    FitsSlot cs := by
  refine of_solid hne fun c hc => ?_
  simpa using List.all_eq_true.1 h c hc

theorem of_word {name : String} (h : isWord name = true) : FitsSlot name.toList := by
  refine of_solid ?_ fun c hc => ?_
  · intro hnil
    simp [isWord, hnil] at h
  · have hchar := Script.Template.isWordChar_of_mem h hc
    exact ⟨isBlank_of_isWordChar hchar, fitsSlot_of_isWordChar hchar⟩

theorem sigil {name : String} (h : isWord name = true) : FitsSlot ('@' :: name.toList) := by
  have hsign : FitsSlot ['@'] := of_signs (by decide) (by decide)
  exact hsign.concat (of_word h)

theorem after_new {name : String} (h : isWord name = true) :
    FitsSlot ("new ".toList ++ name.toList) := by
  have hnew : FitsSlot "new".toList := of_signs (by decide) (by decide)
  have hblank : [' '].all fitsSlot = true := by decide
  exact hnew.append hblank (of_word h)

theorem of_numeral (h : Numeral cs) : FitsSlot cs := by
  refine of_solid h.ne_nil (h.forall_mem (fun d hd => ?_) (by decide))
  have hchar : isWordChar d = true := by simp [isWordChar, hd]
  exact ⟨isBlank_of_isWordChar hchar, fitsSlot_of_isWordChar hchar⟩

theorem properties (h : FitsSlot cs) {properties : List String}
    (hp : ∀ p ∈ properties, isWord p = true) : FitsSlot (cs ++ Expr.propertiesText properties) := by
  induction properties generalizing cs with
  | nil =>
    rw [Expr.propertiesText, List.flatMap_nil, List.append_nil]
    exact h
  | cons p properties ih =>
    obtain ⟨hword, hrest⟩ := List.forall_mem_cons.1 hp
    have hdot : ['.'].all fitsSlot = true := by decide
    have hnext := ih (h.append hdot (of_word hword)) hrest
    simpa [Expr.propertiesText] using hnext

theorem parenthesized (h : cs.all fitsSlot = true) : FitsSlot (Text.parenthesized cs) := by
  have hopen : FitsSlot ['('] := of_signs (by decide) (by decide)
  have hclose : FitsSlot [')'] := of_signs (by decide) (by decide)
  exact hopen.append h hclose

theorem all_commas {css : List (List Char)} (h : ∀ cs ∈ css, cs.all fitsSlot = true) :
    (Text.commas css).all fitsSlot = true := by
  induction css with
  | nil => rfl
  | cons cs css ih =>
    obtain ⟨hfirst, hrest⟩ := List.forall_mem_cons.1 h
    cases css with
    | nil => rwa [Text.commas_singleton]
    | cons ds css =>
      rw [Text.commas_cons_cons, List.all_append, hfirst, List.all_cons, List.all_cons, ih hrest]
      rfl

theorem arguments (h : FitsSlot cs) {args : List Expr} (hargs : ∀ a ∈ args, FitsSlot a.text) :
    FitsSlot (cs ++ Text.arguments (Expr.texts args)) := by
  have hcommas : (Text.commas (Expr.texts args)).all fitsSlot = true := by
    rw [Expr.texts_eq_map]
    exact all_commas (List.forall_mem_map.2 fun a ha => (hargs a ha).all)
  exact h.concat (parenthesized hcommas)

theorem operator (hc : FitsSlot cs) {p : Punct} (hp : p.isBinary = true) (hd : FitsSlot ds) :
    FitsSlot (cs ++ ' ' :: p.text.toList ++ ' ' :: ds) := by
  have hsign : (' ' :: p.text.toList ++ [' ']).all fitsSlot = true := by
    revert hp
    cases p <;> decide
  simpa using hc.append hsign hd

theorem braceless (h : FitsSlot cs) : Braceless cs := by
  intro c hc
  have hfits := List.all_eq_true.1 h.all c hc
  simp only [fitsSlot, Bool.and_eq_true, bne_iff_ne] at hfits
  exact hfits.1.1

theorem not_allBlank (h : FitsSlot cs) : Text.allBlank cs = false := by
  obtain ⟨c, ds, rfl, hblank⟩ := h.head
  rw [Text.allBlank, List.all_cons, hblank, Bool.false_and]

theorem trim_eq (h : FitsSlot cs) : Text.trim cs = cs := by
  apply Text.trim_of_ends
  · obtain ⟨c, ds, rfl, hhead⟩ := h.head
    simpa using hhead
  · obtain ⟨ds, c, rfl, hlast⟩ := h.last
    simpa using hlast

theorem wellFormed (h : FitsSlot cs) :
    (Lexeme.template (String.ofList ('#' :: '{' :: cs ++ ['}']))).WellFormed := by
  have hmem {d : Char} (hd : fitsSlot d = false) (hne : d ∉ ['#', '{', '}']) :
      d ∉ '#' :: '{' :: cs ++ ['}'] := by
    intro hmem
    have hcs : d ∈ cs := by grind
    rw [List.all_eq_true.1 h.all d hcs] at hd
    cases hd
  rw [Lexeme.WellFormed, String.toList_ofList]
  exact ⟨hmem (by decide) (by decide), hmem (by decide) (by decide), rfl⟩

theorem emit_template (h : FitsSlot cs) (scope : Scope) (span : Span) :
    (Expr.template (String.ofList ('#' :: '{' :: cs ++ ['}'])) span).emit scope =
      String.ofList ('\x60' :: '$' :: '{' :: mapSigils scope.instanceVar cs ++ ['}', '\x60']) := by
  have hbalanced : Script.Template.Balanced cs :=
    Script.Template.balanced_iff.2 (Script.Template.nesting_braceless h.braceless 0)
  have hslot : Script.Template.nextSlot? ('#' :: '{' :: cs ++ ['}']) = some ([], cs, []) := by
    rw [List.cons_append, List.cons_append, Script.Template.nextSlot?_open,
      Script.Template.closing?_eq_some_iff.2 ⟨rfl, hbalanced⟩]
    rfl
  rw [Expr.emit, Script.Template.emit, String.toList_ofList,
    Script.Template.parts_of_slot hslot h.not_allBlank, h.trim_eq]
  simp [Script.Template.parts, Script.Template.partsWithin, Script.Template.Part.emit,
    Script.Template.escapeText]

end FitsSlot

theorem Expr.Canonical.fitsSlot {role : Role} {e : Expr} (h : e.Canonical role)
    (hs : ∀ a ∈ e.parts, a.isString = false) : FitsSlot e.text := by
  have hargs {args : List Expr} (hs : ∀ a ∈ insideAll args, a.isString = false)
      (ih : ∀ a ∈ args, (∀ b ∈ a.parts, b.isString = false) → FitsSlot a.text) :
      ∀ a ∈ args, FitsSlot a.text :=
    fun a ha => ih a ha fun b hb => hs b (mem_insideAll.2 ⟨a, ha, hb⟩)
  induction h with
  | identifier hw =>
    rw [text]
    exact .of_word hw.1
  | instanceVar hw =>
    rw [text]
    exact .sigil hw
  | call hw _ ih =>
    rw [Expr.parts, Expr.inside, List.forall_mem_cons] at hs
    rw [text]
    exact (FitsSlot.of_word hw.1).arguments (hargs hs.2 ih)
  | instanceCall hw _ ih =>
    rw [Expr.parts, Expr.inside, List.forall_mem_cons] at hs
    rw [text]
    exact (FitsSlot.sigil hw).arguments (hargs hs.2 ih)
  | construct hw _ ih =>
    rw [Expr.parts, Expr.inside, List.forall_mem_cons] at hs
    rw [text]
    exact (FitsSlot.after_new hw.1).arguments (hargs hs.2 ih)
  | methodCall _ hw _ iho iha =>
    rw [Expr.parts, Expr.inside, List.forall_mem_cons, List.forall_mem_append] at hs
    obtain ⟨_, hobject, hrest⟩ := hs
    rw [text]
    exact ((iho hobject).properties (by simpa using hw)).arguments (hargs hrest iha)
  | access _ hp ih =>
    rw [text_accessed]
    exact (ih (forall_parts_of_accessed (fun _ _ => rfl) hs)).properties hp
  | atom ha hw =>
    have hself := hs _ List.mem_cons_self
    unfold atom? at ha
    split at ha <;> cases ha
    · cases hself
    · cases hself
    · rw [text]
      exact .of_numeral hw
    all_goals
      rw [text]
      exact .of_signs (by decide) (by decide)
  | negative hw =>
    rw [text, String.toList_append]
    have hminus : FitsSlot "-".toList := .of_signs (by decide) (by decide)
    exact hminus.concat (.of_numeral hw)
  | group _ hp _ ihl ihr =>
    rw [Expr.parts, Expr.inside, List.forall_mem_cons, List.forall_mem_append] at hs
    rw [text, if_pos rfl]
    exact .parenthesized ((ihl hs.2.1).operator hp (ihr hs.2.2)).all
  | binary _ hp _ ihl ihr =>
    rw [Expr.parts, Expr.inside, List.forall_mem_cons, List.forall_mem_append] at hs
    rw [text, if_neg Bool.false_ne_true]
    exact (ihl hs.2.1).operator hp (ihr hs.2.2)
  | chain _ ih | operand _ ih => exact ih hs

/-! ### Slots of a text -/

theorem Expr.Written.exists_canonical {e : Expr} (h : e.Written)
    (hs : ∀ a ∈ e.parts, a.isString = false) :
    ∃ e' : Expr, e'.Canonical .whole ∧ (∀ a ∈ e'.parts, a.isString = false) ∧ e'.text = e.text ∧
      ∀ d, e'.text d = e.text d := by
  cases h with
  | value h => exact ⟨e, h, hs, rfl, fun _ => rfl⟩
  | @target name s properties t hw hne hp =>
    obtain ⟨q, qs, rfl⟩ := List.exists_cons_of_ne_nil hne
    have haccess : Canonical .access (.instanceVarAccess name (q :: qs) (s.join t)) :=
      @Canonical.access (.instanceVar name s) s t (q :: qs) (.instanceVar hw) hp
    refine ⟨_, .operand (.chain haccess), ?_, ?_, fun d => ?_⟩
    · intro a ha
      rw [parts, inside, List.mem_singleton] at ha
      rw [ha]
      rfl
    · rw [text, text, text]
    · rw [text, text, text]

theorem Expr.Canonical.check_assigned_emit {e : Expr} (h : e.Canonical .whole) {source : String}
    (hreach : Token.InReach source ("x = ".toList ++ e.text)) :
    ∃ value span, check source ("x = ".toList ++ e.text) = .ok ⟨[.assign "x" value span]⟩ ∧
      ∀ scope, value.emit scope = e.emit scope := by
  obtain ⟨value, span, hcheck, hbare⟩ := h.check_assigned hreach
  refine ⟨value, span, hcheck, fun scope => ?_⟩
  rw [← emit_mapSpan (fun _ => .origin) scope value, ← emit_mapSpan (fun _ => .origin) scope e]
  exact congrArg (emit scope) hbare

/-- An expression of a text without strings may also stand in a slot. Its text, if it is in reach,
is read as the value of an assignment that is written like the expression, and in a string as the
template of one slot, which is always in reach. The slot is written like the expression exactly if
every method that it calls on the instance is a member of the component around; where there is no
component there are no members, and the two never differ. -/
theorem slot_resolves_like_expression {source : String} {code : List Char} {p : Program}
    (h : check source code = .ok p) {e : Expr} (he : e ∈ p.expressions)
    (hs : ∀ a ∈ e.parts, a.isString = false) (scope : Scope) (source' : String) :
    (Token.InReach source' ("x = ".toList ++ e.text) →
      ∃ value span, check source' ("x = ".toList ++ e.text) = .ok ⟨[.assign "x" value span]⟩ ∧
        value.emit scope = e.emit scope) ∧
    (∃ value span, check source' ("x = \"#\x7b".toList ++ e.text ++ "\x7d\"".toList) =
        .ok ⟨[.assign "x" value span]⟩ ∧
      value.emit scope =
        "\x60$\x7b" ++ String.ofList (mapSigils scope.instanceVar e.text) ++ "\x7d\x60") ∧
    (String.ofList (mapSigils scope.instanceVar e.text) = e.emit scope ↔
      ∀ m ∈ e.instanceCalls, scope.inComponent = (scope.isState m || scope.isMethod m)) := by
  have hwritten : e.Written := check_written h e he
  obtain ⟨e', hcanonical, hs', htext, htexts⟩ := hwritten.exists_canonical hs
  have hslot : mapSigils scope.instanceVar e.text = e.text (.slot scope) := by
    rw [← htext, ← htexts, hcanonical.mapSigils_text hs']
  rw [← htext]
  refine ⟨?_, ?_, ?_⟩
  · intro hreach
    obtain ⟨value, span, hcheck, hemit⟩ := hcanonical.check_assigned_emit hreach
    refine ⟨value, span, hcheck, (hemit scope).trans (String.toList_injective ?_)⟩
    rw [hcanonical.toList_emit_eq, hwritten.toList_emit_eq, htexts]
  · have hfits := hcanonical.fitsSlot hs'
    have htemplate : Expr.Canonical .whole (.template _ .origin) :=
      .operand (.atom (l := .template _) rfl hfits.wellFormed)
    have hx : Token.Lexes source' 1 1 Loose (Lexeme.identifier "x").text.toList _ :=
      .lone rfl ⟨by decide, by decide⟩
    have hequal := hx.append_blank (Token.Lexes.lone (l := .punct .equal) rfl trivial) Loose.blank
    have hreach := (hequal.append_blank (.lone rfl hfits.wellFormed) Loose.blank).inReach_iff.2
      (show 3 + 2 ≤ UInt32.size by decide)
    have hline : ∀ raw, (Lexeme.identifier "x").text.toList ++ ' ' ::
        (Lexeme.punct .equal).text.toList ++
        ' ' :: (Lexeme.template raw).text.toList =
          "x = ".toList ++ Expr.text (.template raw .origin) := by
      intro raw
      simp [Lexeme.text, Lexeme.value, Punct.text, Expr.text, Dialect.source]
    rw [hline] at hreach
    obtain ⟨value, span, hcheck, hemit⟩ := htemplate.check_assigned_emit hreach
    refine ⟨value, span, ?_, ?_⟩
    · rw [← hcheck, ← hline]
      simp [Lexeme.text, Lexeme.value, Punct.text]
    · rw [hemit, hfits.emit_template]
      apply String.toList_injective
      simp
  · rw [htext, hslot, ← Expr.text_slot_iff, ← hwritten.toList_emit_eq, ← String.toList_inj,
      String.toList_ofList]

def ownMethodSource : List Char :=
  ("component Box\n  state\n    n : number = 0\n  end\n  def bump(k)\n    @n = @n + k\n  end\n" ++
    "  def show(k)\n    print @bump(@n + k)\n  end\nend\n").toList

theorem slot_of_ownMethodSource : ∃ p c e, check "m" ownMethodSource = .ok p ∧ c ∈ p.components ∧
    e ∈ p.expressions ∧ e.emit c.scope = "bump(n + k)" ∧
    ∃ value span, check "n" "x = \"#\x7b@bump(@n + k)\x7d\"".toList =
      .ok ⟨[.assign "x" value span]⟩ ∧
      value.emit c.scope = "\x60$\x7bbump(n + k)\x7d\x60" := by
  obtain ⟨p, hp, hany⟩ : ∃ p, check "m" ownMethodSource = .ok p ∧
      (p.components.any fun c => p.expressions.any fun e =>
        e.text == "@bump(@n + k)".toList && e.emit c.scope == "bump(n + k)" &&
        e.parts.all (fun a => !a.isString) && e.instanceCalls.all fun m =>
          c.scope.inComponent == (c.scope.isState m || c.scope.isMethod m)) = true :=
    exists_check_ok (by decide +kernel)
  obtain ⟨c, hc, hany⟩ := List.any_eq_true.1 hany
  obtain ⟨e, he, htest⟩ := List.any_eq_true.1 hany
  simp only [Bool.and_eq_true, beq_iff_eq, List.all_eq_true, Bool.not_eq_true'] at htest
  obtain ⟨⟨⟨htext, hemit⟩, hs⟩, hcalls⟩ := htest
  obtain ⟨-, ⟨value, span, hcheck, hvalue⟩, hiff⟩ :=
    slot_resolves_like_expression hp he hs c.scope "n"
  rw [hiff.2 hcalls, hemit] at hvalue
  rw [htext] at hcheck
  exact ⟨p, c, e, hp, hc, he, hemit, value, span, hcheck, hvalue⟩

def foreignMethodSource : List Char :=
  ("component Box\n  def show()\n    print \"#\x7b@go(1)\x7d\"\n    print @go(1)\n" ++
    "  end\nend\n").toList

/-- The slot takes the method for a field of a receiver that a component does not have. -/
theorem slot_differs_for_foreign_method : ∃ p c e t, check "m" foreignMethodSource = .ok p ∧
    c ∈ p.components ∧ e ∈ p.expressions ∧ t ∈ p.expressions ∧ (∀ a ∈ e.parts, a.isString = false) ∧
    e.text = "@go(1)".toList ∧ t.text = "\"#\x7b@go(1)\x7d\"".toList ∧
    e.emit c.scope = "go(1)" ∧ t.emit c.scope = "\x60$\x7bthis.go(1)\x7d\x60" ∧
    mapSigils c.scope.instanceVar e.text = "this.go(1)".toList := by
  obtain ⟨p, hp, hany⟩ : ∃ p, check "m" foreignMethodSource = .ok p ∧
      (p.components.any fun c => (p.expressions.any fun e => e.parts.all (fun a => !a.isString) &&
          e.text == "@go(1)".toList && e.emit c.scope == "go(1)") &&
        (p.expressions.any fun t => t.text == "\"#\x7b@go(1)\x7d\"".toList &&
          t.emit c.scope == "\x60$\x7bthis.go(1)\x7d\x60") &&
        mapSigils c.scope.instanceVar "@go(1)".toList == "this.go(1)".toList) = true :=
    exists_check_ok (by decide +kernel)
  obtain ⟨c, hc, htest⟩ := List.any_eq_true.1 hany
  simp only [Bool.and_eq_true, beq_iff_eq, List.any_eq_true, List.all_eq_true, Bool.not_eq_true']
    at htest
  obtain ⟨⟨⟨e, he, ⟨hs, hname⟩, hcall⟩, t, ht, htext, hslot⟩, hresolved⟩ := htest
  exact ⟨p, c, e, t, hp, hc, he, ht, hs, hname, htext, hcall, hslot, hname ▸ hresolved⟩

end LayoutScript
