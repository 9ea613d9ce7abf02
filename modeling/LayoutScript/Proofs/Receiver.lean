import LayoutScript.Proofs.Occurrences
import LayoutScript.Proofs.RoundTrip
import LayoutScript.Proofs.TemplateRewriting

/-! Outside components, the script of an expression is a text of the language again: it is the
canonical text of the expression in which variables and methods of the instance are read from the
receiver. So it is read as that expression, with every operator, argument and property in its
place. -/
namespace LayoutScript

open LayoutScript.Script (Scope)

namespace Expr

/-! ### The receiver in place of instance variables -/

/-- Reads properties from an expression, in one access with those that it reads already. -/
def reading (object : Expr) (properties : List String) (s : Span) : Expr :=
  match object with
  | .propertyAccess inner before _ => .propertyAccess inner (before ++ properties) s
  | object => .propertyAccess object properties s

mutual

/-- An expression in which whatever belongs to the instance is read from `this`. -/
def onReceiver : Expr → Expr
  | .string value s => .string value s
  | .template raw s => .template raw s
  | .number raw s => .number raw s
  | .boolean value s => .boolean value s
  | .null s => .null s
  | .identifier name s => .identifier name s
  | .instanceVar name s => .propertyAccess (.identifier "this" s) [name] s
  | .instanceVarAccess name properties s =>
    .propertyAccess (.identifier "this" s) (name :: properties) s
  | .propertyAccess object properties s => object.onReceiver.reading properties s
  | .construct className args s => .construct className (onReceiverAll args) s
  | .call callee args s => .call callee (onReceiverAll args) s
  | .methodCall object method args s =>
    .methodCall object.onReceiver method (onReceiverAll args) s
  | .instanceMethodCall method args s =>
    .methodCall (.identifier "this" s) method (onReceiverAll args) s
  | .binary left operator right grouped s =>
    .binary left.onReceiver operator right.onReceiver grouped s
  | .interpolation raw s => .interpolation raw s

def onReceiverAll : List Expr → List Expr
  | [] => []
  | e :: es => e.onReceiver :: onReceiverAll es

end

@[simp] theorem onReceiverAll_eq_map (es : List Expr) : onReceiverAll es = es.map onReceiver := by
  induction es with
  | nil => rw [onReceiverAll, List.map_nil]
  | cons e es ih => rw [onReceiverAll, ih, List.map_cons]

theorem opening?_reading (object : Expr) (properties : List String) (s : Span) :
    (object.reading properties s).opening? = object.opening? := by
  unfold reading
  split <;> rfl

theorem opening?_onReceiver (name : String) :
    ∀ e : Expr, e.onReceiver.opening? ≠ some (.instanceVar name)
  | .propertyAccess object properties s => by
    rw [onReceiver, opening?_reading]
    exact opening?_onReceiver name object
  | .methodCall object method args s => by
    rw [onReceiver, opening?]
    exact opening?_onReceiver name object
  | .string .. | .template .. | .number .. | .boolean .. | .null _ | .identifier ..
  | .instanceVar .. | .instanceVarAccess .. | .construct .. | .call .. | .instanceMethodCall ..
  | .binary .. | .interpolation .. => by
    rw [onReceiver]
    simp [opening?]

theorem accessed_of_opening? {base : Expr} {properties : List String}
    (ho : ∀ name, base.opening? ≠ some (.instanceVar name)) (hne : properties ≠ []) (s : Span) :
    base.accessed s s properties = .propertyAccess base properties s := by
  unfold accessed
  split
  · exact absurd rfl hne
  · next name _ _ => exact absurd rfl (ho name)
  · rfl

theorem Canonical.reading {object : Expr} {properties : List String} (h : object.Canonical .access)
    (ho : ∀ name, object.opening? ≠ some (.instanceVar name)) (hne : properties ≠ [])
    (hp : ∀ p ∈ properties, isWord p = true) (s : Span) :
    (object.reading properties s).Canonical .access := by
  cases h with
  | @access base start last before hb hbefore =>
    have hbase : ∀ name, base.opening? ≠ some (.instanceVar name) := by
      rwa [opening?_accessed] at ho
    have hself : (base.accessed start last before).reading properties s =
        base.accessed s s (before ++ properties) := by
      rw [accessed_of_opening? hbase (by simp [hne])]
      unfold accessed
      split
      · cases hb <;> rfl
      · next name _ _ => exact absurd rfl (hbase name)
      · rfl
    rw [hself]
    exact .access hb (List.forall_mem_append.2 ⟨hbefore, hp⟩)

/-- An instance variable alone is a base, but it is read from the receiver. -/
def Role.onReceiver : Role → Role
  | .base => .access
  | role => role

theorem canonical_this (s : Span) : (Expr.identifier "this" s).Canonical .access :=
  (Canonical.identifier ⟨by decide, by decide⟩).bare

theorem Canonical.receiver {properties : List String} (hne : properties ≠ [])
    (hp : ∀ p ∈ properties, isWord p = true) (s t : Span) :
    (Expr.propertyAccess (.identifier "this" s) properties t).Canonical .access :=
  (canonical_this s).reading (by simp [opening?]) hne hp t

theorem Canonical.onReceiver {role : Role} {e : Expr} (h : e.Canonical role) :
    e.onReceiver.Canonical role.onReceiver := by
  have hargs {args : List Expr} (ih : ∀ a ∈ args, a.onReceiver.Canonical .whole) :
      ∀ a ∈ args.map Expr.onReceiver, a.Canonical .whole := by
    intro a ha
    obtain ⟨a, hmem, rfl⟩ := List.mem_map.1 ha
    exact ih a hmem
  induction h with
  | identifier hw =>
    rw [Expr.onReceiver]
    exact (Canonical.identifier hw).bare
  | call hw _ ih =>
    rw [Expr.onReceiver, onReceiverAll_eq_map]
    exact (Canonical.call hw (hargs ih)).bare
  | instanceVar hw =>
    rw [Expr.onReceiver]
    exact .receiver (by simp) (by simpa using hw) _ _
  | @instanceCall name args s hw _ ih =>
    rw [Expr.onReceiver, onReceiverAll_eq_map]
    exact (Canonical.methodCall (canonical_this s) hw (hargs ih)).bare
  | methodCall _ hw _ iho iha =>
    rw [Expr.onReceiver, onReceiverAll_eq_map]
    exact (Canonical.methodCall iho hw (hargs iha)).bare
  | @access base start last properties hb hp ih =>
    unfold accessed
    split
    · exact ih
    · next name span hne =>
      cases hb with
      | instanceVar hw =>
        rw [Expr.onReceiver]
        exact .receiver (by simp) (List.forall_mem_cons.2 ⟨hw, hp⟩) _ _
    · next hne _ =>
      rw [Expr.onReceiver]
      exact ih.reading (fun name => opening?_onReceiver name base) (fun h => hne h) hp _
  | @atom l make s ha hw =>
    have hself : (make s).onReceiver = make s := by
      unfold atom? at ha
      split at ha <;> cases ha <;> rw [Expr.onReceiver]
    rw [hself]
    exact .atom ha hw
  | negative hw =>
    rw [Expr.onReceiver]
    exact .negative hw
  | construct hw _ ih =>
    rw [Expr.onReceiver, onReceiverAll_eq_map]
    exact .construct hw (hargs ih)
  | group _ hp _ ihl ihr =>
    rw [Expr.onReceiver]
    exact .group ihl hp ihr
  | chain _ ih => exact .chain ih
  | operand _ ih => exact .operand ih
  | binary _ hp _ ihl ihr =>
    rw [Expr.onReceiver]
    exact .binary ihl hp ihr

/-! ### The script is the text of that expression -/

/-- A literal that the script writes as the text does. -/
def isVerbatim : Expr → Bool
  | .template _ _ => false
  | .string value _ => value.toList.all fun c => Script.escapeChar c == [c]
  | _ => true

end Expr

theorem Script.toList_quote {s : String} (h : ∀ c ∈ s.toList, escapeChar c = [c]) :
    (quote s).toList = '"' :: s.toList ++ ['"'] := by
  have hself : s.toList.flatMap escapeChar = s.toList := by
    generalize s.toList = cs at h
    induction cs with
    | nil => rfl
    | cons c cs ih =>
      rw [List.flatMap_cons, h c List.mem_cons_self, ih fun d hd => h d (List.mem_cons_of_mem _ hd)]
      rfl
  rw [quote, String.toList_ofList, hself]

namespace Expr

@[simp] theorem text_reading (object : Expr) (properties : List String) (s : Span) :
    (object.reading properties s).text = object.text ++ propertiesText properties := by
  unfold reading
  split
  · rw [text, text, propertiesText, propertiesText, propertiesText, List.flatMap_append,
      List.append_assoc]
  · rw [text]

@[simp] theorem text_onReceiver_accessed (start last : Span) (base : Expr)
    (properties : List String) :
    (base.accessed start last properties).onReceiver.text =
      base.onReceiver.text ++ propertiesText properties := by
  unfold accessed
  split
  · simp [propertiesText]
  · simp [onReceiver, text, propertiesText]
  · rw [onReceiver, text_reading]

theorem toList_intercalate_dot {properties : List String} (h : properties ≠ []) :
    '.' :: (".".intercalate properties).toList = propertiesText properties := by
  induction properties with
  | nil => exact absurd rfl h
  | cons name properties ih =>
    cases properties with
    | nil => simp [propertiesText]
    | cons name' properties =>
      rw [String.intercalate_cons_cons, String.toList_append, String.toList_append]
      rw [propertiesText, List.flatMap_cons, ← propertiesText, ← ih (by simp)]
      simp

@[simp] theorem toList_emit_accessed (scope : Scope) (start last : Span) (base : Expr)
    (properties : List String) : ((base.accessed start last properties).emit scope).toList =
      (base.emit scope).toList ++ propertiesText properties := by
  unfold accessed
  split
  · simp [propertiesText]
  · next hne =>
    rw [emit, emit, ← toList_intercalate_dot fun h => hne h]
    simp
  · next hne _ =>
    rw [emit, ← toList_intercalate_dot fun h => hne h]
    simp

theorem toList_emitAll (scope : Scope) (args : List Expr) :
    '(' :: (", ".intercalate (emitAll scope args)).toList ++ [')'] =
      Text.arguments (args.map fun a => (a.emit scope).toList) := by
  rw [emitAll_eq_map, String.toList_intercalate, List.map_map]
  rfl

theorem forall_parts_of_accessed {P : Expr → Prop} {start last : Span} {base : Expr}
    {properties : List String} (hvar : ∀ name s, P (.instanceVar name s))
    (h : ∀ a ∈ (base.accessed start last properties).parts, P a) : ∀ a ∈ base.parts, P a := by
  unfold accessed at h
  split at h
  · exact h
  · next name s _ =>
    rw [parts, inside, List.forall_mem_singleton]
    exact hvar name s
  · rw [parts, inside] at h
    exact (List.forall_mem_cons.1 h).2

/-- Outside components, a script has the text of the expression on its receiver. -/
theorem Canonical.toList_emit {role : Role} {e : Expr} (h : e.Canonical role)
    (hplain : ∀ a ∈ e.parts, a.isVerbatim = true) (declared : List String) :
    (e.emit (.alone declared)).toList = e.onReceiver.text := by
  have hargs {args : List Expr} (hplain : ∀ a ∈ insideAll args, a.isVerbatim = true)
      (ih : ∀ a ∈ args, (∀ b ∈ a.parts, b.isVerbatim = true) →
        (a.emit (.alone declared)).toList = a.onReceiver.text) :
      '(' :: (", ".intercalate (emitAll (.alone declared) args)).toList ++ [')'] =
        Text.arguments (texts (onReceiverAll args)) := by
    rw [toList_emitAll, texts_eq_map, onReceiverAll_eq_map, List.map_map]
    refine congrArg Text.arguments (List.map_congr_left fun a ha => ih a ha fun b hb => hplain b ?_)
    exact mem_insideAll.2 ⟨a, ha, hb⟩
  induction h with
  | identifier _ | negative _ => rw [emit, Expr.onReceiver, text]
  | instanceVar _ =>
    rw [emit, Expr.onReceiver, text, text, Scope.instanceVar_alone]
    simp [propertiesText]
  | call _ _ ih =>
    rw [Expr.parts, Expr.inside, List.forall_mem_cons] at hplain
    rw [emit, Expr.onReceiver, text, ← hargs hplain.2 ih]
    simp
  | instanceCall _ _ ih =>
    rw [Expr.parts, Expr.inside, List.forall_mem_cons] at hplain
    rw [emit, Expr.onReceiver, text, text, ← hargs hplain.2 ih]
    simp [propertiesText, Scope.instanceMethod, Scope.alone]
  | construct _ _ ih =>
    rw [Expr.parts, Expr.inside, List.forall_mem_cons] at hplain
    rw [emit, Expr.onReceiver, text, ← hargs hplain.2 ih]
    simp
  | methodCall _ _ _ iho iha =>
    rw [Expr.parts, Expr.inside, List.forall_mem_cons, List.forall_mem_append] at hplain
    obtain ⟨_, hobject, hrest⟩ := hplain
    rw [emit, Expr.onReceiver, text, ← hargs hrest iha, ← iho hobject]
    simp [propertiesText]
  | access _ _ ih =>
    rw [toList_emit_accessed, text_onReceiver_accessed,
      ih (forall_parts_of_accessed (fun _ _ => rfl) hplain)]
  | atom ha _ =>
    have hself := hplain _ List.mem_cons_self
    unfold atom? at ha
    split at ha <;> cases ha
    · rw [isVerbatim, List.all_eq_true] at hself
      rw [emit, Expr.onReceiver, text, Script.toList_quote fun c hc => beq_iff_eq.1 (hself c hc)]
      rfl
    · cases hself
    · rw [emit, Expr.onReceiver, text]
    · rw [emit, Expr.onReceiver, text, if_pos rfl]
    · rw [emit, Expr.onReceiver, text, if_neg Bool.false_ne_true]
    · rw [emit, Expr.onReceiver, text]
  | group _ _ _ ihl ihr | binary _ _ _ ihl ihr =>
    rw [Expr.parts, Expr.inside, List.forall_mem_cons, List.forall_mem_append] at hplain
    obtain ⟨_, hleft, hright⟩ := hplain
    rw [emit, Expr.onReceiver, text, ← ihl hleft, ← ihr hright]
    simp [Text.parenthesized]
  | chain _ ih | operand _ ih => exact ih hplain

/-! ### The script is read again -/

theorem Written.onReceiver {e : Expr} (h : e.Written) : e.onReceiver.Canonical .whole := by
  cases h with
  | value h => exact h.onReceiver
  | target hw _ hp =>
    rw [Expr.onReceiver, Expr.onReceiver]
    exact (Canonical.receiver (by simp) (List.forall_mem_cons.2 ⟨hw, hp⟩) _ _).whole

theorem Written.toList_emit {e : Expr} (h : e.Written)
    (hplain : ∀ a ∈ e.parts, a.isVerbatim = true) (declared : List String) :
    (e.emit (.alone declared)).toList = e.onReceiver.text := by
  cases h with
  | value h => exact h.toList_emit hplain declared
  | @target name s properties t hw hne hp =>
    rw [emit, emit, Expr.onReceiver, Expr.onReceiver, text_reading, text, text,
      ← toList_intercalate_dot hne, Scope.instanceVar_alone]
    simp [propertiesText]

end Expr

theorem Stmt.eq_assign_of_bare {s : Stmt} {name : String} {value : Expr} {span : Span}
    (h : s.bare = (assign name value span).bare) :
    ∃ value' span', s = .assign name value' span' ∧ value'.bare = value.bare := by
  cases s <;> simp only [bare, mapSpan, reduceCtorEq, assign.injEq] at h
  exact ⟨_, _, by rw [h.1], h.2.1⟩

theorem Expr.Canonical.check_assigned {e : Expr} (h : e.Canonical .whole) {source : String}
    (hreach : Token.InReach source ("x = ".toList ++ e.text)) :
    ∃ value span, check source ("x = ".toList ++ e.text) = .ok ⟨[.assign "x" value span]⟩ ∧
      value.bare = e.bare := by
  have hx : (Lexeme.identifier "x").WellFormed := ⟨by decide, by decide⟩
  have hline : Stmt.lines 0 (.assign "x" e .origin) = ["x = ".toList ++ e.text] := by
    rw [Stmt.lines]
    rfl
  obtain ⟨s, hcheck, hsame⟩ := (Stmt.Canonical.assign hx h).check_line hline hreach
  obtain ⟨value, span, rfl, hvalue⟩ := Stmt.eq_assign_of_bare hsame
  exact ⟨value, span, hcheck, hvalue⟩

theorem toList_emit_deepRead (n : Nat) (s : Span) :
    ((Expr.instanceVarAccess "a" (List.replicate (n + 1) "p") s).emit (.alone [])).toList =
      "this".toList ++ Expr.propertiesText ("a" :: List.replicate (n + 1) "p") := by
  rw [Expr.emit, Scope.instanceVar_alone, Expr.propertiesText, List.flatMap_cons,
    ← Expr.propertiesText, ← Expr.toList_intercalate_dot (by simp)]
  simp

theorem lexes_assignsDeepRead (source : String) (n : Nat) :
    ∃ ts, Token.Lexes source 1 1 Loose
      ("x = this".toList ++ Expr.propertiesText ("a" :: List.replicate n "p")) ts ∧
      ts.length = 2 * n + 5 := by
  have hthis : Token.Lexes source 1 5 Tight (Lexeme.identifier "this").text.toList _ :=
    .token rfl ⟨by decide, by decide⟩ fun _ hrest => Tight.stopsAt hrest (by simp)
  obtain ⟨us, hread, hlength⟩ := hthis.properties
    (List.forall_mem_cons.2 ⟨(by decide : isWord "a" = true), Expr.forall_replicate_isWord n⟩)
  have hvalue : Token.Lexes source 1 3 Loose _ _ :=
    .after (l := .punct .equal) rfl trivial (hread.mono fun _ => Loose.tight)
  have hlex : Token.Lexes source 1 1 Loose _ _ :=
    .after (l := .identifier "x") rfl ⟨by decide, by decide⟩ hvalue
  refine ⟨_, hlex, ?_⟩
  simp only [List.length_append, List.length_cons, List.length_nil, hlength, List.length_replicate]
  omega

/-- Outside components, the script of an expression of a text is read again as the value of an
assignment if its tokens are in reach, and the value is the expression on its receiver. Only the
spans differ. -/
theorem check_emit {source : String} {code : List Char} {p : Program}
    (h : check source code = .ok p) {e : Expr} (he : e ∈ p.expressions)
    (hplain : ∀ a ∈ e.parts, a.isVerbatim = true)
    (declared : List String) (source' : String)
    (hreach : Token.InReach source' ("x = ".toList ++ (e.emit (.alone declared)).toList)) :
    ∃ value span, check source' ("x = ".toList ++ (e.emit (.alone declared)).toList) =
      .ok ⟨[.assign "x" value span]⟩ ∧ value.bare = e.onReceiver.bare := by
  have hwritten : e.Written := check_written h e he
  rw [hwritten.toList_emit hplain declared] at hreach ⊢
  exact hwritten.onReceiver.check_assigned hreach

theorem check_emit_mixedProgram : ∃ p e, check "m" mixedProgram = .ok p ∧ e ∈ p.expressions ∧
    e.emit (.alone ["dx", "dy"]) = "this.x + (dx - -1) * dy" ∧
    ∃ value span, check "n" "x = this.x + (dx - -1) * dy".toList =
      .ok ⟨[.assign "x" value span]⟩ ∧ value.bare = e.onReceiver.bare := by
  let scope := Scope.alone ["dx", "dy"]
  obtain ⟨p, hp, hany⟩ : ∃ p, check "m" mixedProgram = .ok p ∧
      (p.expressions.any fun e => e.emit scope == "this.x + (dx - -1) * dy" &&
        e.parts.all Expr.isVerbatim) = true :=
    exists_check_ok (by decide +kernel)
  obtain ⟨e, he, htest⟩ := List.any_eq_true.1 hany
  rw [Bool.and_eq_true, beq_iff_eq, List.all_eq_true] at htest
  have hreach : Token.InReach "n" ("x = ".toList ++ (e.emit scope).toList) := by
    rw [htest.1]
    exact Token.inReach_of_length (by decide)
  obtain ⟨value, span, hvalue, hsame⟩ := check_emit hp he htest.2 ["dx", "dy"] "n" hreach
  rw [htest.1] at hvalue
  exact ⟨p, e, hp, he, htest.1, value, span, hvalue, hsame⟩

/-- A read from the receiver has two more tokens than a read from the instance variable, and an
assignment one more than a printed value. -/
theorem read_of_receiver_rejected : ∃ p, ∃ e ∈ p.expressions,
    check "m" (printsDeepRead (UInt32.size / 2 - 2)) = .ok p ∧
    (∀ a ∈ e.parts, a.isVerbatim = true) ∧
    ∀ q, check "m" ("x = ".toList ++ (e.emit (.alone [])).toList) ≠ .ok q := by
  obtain ⟨n, hn, hsize⟩ : ∃ n, UInt32.size / 2 - 2 = n + 1 ∧ 2 * (n + 1) + 4 = UInt32.size :=
    ⟨UInt32.size / 2 - 3, rfl, rfl⟩
  rw [hn]
  obtain ⟨s, s', hcheck⟩ := check_printsDeepRead "m" (Nat.le_of_eq hsize)
  refine ⟨_, _, List.mem_append_left _ List.mem_cons_self, hcheck, ?_, fun q hq => ?_⟩
  · simp [Expr.parts, Expr.inside, Expr.isVerbatim]
  · obtain ⟨ts, hlex, hlength⟩ := lexes_assignsDeepRead "m" (n + 1)
    rw [toList_emit_deepRead] at hq
    have hreach := hlex.inReach_iff.1 (inReach_of_check hq)
    omega

end LayoutScript
