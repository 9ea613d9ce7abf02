import LayoutScript.Editor.Session
import LayoutScript.Proofs.Concatenation
import Mathlib.Data.List.Induction

/-! The texts of documents over whole runs. A run is any sequence of notices with questions in
between. What is shown for a document comes from the last text that the notices before it brought,
what is published comes from the notice alone, and neither depends on other documents. -/
namespace LayoutScript

namespace Notice

/-- An opening, a change with at least one text, of which the last one counts, and a save with its
text. -/
inductive Brings : Notice → String → Prop
  | opened {uri text} : Brings (.opened uri text) text
  | changed {uri texts text} : Brings (.changed uri (texts ++ [text])) text
  | saved {uri text} : Brings (.saved uri (some text)) text

theorem brings_iff {n : Notice} {text : String} : n.Brings text ↔ n.text? = some text := by
  constructor
  · intro h
    cases h with
    | opened | saved => rfl
    | changed => exact List.getLast?_concat
  · intro h
    cases n with
    | opened uri t =>
      cases h
      exact .opened
    | changed uri texts =>
      obtain ⟨before, rfl⟩ := List.getLast?_eq_some_iff.1 h
      exact .changed
    | saved uri t =>
      obtain rfl : t = some text := h
      exact .saved
    | closed uri => cases h

/-- A notice that neither brings a text for the document nor closes it. -/
def Spares (n : Notice) (uri : String) : Prop :=
  n.uri = uri → n ≠ .closed uri ∧ ∀ text, ¬n.Brings text

theorem spares_iff {n : Notice} {uri : String} :
    n.Spares uri ↔ n.uri = uri → n ≠ .closed uri ∧ n.text? = none := by
  refine imp_congr_right fun _ => and_congr_right fun _ => ?_
  simp only [brings_iff, Option.eq_none_iff_forall_ne_some, ne_eq]

instance (n : Notice) (uri : String) : Decidable (n.Spares uri) :=
  decidable_of_iff _ spares_iff.symm

/-- The last text that was brought for a document, which has not been closed since. -/
def LastText (uri : String) (ns : List Notice) (text : String) : Prop :=
  ∃ before n later, ns = before ++ n :: later ∧ n.uri = uri ∧ n.Brings text ∧
    ∀ m ∈ later, m.Spares uri

@[simp] theorem not_lastText_nil {uri text : String} : ¬LastText uri [] text := by
  rintro ⟨before, n, later, h, _⟩
  cases before <;> cases h

theorem lastText_concat_iff {uri text : String} {ns : List Notice} {n : Notice} :
    LastText uri (ns ++ [n]) text ↔
      (n.uri = uri ∧ n.Brings text) ∨ (n.Spares uri ∧ LastText uri ns text) := by
  constructor
  · rintro ⟨before, m, later, h, hm, hb, hlater⟩
    rcases List.eq_nil_or_concat later with rfl | ⟨later, k, rfl⟩
    · obtain ⟨rfl, hn⟩ := List.append_inj' h rfl
      obtain rfl := List.singleton_inj.1 hn
      exact .inl ⟨hm, hb⟩
    · rw [List.concat_eq_append] at h hlater
      rw [← List.cons_append, ← List.append_assoc] at h
      obtain ⟨rfl, hk⟩ := List.append_inj' h rfl
      obtain rfl := List.singleton_inj.1 hk
      refine .inr ⟨hlater n (by simp), before, m, later, rfl, hm, hb, fun k hk => ?_⟩
      exact hlater k (List.mem_append_left _ hk)
  · rintro (⟨hn, hb⟩ | ⟨hspares, before, m, later, rfl, hm, hb, hlater⟩)
    · exact ⟨ns, n, [], rfl, hn, hb, fun m hmem => absurd hmem List.not_mem_nil⟩
    · refine ⟨before, m, later ++ [n], by simp, hm, hb, fun k hk => ?_⟩
      rcases List.mem_append.1 hk with hk | hk
      · exact hlater k hk
      · rw [List.mem_singleton.1 hk]
        exact hspares

end Notice

namespace Session

section Notify

variable {uri text : String} {n : Notice}

theorem lookup_forget (s : Session) (uri uri' : String) :
    (s.forget uri).texts.lookup uri' = if uri' = uri then none else s.texts.lookup uri' := by
  simp only [forget]
  induction s.texts with
  | nil => simp
  | cons entry rest ih =>
    obtain ⟨key, value⟩ := entry
    by_cases hkey : key = uri
    · rw [List.filter_cons_of_neg (by simp [hkey]), ih]
      split
      · rfl
      · next hne => rw [List.lookup_cons, beq_false_of_ne (hkey ▸ hne)]
    · rw [List.filter_cons_of_pos (by simpa using hkey), List.lookup_cons, List.lookup_cons, ih]
      by_cases heq : uri' = key
      · subst heq
        simp [hkey]
      · simp [beq_false_of_ne heq]

theorem lookup_remember (s : Session) (uri text uri' : String) :
    (s.remember uri text).texts.lookup uri' =
      if uri' = uri then some text else s.texts.lookup uri' := by
  simp only [remember, List.lookup_cons]
  by_cases h : uri' = uri
  · simp [h]
  · rw [beq_false_of_ne h, lookup_forget, if_neg h, if_neg h]

theorem notify_of_brings (s : Session) (h : n.Brings text) :
    s.notify n = (s.remember n.uri text, react n.uri text) := by
  cases h with
  | opened | saved => rfl
  | changed => simp only [notify, Notice.text?, List.getLast?_concat]

theorem notify_of_spares (s : Session) (h : n.Spares n.uri) : s.notify n = (s, ⟨[], none⟩) := by
  obtain ⟨hn, hnone⟩ := Notice.spares_iff.1 h rfl
  cases n with
  | closed uri => exact absurd rfl hn
  | opened | changed | saved => simp only [notify, hnone]

theorem notify_cases (s : Session) (n : Notice) :
    (∃ text, n.Brings text ∧ s.notify n = (s.remember n.uri text, react n.uri text)) ∨
      (n = .closed n.uri ∧ s.notify n = (s.forget n.uri, ⟨[], none⟩)) ∨
      (n.Spares n.uri ∧ s.notify n = (s, ⟨[], none⟩)) := by
  by_cases hb : ∃ text, n.Brings text
  · obtain ⟨text, hb⟩ := hb
    exact .inl ⟨text, hb, notify_of_brings s hb⟩
  · by_cases hn : n = .closed n.uri
    · rw [hn]
      exact .inr (.inl ⟨rfl, rfl⟩)
    · have hspares : n.Spares n.uri := fun _ => ⟨hn, not_exists.1 hb⟩
      exact .inr (.inr ⟨hspares, notify_of_spares s hspares⟩)

theorem lookup_notify_iff (s : Session) (n : Notice) :
    (s.notify n).1.texts.lookup uri = some text ↔
      (n.uri = uri ∧ n.Brings text) ∨ (n.Spares uri ∧ s.texts.lookup uri = some text) := by
  by_cases hn : n.uri = uri
  · subst hn
    rcases notify_cases s n with ⟨text', hb, h⟩ | ⟨hclosed, h⟩ | ⟨hspares, h⟩
    · have hspares : ¬n.Spares n.uri := fun hs => (hs rfl).2 text' hb
      have hiff : n.Brings text ↔ text' = text := by
        rw [Notice.brings_iff, Notice.brings_iff.1 hb, Option.some.injEq]
      rw [h, lookup_remember, if_pos rfl]
      simp [hspares, hiff]
    · have hb : ¬n.Brings text := by
        rw [hclosed]
        nofun
      have hspares : ¬n.Spares n.uri := fun hs => (hs rfl).1 hclosed
      rw [h, lookup_forget, if_pos rfl]
      simp [hspares, hb]
    · rw [h]
      simp [hspares, (hspares rfl).2 text]
  · have hspares : n.Spares uri := fun h => absurd h hn
    have hlookup : (s.notify n).1.texts.lookup uri = s.texts.lookup uri := by
      rcases notify_cases s n with ⟨text', _, h⟩ | ⟨_, h⟩ | ⟨_, h⟩
      · rw [h, lookup_remember, if_neg (Ne.symm hn)]
      · rw [h, lookup_forget, if_neg (Ne.symm hn)]
      · rw [h]
    rw [hlookup]
    simp [hn, hspares]

theorem lookup_notify_of_ne (s : Session) (h : n.uri ≠ uri) :
    (s.notify n).1.texts.lookup uri = s.texts.lookup uri := by
  refine Option.ext fun text => ?_
  have hspares : n.Spares uri := fun hn => absurd hn h
  rw [lookup_notify_iff]
  simp [h, hspares]

/-- A notice is published for exactly if it brings a text for a document that is a file. -/
theorem published_notify_iff (s : Session) (n : Notice) (publication : Publication) :
    (s.notify n).2.published = some publication ↔
      ∃ text path, n.Brings text ∧ Uri.toPath n.uri = .ok path ∧
        publication = ⟨n.uri, diagnostics path.text text.toList⟩ := by
  by_cases hb : ∃ text, n.Brings text
  · obtain ⟨text, hb⟩ := hb
    have hiff (text' : String) : n.Brings text' ↔ text = text' := by
      rw [Notice.brings_iff, Notice.brings_iff.1 hb, Option.some.injEq]
    rw [notify_of_brings s hb]
    simp only [hiff, exists_and_left, exists_eq_left', react]
    cases Uri.toPath n.uri with
    | error e => simp
    | ok path => simp [eq_comm]
  · rcases notify_cases s n with ⟨text, hb', _⟩ | ⟨_, h⟩ | ⟨_, h⟩
    · exact absurd ⟨text, hb'⟩ hb
    · rw [h]
      exact ⟨nofun, fun ⟨text, _, hb', _⟩ => absurd ⟨text, hb'⟩ hb⟩
    · rw [h]
      exact ⟨nofun, fun ⟨text, _, hb', _⟩ => absurd ⟨text, hb'⟩ hb⟩

end Notify

inductive Request where
  | notice (n : Notice)
  | hover (uri : String) (pos : Position)
  deriving DecidableEq, Repr

inductive Reply where
  | published (publication : Option Publication)
  | shown (text : Option String)
  deriving DecidableEq, Repr

namespace Request

def uri : Request → String
  | .notice n => n.uri
  | .hover uri _ => uri

def notice? : Request → Option Notice
  | .notice n => some n
  | .hover _ _ => none

def staysFor (uri : String) : Request → Bool
  | .notice n => n.uri == uri
  | .hover _ _ => true

end Request

def serve (s : Session) : Request → Session × Reply
  | .notice n => ((s.notify n).1, .published (s.notify n).2.published)
  | .hover uri pos => (s, .shown (s.hover uri pos))

def replies (s : Session) : List Request → List (Request × Reply)
  | [] => []
  | r :: rs => (r, (s.serve r).2) :: replies (s.serve r).1 rs

def after (s : Session) (rs : List Request) : Session := rs.foldl (fun s r => (s.serve r).1) s

theorem after_concat (s : Session) (rs : List Request) (r : Request) :
    s.after (rs ++ [r]) = ((s.after rs).serve r).1 := by
  rw [after, List.foldl_append]
  rfl

@[simp] theorem replies_append (s : Session) (rs rs' : List Request) :
    s.replies (rs ++ rs') = s.replies rs ++ (s.after rs).replies rs' := by
  induction rs generalizing s with
  | nil => rfl
  | cons r rs ih =>
    rw [List.cons_append, replies, ih, replies]
    rfl

@[simp] theorem length_replies (s : Session) (rs : List Request) :
    (s.replies rs).length = rs.length := by
  induction rs generalizing s with
  | nil => rfl
  | cons r rs ih => rw [replies, List.length_cons, List.length_cons, ih]

theorem getElem?_replies (s : Session) (before later : List Request) (r : Request) :
    (s.replies (before ++ r :: later))[before.length]? =
      some (r, ((s.after before).serve r).2) := by
  rw [replies_append, List.getElem?_append_right (Nat.le_of_eq (length_replies s before)),
    length_replies, Nat.sub_self]
  rfl

section Runs

variable {s s' : Session} {uri text : String}

theorem lookup_after_iff (rs : List Request) :
    (empty.after rs).texts.lookup uri = some text ↔
      Notice.LastText uri (rs.filterMap Request.notice?) text := by
  induction rs using List.reverseRecOn with
  | nil => exact ⟨nofun, fun h => absurd h Notice.not_lastText_nil⟩
  | append_singleton rs r ih =>
    rw [after_concat, List.filterMap_append]
    cases r with
    | notice n =>
      refine (lookup_notify_iff _ n).trans ?_
      rw [ih]
      exact Notice.lastText_concat_iff.symm
    | hover uri' pos =>
      rw [show [Request.hover uri' pos].filterMap Request.notice? = [] from rfl, List.append_nil]
      exact ih

/-- The text that counts for a document: the last one, or the empty text if there is none. -/
def Holds (uri : String) (ns : List Notice) (text : String) : Prop :=
  Notice.LastText uri ns text ∨ (∀ other, ¬Notice.LastText uri ns other) ∧ text = ""

theorem text_after (rs : List Request) (h : Holds uri (rs.filterMap Request.notice?) text) :
    (empty.after rs).text uri = text := by
  rw [Session.text]
  rcases h with h | ⟨hnone, rfl⟩
  · rw [(lookup_after_iff rs).2 h]
    rfl
  · cases hlookup : (empty.after rs).texts.lookup uri with
    | none => rfl
    | some other => exact absurd ((lookup_after_iff rs).1 hlookup) (hnone other)

theorem text_after_notice (rs : List Request) {n : Notice} (h : n.Brings text) :
    (empty.after (rs ++ [.notice n])).text n.uri = text := by
  refine text_after _ (.inl ?_)
  rw [List.filterMap_append]
  exact Notice.lastText_concat_iff.2 (.inl ⟨rfl, h⟩)

theorem reply_of_lookup_eq {r : Request} (h : s.texts.lookup r.uri = s'.texts.lookup r.uri) :
    (s.serve r).2 = (s'.serve r).2 := by
  cases r with
  | notice n =>
    refine congrArg Reply.published (Option.ext fun publication => ?_)
    rw [published_notify_iff, published_notify_iff]
  | hover uri pos =>
    have htext : s.text uri = s'.text uri := congrArg (·.getD "") h
    simp only [serve, hover, htext]

theorem lookup_serve_congr (r : Request) (h : s.texts.lookup uri = s'.texts.lookup uri) :
    (s.serve r).1.texts.lookup uri = (s'.serve r).1.texts.lookup uri := by
  cases r with
  | notice n =>
    refine Option.ext fun text => ?_
    rw [show (s.serve (.notice n)).1 = (s.notify n).1 from rfl, show (s'.serve (.notice n)).1 =
      (s'.notify n).1 from rfl, lookup_notify_iff, lookup_notify_iff, h]
  | hover uri' pos => exact h

/-- Two runs from sessions that hold the same text for a document, one of them without the notices
about other documents. -/
theorem replies_filter (rs : List Request) (h : s.texts.lookup uri = s'.texts.lookup uri) :
    (s'.replies (rs.filter (Request.staysFor uri))).filter (·.1.uri == uri) =
      (s.replies rs).filter (·.1.uri == uri) := by
  induction rs generalizing s s' with
  | nil => rfl
  | cons r rs ih =>
    cases hstays : r.staysFor uri with
    | true =>
      have hrest := ih (lookup_serve_congr r h)
      rw [List.filter_cons_of_pos hstays, replies, replies]
      by_cases hr : r.uri = uri
      · rw [List.filter_cons_of_pos (by simpa using hr),
          List.filter_cons_of_pos (by simpa using hr), hrest, ← reply_of_lookup_eq (hr ▸ h)]
      · rw [List.filter_cons_of_neg (by simpa using hr),
          List.filter_cons_of_neg (by simpa using hr), hrest]
    | false =>
      cases r with
      | hover uri' pos => cases hstays
      | notice n =>
        have hne : n.uri ≠ uri := by simpa [Request.staysFor] using hstays
        rw [List.filter_cons_of_neg (by simp [hstays]), replies,
          List.filter_cons_of_neg (by simpa [Request.uri] using hne)]
        exact ih ((lookup_notify_of_ne s hne).trans h)

end Runs

/-- Two documents, of which the first is changed without a text and then closed. -/
def pairedRun : List Request :=
  [.notice (.opened "file:///a" "print 1"), .notice (.opened "file:///b" "x ="),
    .notice (.changed "file:///a" []), .hover "file:///a" ⟨0, 0⟩, .notice (.closed "file:///a"),
    .hover "file:///a" ⟨0, 0⟩]

end Session

end LayoutScript
