import LayoutScript.Compile
import LayoutScript.Proofs.Progress
import LayoutScript.Proofs.StatementReading

/-! Runs over tapes. While every position is a word, that is for at most `UInt32.size` tokens, a run
over the tape is the run over the list of its tokens: it finds the same and stops at the same token.
Of more tokens none after the last position is ever seen, so a program is read from at most
`UInt32.size` of them. -/
namespace LayoutScript

namespace Tape

def cursor (t : Tape) : Cursor :=
  ⟨t.view.prev, t.view.cur, t.tokens.toList.drop (t.pos.toNat + 1)⟩

def start (t : Token) (ts : List Token) : Tape := ⟨(t :: ts).toArray, 0, by simp⟩

@[simp] theorem cursor_start (t : Token) (ts : List Token) : (start t ts).cursor = ⟨t, t, ts⟩ := rfl

@[simp] theorem length_ahead_cursor (t : Tape) :
    t.cursor.ahead.length = t.tokens.size - (t.pos.toNat + 1) := by
  rw [cursor, List.length_drop, Array.length_toList]

theorem tokens_cursor (t : Tape) : t.cursor.tokens = t.tokens.toList.drop t.pos.toNat := by
  rw [Cursor.tokens, List.drop_eq_getElem_cons (by simpa using t.inside)]
  simp [cursor, view]

/-- The tokens from the position on, as far as there are words for their positions. -/
def reach (t : Tape) : List Token := (t.tokens.toList.take (t.last.toNat + 1)).drop t.pos.toNat

@[simp] theorem length_reach (t : Tape) : t.reach.length = t.last.toNat + 1 - t.pos.toNat := by
  have hlast := t.toNat_last_lt
  rw [reach, List.length_drop, List.length_take, Array.length_toList, Nat.min_eq_left (by omega)]

theorem cur_of_reach {t : Tape} {u : Token} {us : List Token} (h : t.reach = u :: us) :
    t.view.cur = u := by
  have hinside := t.inside
  have hpos : t.pos.toNat < t.last.toNat + 1 := by
    have hlength := t.length_reach
    rw [h, List.length_cons] at hlength
    omega
  have hhead := congrArg List.head? h
  rw [reach, List.head?_drop, List.getElem?_take_of_lt hpos] at hhead
  simpa [view, hinside] using hhead

theorem reach_advance {t : Tape} {u v : Token} {us : List Token} (h : t.reach = u :: v :: us) :
    t.advance.reach = v :: us := by
  have hpos : t.pos.toNat < t.last.toNat := by
    have hlength := t.length_reach
    rw [h, List.length_cons, List.length_cons] at hlength
    omega
  have hnext : (t.pos + 1).toNat = t.pos.toNat + 1 := by
    rw [UInt32.toNat_add, UInt32.toNat_one, Nat.mod_eq_of_lt]
    exact Nat.lt_of_le_of_lt hpos t.last.toNat_lt
  have hmin : min (t.pos + 1) t.last = t.pos + 1 :=
    if_pos (UInt32.le_iff_toNat_le.2 (hnext ▸ hpos))
  calc t.advance.reach =
    (t.tokens.toList.take (t.last.toNat + 1)).drop (min (t.pos + 1) t.last).toNat :=
        rfl
    _ = t.reach.drop 1 := by rw [hmin, hnext, reach, List.drop_drop, Nat.add_comm]
    _ = v :: us := by rw [h]; rfl

theorem eq_of_pos_eq {t t' : Tape} (htokens : t.tokens = t'.tokens) (hpos : t.pos = t'.pos) :
    t = t' := by
  obtain ⟨tokens, pos, inside⟩ := t
  obtain ⟨tokens', pos', inside'⟩ := t'
  obtain rfl : tokens = tokens' := htokens
  obtain rfl : pos = pos' := hpos
  rfl

/-- The first position is the last one that a word can tell from it. -/
theorem advance_start (t : Token) {ts : List Token} (h : ts.length = UInt32.size) :
    (start t ts).advance = start t ts := by
  have hlast : (start t ts).last = 0 := by
    rw [last, start, List.size_toArray, List.length_cons, h]
    rfl
  have hpos : (start t ts).advance.pos = 0 := by
    show min ((start t ts).pos + 1) (start t ts).last = 0
    rw [hlast]
    rfl
  exact eq_of_pos_eq rfl hpos

section Words

variable {t : Tape} (hsize : t.tokens.size ≤ UInt32.size)

include hsize

theorem toNat_last : t.last.toNat = t.tokens.size - 1 := by
  rw [last, UInt32.toNat_ofNat', Nat.mod_eq_of_lt]
  exact Nat.lt_of_lt_of_le (Nat.sub_one_lt_of_lt t.inside) hsize

theorem reach_eq_drop : t.reach = t.tokens.toList.drop t.pos.toNat := by
  have hinside := t.inside
  rw [reach, toNat_last hsize, List.take_of_length_le (by rw [Array.length_toList]; omega)]

theorem view_cursor : t.cursor.view = t.view := by
  have hinside := t.inside
  have hleft : t.cursor.ahead.length = t.view.left := by
    show _ = t.last.toNat - t.pos.toNat
    rw [length_ahead_cursor, toNat_last hsize]
    omega
  have hpeek : t.cursor.peek = t.view.next := by
    rw [Cursor.peek, cursor, view, List.head?_drop]
    rcases Nat.lt_or_ge (t.pos.toNat + 1) t.tokens.size with h | h
    · simp [h, Nat.min_eq_left (Nat.le_sub_one_of_lt h)]
    · have hlast : min (t.pos.toNat + 1) (t.tokens.size - 1) = t.pos.toNat := by omega
      simp [Nat.not_lt.2 h, hlast]
  rw [Cursor.view, hleft, hpeek]
  rfl

theorem cursor_advance (h : t.cursor.ahead ≠ []) : t.advance.cursor = t.cursor.advance := by
  have hahead : t.pos.toNat + 1 < t.tokens.size := by
    have := List.length_pos_iff.2 h
    rw [length_ahead_cursor] at this
    omega
  have hpos : (min (t.pos + 1) t.last).toNat = t.pos.toNat + 1 := by
    have hnext : (t.pos + 1).toNat = t.pos.toNat + 1 := by
      rw [UInt32.toNat_add, UInt32.toNat_one, Nat.mod_eq_of_lt]
      exact Nat.lt_of_lt_of_le hahead hsize
    have hle : t.pos + 1 ≤ t.last := by
      rw [UInt32.le_iff_toNat_le, hnext, toNat_last hsize]
      omega
    rw [show min (t.pos + 1) t.last = t.pos + 1 from if_pos hle, hnext]
  have hdrop : t.cursor.ahead = t.tokens[t.pos.toNat + 1] ::
      t.tokens.toList.drop (t.pos.toNat + 2) := by
    rw [cursor, List.drop_eq_getElem_cons (by simpa using hahead)]
    simp
  rw [Cursor.advance, hdrop]
  simp [cursor, view, advance, hpos]

end Words

end Tape

namespace Parser

def Follows (tokens : Array Token) (r : Except SyntaxError (α × Tape)) :
    Except SyntaxError (α × Cursor) → Prop
  | .ok (a, c) => ∃ t : Tape, t.tokens = tokens ∧ t.cursor = c ∧ r = .ok (a, t)
  | .error e => e.cause.isReported = true → r = .error e

theorem exec_follows (p : Parser α) {t : Tape} (hsize : t.tokens.size ≤ UInt32.size) :
    Follows t.tokens (p.exec t) (p.run t.cursor) := by
  induction p generalizing t with
  | give a => exact ⟨t, rfl, rfl, rfl⟩
  | andThen p f ihp ihf =>
    have hp := ihp hsize
    rw [run, exec]
    cases hrun : p.run t.cursor with
    | error e =>
      rw [hrun] at hp
      intro he
      rw [hp he]
    | ok r =>
      obtain ⟨a, c⟩ := r
      rw [hrun] at hp
      obtain ⟨t', htokens, rfl, hexec⟩ := hp
      rw [hexec, ← htokens]
      exact ihf a (htokens ▸ hsize)
  | look => exact ⟨t, rfl, rfl, by rw [exec, Tape.view_cursor hsize]⟩
  | advance =>
    by_cases h : t.cursor.ahead = []
    · rw [run, h]
      intro he
      cases he
    · rw [run_advance h]
      exact ⟨t.advance, rfl, Tape.cursor_advance hsize h, rfl⟩
  | fail cause => exact fun _ => rfl

/-- Whatever their number, the tokens stay, and a run that fails does so at one of them. -/
theorem exec_keeps (p : Parser α) (t : Tape) :
    match p.exec t with
    | .ok (_, t') => t'.tokens = t.tokens
    | .error e => e.actual ∈ t.tokens.toList := by
  induction p generalizing t with
  | give a => rfl
  | andThen p f ihp ihf =>
    have hp := ihp t
    rw [exec]
    cases hexec : p.exec t with
    | error e => rwa [hexec] at hp
    | ok r =>
      rw [hexec] at hp
      rw [← show r.2.tokens = t.tokens from hp]
      exact ihf r.1 r.2
  | look => rfl
  | advance => rfl
  | fail cause => exact Array.getElem_mem_toList t.inside

theorem exec_bind_eq_ok {p : Parser α} {f : α → Parser β} {t t'' : Tape} {b : β} :
    (p >>= f).exec t = .ok (b, t'') ↔
      ∃ a t', p.exec t = .ok (a, t') ∧ (f a).exec t' = .ok (b, t'') := by
  show (andThen p f).exec t = _ ↔ _
  rw [exec]
  cases p.exec t with
  | error e => simp
  | ok r =>
    constructor
    · intro h
      exact ⟨r.1, r.2, rfl, h⟩
    · rintro ⟨a, t', ⟨⟩, h⟩
      exact h

theorem tokens_exec {p : Parser α} {t t' : Tape} {a : α} (h : p.exec t = .ok (a, t')) :
    t'.tokens = t.tokens := by
  have hkeeps := p.exec_keeps t
  rwa [h] at hkeeps

theorem exists_last_pass {step : σ → Parser (σ × Bool)} {n : Nat} {s s' : σ} {t t' : Tape}
    (h : (loopWithin step n s).exec t = .ok (s', t')) :
    ∃ s₁ t₁, (step s₁).exec t₁ = .ok ((s', false), t') := by
  induction n generalizing s t with
  | zero => cases h
  | succ n ih =>
    rw [loopWithin, exec_bind_eq_ok] at h
    obtain ⟨⟨s₁, more⟩, t₁, hstep, hrest⟩ := h
    cases more with
    | true => exact ih hrest
    | false =>
      cases hrest
      exact ⟨s, t, hstep⟩

/-- A loop whose steps go nowhere and ask for more needs more passes than there are. -/
theorem exec_loopWithin_of_stays {step : σ → Parser (σ × Bool)} {t : Tape}
    (h : ∀ s, ∃ s', (step s).exec t = .ok ((s', true), t)) (n : Nat) (s : σ) :
    (loopWithin step n s).exec t = .error ⟨.exhausted, t.view.cur⟩ := by
  induction n generalizing s with
  | zero => rfl
  | succ n ih =>
    obtain ⟨s', hstep⟩ := h s
    show (andThen (step s) _).exec t = _
    rw [exec, hstep]
    exact ih s'

end Parser

open LayoutScript.Parser

namespace Program

theorem eof_of_exec_parse {t t' : Tape} {p : Program} (h : parse.exec t = .ok (p, t')) :
    t'.view.cur.lexeme = .eof := by
  rw [parse, exec_bind_eq_ok] at h
  obtain ⟨_, t₁, -, h⟩ := h
  rw [exec_bind_eq_ok] at h
  obtain ⟨body, t₂, hloop, h⟩ := h
  cases h
  obtain ⟨body₁, t₃, hpass⟩ :=
    exists_last_pass (show (loopWithin parseNext _ []).exec t₁ = _ from hloop)
  rw [parseNext, exec_bind_eq_ok] at hpass
  obtain ⟨b, t₄, hsees, hpass⟩ := hpass
  obtain ⟨rfl, rfl⟩ := Prod.mk.inj (Except.ok.inj hsees)
  cases hb : t₃.view.cur.lexeme == .eof with
  | true =>
    rw [hb] at hpass
    cases hpass
    exact beq_iff_eq.1 hb
  | false =>
    rw [hb, if_neg Bool.false_ne_true] at hpass
    simp only [exec_bind_eq_ok] at hpass
    obtain ⟨_, _, -, _, _, -, hpass⟩ := hpass
    cases hpass

theorem ofTokens_cons (t : Token) (ts : List Token) :
    ofTokens (t :: ts) = (parse.exec (Tape.start t ts)).map Prod.fst := by
  have hstart : Tape.start? (t :: ts) = some (Tape.start t ts) := rfl
  cases hexec : parse.exec (Tape.start t ts) <;>
    simp only [ofTokens, hstart, hexec, Except.map]

theorem actual_mem {ts : List Token} {e : SyntaxError} (h : ofTokens ts = .error e) :
    e.actual ∈ ts := by
  cases ts with
  | nil => cases h
  | cons t ts =>
    have hkeeps := parse.exec_keeps (Tape.start t ts)
    rw [ofTokens_cons] at h
    cases hexec : parse.exec (Tape.start t ts) with
    | error e' =>
      rw [hexec] at h hkeeps
      cases h
      exact hkeeps
    | ok r =>
      rw [hexec] at h
      cases h

theorem closed_start {t : Token} {ts us : List Token} {last : Token} (h : t :: ts = us ++ [last])
    (hlast : last.lexeme = .eof) : Cursor.Closed ⟨t, t, ts⟩ :=
  ⟨us, last, h, hlast⟩

/-- Up to `UInt32.size` tokens, it makes no difference that positions are words. -/
theorem ofTokens_eq_read {tokens : List Token}
    (hclosed : ∃ ts last, tokens = ts ++ [last] ∧ last.lexeme = .eof)
    (hsize : tokens.length ≤ UInt32.size) : ofTokens tokens = read tokens := by
  obtain ⟨ts, last, rfl, hlast⟩ := hclosed
  obtain ⟨t, us, hts⟩ := List.exists_cons_of_ne_nil (List.concat_ne_nil last ts)
  have hfollows := parse.exec_follows (t := Tape.start t us)
    (by rw [Tape.start, List.size_toArray, ← hts]; exact hsize)
  have hlead : Cursor.Leads ⟨t, t, us⟩ (fun _ => 0) (parse.run ⟨t, t, us⟩) :=
    leads_of_pairs (closed_start hts.symm hlast) parse_pairs
  rw [Tape.cursor_start] at hfollows
  rw [hts, ofTokens_cons, read, Cursor.ofTokens?]
  cases hrun : parse.run ⟨t, t, us⟩ with
  | error e =>
    rw [hrun] at hfollows hlead
    simp only [hfollows hlead.2, hrun]
    rfl
  | ok r =>
    rw [hrun] at hfollows
    obtain ⟨t', -, -, hexec⟩ := hfollows
    simp only [hexec, hrun]
    rfl

/-- More tokens than that make no program: eof stays out of reach. -/
theorem length_le_of_ofTokens {ts : List Token} {last : Token} {p : Program}
    (heof : ∀ t ∈ ts, t.lexeme ≠ .eof) (h : ofTokens (ts ++ [last]) = .ok p) :
    (ts ++ [last]).length ≤ UInt32.size := by
  obtain ⟨t, us, hts⟩ := List.exists_cons_of_ne_nil (List.concat_ne_nil last ts)
  rw [hts, ofTokens_cons] at h
  cases hexec : parse.exec (Tape.start t us) with
  | error e =>
    rw [hexec] at h
    cases h
  | ok r =>
    obtain ⟨p', t'⟩ := r
    have htokens : t'.tokens.toList = ts ++ [last] := by
      rw [tokens_exec hexec, hts]
      rfl
    have hcur := eof_of_exec_parse hexec
    have hpos : ¬t'.pos.toNat < ts.length := by
      intro hlt
      refine heof ts[t'.pos.toNat] (List.getElem_mem hlt) ?_
      rw [← hcur, Tape.view]
      simp [← Array.getElem_toList, htokens, hlt]
    have hword := t'.pos.toNat_lt
    rw [List.length_append, List.length_singleton]
    exact Nat.lt_of_le_of_lt (Nat.not_lt.1 hpos) hword

theorem ofTokens_eq_ok_iff {ts : List Token} {last : Token} {p : Program}
    (hlast : last.lexeme = .eof) (heof : ∀ t ∈ ts, t.lexeme ≠ .eof) :
    ofTokens (ts ++ [last]) = .ok p ↔
      (ts ++ [last]).length ≤ UInt32.size ∧ read (ts ++ [last]) = .ok p := by
  constructor
  · intro h
    have hsize := length_le_of_ofTokens heof h
    exact ⟨hsize, by rwa [ofTokens_eq_read ⟨ts, last, rfl, hlast⟩ hsize] at h⟩
  · rintro ⟨hsize, h⟩
    rwa [ofTokens_eq_read ⟨ts, last, rfl, hlast⟩ hsize]

end Program

theorem eq_of_append_eof {ts us rest : List Token} {last next : Token}
    (hts : ∀ t ∈ ts, t.lexeme ≠ .eof) (hnext : next.lexeme = .eof)
    (h : ts ++ [last] = us ++ next :: rest) : us = ts ∧ next = last := by
  rcases List.append_eq_append_iff.1 h with ⟨vs, rfl, hv⟩ | ⟨vs, rfl, hv⟩
  · cases vs with
    | nil => exact ⟨List.append_nil _, (List.cons.inj hv).1.symm⟩
    | cons v vs => simp at hv
  · cases vs with
    | nil => exact ⟨(List.append_nil _).symm, (List.cons.inj hv).1⟩
    | cons v vs =>
      obtain ⟨rfl, _⟩ := List.cons.inj hv
      exact absurd hnext (hts _ (by simp))

/-- A text is accepted if its tokens have positions and follow the grammar. -/
theorem check_eq_ok_iff {source : String} {code : List Char} {p : Program} :
    check source code = .ok p ↔
      ∃ ts last, Token.ofText source code = .ok (ts ++ [last]) ∧
        (ts ++ [last]).length ≤ UInt32.size ∧ ProgramRule ts last p := by
  rw [check]
  cases htokens : Token.ofText source code with
  | error e => simp
  | ok tokens =>
    obtain ⟨ts, last, rfl, hlast, heof⟩ := Token.ofLines_ended htokens
    constructor
    · intro h
      have hp : Program.ofTokens (ts ++ [last]) = .ok p := by
        cases hp : Program.ofTokens (ts ++ [last]) with
        | error e =>
          simp only [hp] at h
          cases h
        | ok q =>
          simp only [hp] at h
          cases h
          rfl
      obtain ⟨hsize, hread⟩ := (Program.ofTokens_eq_ok_iff hlast heof).1 hp
      obtain ⟨us, next, rest, hus, hr⟩ := Program.read_sound hlast hread
      obtain ⟨rfl, rfl⟩ := eq_of_append_eof heof hr.next_eof hus
      exact ⟨us, next, rfl, hsize, hr⟩
    · rintro ⟨us, next, heq, hsize, hr⟩
      rw [Except.ok.inj heq]
      simp only [Program.ofTokens_eq_read ⟨us, next, rfl, hr.next_eof⟩ hsize,
        Program.read_complete hr.next_eof hr]

end LayoutScript
