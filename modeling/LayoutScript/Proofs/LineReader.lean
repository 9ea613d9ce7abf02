import LayoutScript.Proofs.Utf8Reading

/-! What a reader of one line answers. Whatever was asked of it before, it has read some bytes of
the line and keeps the others, and the character that it looks ahead to is the first one of
these. -/
namespace LayoutScript.Text.Utf8

def WithoutReturn (line input : List UInt8) : Prop :=
  line = input ++ [0x0d] ∨ line = input ∧ ¬ [0x0d] <:+ line

namespace Reader

/-- What may be asked of a reader. -/
inductive Call where
  | next | peek | rest | pos
  deriving DecidableEq, Repr

inductive Reply where
  | next (c : Option Char)
  | peek (c : Option Char)
  | rest (bs : List UInt8)
  | pos (n : Nat)
  deriving DecidableEq, Repr

def Reply.next? : Reply → Option (Option Char)
  | .next c => some c
  | _ => none

/-- Only `next` moves the reader. -/
def reply (r : Reader) : Call → Reply × Reader
  | .next => (.next r.next.1, r.next.2)
  | .peek => (.peek r.peek, r)
  | .rest => (.rest r.rest, r)
  | .pos => (.pos r.pos, r)

def run (r : Reader) : List Call → List Reply × Reader
  | [] => ([], r)
  | call :: calls =>
    let (reply, r) := r.reply call
    let (replies, r) := r.run calls
    (reply :: replies, r)

theorem run_next_snd (r : Reader) (calls : List Call) :
    (r.run (.next :: calls)).2 = (r.next.2.run calls).2 := rfl

theorem filterMap_run_next (r : Reader) (calls : List Call) :
    (r.run (.next :: calls)).1.filterMap Reply.next? =
      r.next.1 :: (r.next.2.run calls).1.filterMap Reply.next? := rfl

/-- The reader has read `front`, and `left` is left; what it keeps ahead is the first character of
that. -/
structure At (r : Reader) (front left : List UInt8) : Prop where
  input : r.input = front ++ left
  offset : r.offset = front.length
  ahead : r.ahead = leading? left

theorem rest_eq {r : Reader} {front left : List UInt8} (hinput : r.input = front ++ left)
    (hoffset : r.offset = front.length) : r.rest = left := by
  rw [rest, hinput, hoffset, List.drop_left]

theorem look_at {r : Reader} {front left : List UInt8} (hinput : r.input = front ++ left)
    (hoffset : r.offset = front.length) : r.look.At front left where
  input := hinput
  offset := hoffset
  ahead := congrArg leading? (rest_eq hinput hoffset)

theorem exists_ofLine_at (line : List UInt8) :
    ∃ input, WithoutReturn line input ∧ (ofLine line).At [] input := by
  by_cases hlast : line.getLast? = some 0x0d
  · obtain ⟨input, rfl⟩ := List.getLast?_eq_some_iff.1 hlast
    refine ⟨input, .inl rfl, ?_⟩
    rw [ofLine, if_pos hlast, List.dropLast_concat]
    exact look_at rfl rfl
  · refine ⟨line, .inr ⟨rfl, ?_⟩, ?_⟩
    · rintro ⟨input, rfl⟩
      exact hlast List.getLast?_concat
    · rw [ofLine, if_neg hlast]
      exact look_at rfl rfl

namespace At

variable {r : Reader} {front left : List UInt8} {c : Char} {chars : List Char}

theorem rest (h : r.At front left) : r.rest = left := rest_eq h.input h.offset

theorem peek_eq_none_iff (h : r.At front left) : r.peek = none ↔ left = [] := by
  rw [Reader.peek, h.ahead]
  cases left <;> simp [leading?]

theorem pos (h : r.At front left) : r.pos = front.length := by
  rw [Reader.pos, h.ahead, h.input, h.offset]
  cases left with
  | nil => rw [List.append_nil, ite_self]
  | cons b bs => rfl

theorem next_nil (h : r.At front []) : r.next = (none, r) := by
  rw [Reader.next, h.ahead]
  rfl

theorem next_cons (h : r.At front left) (hreads : Reads left (c :: chars)) :
    ∃ piece more, left = piece ++ more ∧ r.next.1 = some c ∧ r.next.2.At (front ++ piece) more ∧
      Reads more chars ∧ ∀ {us ds}, us <+: more → Reads us ds → Reads (piece ++ us) (c :: ds) := by
  obtain ⟨piece, more, rfl, hlead, hmore, hextend⟩ := hreads.exists_leading?
  refine ⟨piece, more, rfl, ?_, ?_, hmore, hextend⟩
  · rw [Reader.next, h.ahead, hlead]
  · rw [Reader.next, h.ahead, hlead]
    refine look_at ?_ ?_
    · rw [h.input, List.append_assoc]
    · rw [h.offset, List.length_append]

theorem run (h : r.At front left) (hreads : Reads left chars) (calls : List Call) :
    ∃ piece more, left = piece ++ more ∧ (r.run calls).2.At (front ++ piece) more ∧
      Reads piece (chars.take (calls.count .next)) ∧ Reads more (chars.drop (calls.count .next)) ∧
      (r.run calls).1.filterMap Reply.next? = (chars.take (calls.count .next)).map some ++
        .replicate (calls.count .next - chars.length) none := by
  induction calls generalizing r front left chars with
  | nil =>
    refine ⟨[], left, rfl, ?_, .nil, hreads, ?_⟩
    · rwa [List.append_nil]
    · rw [List.count_nil, Nat.zero_sub]
      rfl
  | cons call calls ih =>
    cases call with
    | next =>
      rw [List.count_cons_self, run_next_snd, filterMap_run_next]
      cases chars with
      | nil =>
        cases hreads
        rw [h.next_nil]
        obtain ⟨piece, more, hleft, hat, hpiece, hmore, hgiven⟩ := ih h .nil
        refine ⟨piece, more, hleft, hat, ?_, ?_, ?_⟩
        · simpa using hpiece
        · simpa using hmore
        · simpa [List.replicate_succ] using hgiven
      | cons c chars =>
        obtain ⟨piece, rest, rfl, hgive, hrest, hchars, hextend⟩ := h.next_cons hreads
        obtain ⟨piece', more, rfl, hat, hpiece, hmore, hgiven⟩ := ih hrest hchars
        -- All that is read later was behind the first piece, so it does not change how that one is
        -- read.
        refine ⟨piece ++ piece', more, ?_, ?_, hextend (List.prefix_append _ _) hpiece, hmore, ?_⟩
        · rw [List.append_assoc]
        · rwa [← List.append_assoc]
        · rw [hgive, hgiven, List.length_cons, Nat.add_sub_add_right]
          rfl
    | peek => exact ih h hreads
    | rest => exact ih h hreads
    | pos => exact ih h hreads

end At

/-- Whatever is asked of a reader, with `next` among it some number of times: it gave that many of
the characters of its line, and nothing past the last one; it has read just their bytes; and `peek`
tells what `next` would give. -/
theorem run_faithful (line : List UInt8) (calls : List Call) :
    ∃ input chars consumed replies r, WithoutReturn line input ∧ Reads input chars ∧
      (ofLine line).run calls = (replies, r) ∧
      consumed ++ r.rest = input ∧ r.pos = consumed.length ∧ r.offset = consumed.length ∧
      Reads consumed (chars.take (calls.count .next)) ∧
      Reads r.rest (chars.drop (calls.count .next)) ∧
      replies.filterMap Reply.next? = (chars.take (calls.count .next)).map some ++
        .replicate (calls.count .next - chars.length) none ∧
      r.peek = r.next.1 ∧ (r.peek = none ↔ r.rest = []) ∧ (r.next.1 = none ↔ r.rest = []) := by
  obtain ⟨input, hinput, hstart⟩ := exists_ofLine_at line
  have hreads := reads_decode input
  obtain ⟨consumed, left, hsplit, hat, hconsumed, hleft, hgiven⟩ := hstart.run hreads calls
  refine ⟨input, decode input, consumed, _, _, hinput, hreads, rfl, ?_⟩
  rw [hat.rest, next_fst]
  exact ⟨hsplit.symm, hat.pos, hat.offset, hconsumed, hleft, hgiven, rfl, hat.peek_eq_none_iff,
    hat.peek_eq_none_iff⟩

-- Two bytes of a sequence of three, the last byte of which would be the return that is not read.
example : ((ofLine [0x61, 0xc3, 0xa9, 0xe2, 0x82, 0x0d]).run
    [.peek, .next, .next, .rest, .pos, .next, .next, .next, .pos]).1 =
    [.peek (some 'a'), .next (some 'a'), .next (some 'é'), .rest [0xe2, 0x82], .pos 3,
      .next (some replacement), .next (some replacement), .next none, .pos 5] := by decide

end Reader

end LayoutScript.Text.Utf8
