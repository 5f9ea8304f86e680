/-
# Over a live source the reader is a plain cursor

A plain cursor over a byte stream hands out the front of the stream:
`ReadByte` the next byte, `PeekByte` nothing, `ReadSlice` the line through
the delimiter when the delimiter is among the first `len(buf)` bytes and else
that many bytes with `ErrBufferFull`, `ReadBytes` the line, `ReadFull(n)` the
next `n` bytes; at the end of the stream each fails with the source's error,
and a failed cursor answers every call with nothing (`Cursor.answer`, a
function). `Read(p)` may hand out any non-empty front of at most `len(p)`
bytes, as `io.Reader` allows (`Cursor.Step`). The buffer's size shows only in
`ReadSlice`.

Over a live source whose error is not `bufio.ErrBufferFull`, the reader
`NewReaderSize` makes is such a cursor: every run of calls is a run of the
cursor, with the same bytes handed out (`refines_cursor`), from one lemma per
call on a live reader (`call_step`). The end of the stream needs lemmas of
its own (`fill_end`, `readSlice_noDelim`, `readBytesLoop_end`,
`readAtLeastLoop_end`). Since every call but `Read` is a function of the
stream, a run without `Read` hands out exactly what the cursor's function
does, whatever the buffer holds and however the source splits the stream
into reads (`output_eq_answers`).

A source whose last chunk comes with its error is not live: there `fill`
drops the chunk (`fill_error_drops`) and the reader is not a plain cursor.

Key definitions: `Cursor`, `Cursor.answer`, `Cursor.Step`, `Cursor.Run`,
`Reader.cursor`, `Reader.Tracks`.
Key theorems: `call_step`, `run_refines`, `refines_cursor`,
`output_eq_answers`.
-/
import Codis.Bufio2.Output

namespace Codis
namespace Bufio2

/-- Whether a call is a `Read`: the one call whose answer a plain cursor
leaves open. -/
def Reader.Call.isRead : Reader.Call → Bool
  | .read _ => true
  | _ => false

/-- A plain cursor: the bytes it has still to hand out, or the error that
ended it. -/
inductive Cursor
  | live (u : List UInt8)
  | failed (e : Err)
  deriving DecidableEq, Repr

namespace Cursor

open Reader (Call)

variable (size : Nat) (last : Err)

/-- A plain cursor's answer to a call other than `Read`, with a buffer of
`size` bytes over a stream that ends with the error `last`: the bytes it hands out and
the cursor after. -/
def answer : Cursor → Call → List UInt8 × Cursor
  | .failed e, _ => ([], .failed e)
  | .live u, .read _ => ([], .live u)
  | .live u, .readByte =>
    match u with
    | [] => ([], .failed last)
    | x :: r => ([x], .live r)
  | .live u, .peekByte => if u = [] then ([], .failed last) else ([], .live u)
  | .live u, .readSlice delim =>
    if delim ∈ u ∧ u.indexOf delim < size then
      (u.take (u.indexOf delim + 1), .live (u.drop (u.indexOf delim + 1)))
    else if size ≤ u.length then (u.take size, .live (u.drop size))
    else ([], .failed last)
  | .live u, .readBytes delim =>
    if delim ∈ u then (u.take (u.indexOf delim + 1), .live (u.drop (u.indexOf delim + 1)))
    else ([], .failed last)
  | .live u, .readFull n => if n ≤ u.length then (u.take n, .live (u.drop n)) else ([], .failed last)

/-- The answers to a sequence of calls other than `Read`: the bytes handed
out, in order, and the cursor after them. -/
def answers (s : Cursor) : List Call → List UInt8 × Cursor
  | [] => ([], s)
  | c :: cs =>
    ((answer size last s c).1 ++ (answers (answer size last s c).2 cs).1,
      (answers (answer size last s c).2 cs).2)

/-- `ReadByte` on a plain cursor: the next byte, or the error that ends it,
with the cursor after. -/
def readByte : Cursor → EStateM.Result Err Cursor UInt8
  | .failed e => .error e (.failed e)
  | .live [] => .error last (.failed last)
  | .live (x :: r) => .ok x (.live r)

/-- `PeekByte` on a plain cursor. -/
def peekByte : Cursor → EStateM.Result Err Cursor UInt8
  | .failed e => .error e (.failed e)
  | .live [] => .error last (.failed last)
  | .live (x :: r) => .ok x (.live (x :: r))

/-- `ReadSlice` on a plain cursor, which returns bytes together with its
error as the reader's does. -/
def readSlice (delim : UInt8) : Cursor → (List UInt8 × Option Err) × Cursor
  | .failed e => (([], some e), .failed e)
  | .live u =>
    if delim ∈ u ∧ u.indexOf delim < size then
      ((u.take (u.indexOf delim + 1), none), .live (u.drop (u.indexOf delim + 1)))
    else if size ≤ u.length then ((u.take size, some .bufferFull), .live (u.drop size))
    else (([], some last), .failed last)

/-- `ReadBytes` on a plain cursor. On a cursor failed with `ErrBufferFull`
the reader's loop goes round until the model's fuel runs out. -/
def readBytes (delim : UInt8) : Cursor → EStateM.Result Err Cursor (List UInt8)
  | .failed e => .error (if e = .bufferFull then .exhausted else e) (.failed e)
  | .live u =>
    if delim ∈ u then .ok (u.take (u.indexOf delim + 1)) (.live (u.drop (u.indexOf delim + 1)))
    else .error last (.failed last)

/-- `ReadFull(n)` on a plain cursor: `io.ErrUnexpectedEOF` when an `io.EOF`
stream ends after some bytes. -/
def readFull (n : Nat) : Cursor → EStateM.Result Err Cursor (List UInt8)
  | .failed e => .error e (.failed e)
  | .live u =>
    if n ≤ u.length then .ok (u.take n) (.live (u.drop n))
    else .error (if 0 < u.length ∧ last = .eof then .unexpectedEOF else last) (.failed last)

/-- The bytes a reply hands its caller, and the cursor after it. -/
def shown {α : Type} (f : α → List UInt8) : EStateM.Result Err Cursor α → List UInt8 × Cursor
  | .ok a s => (f a, s)
  | .error _ s => ([], s)

/-- One call on a plain cursor: a call other than `Read` gets its answer; a
`Read(p)` hands out nothing for an empty `p`, and otherwise any non-empty
front of at most `len(p)` bytes, or fails at the end of the stream. -/
inductive Step : Cursor → Call → List UInt8 → Cursor → Prop
  | call {s : Cursor} {c : Call} : c.isRead = false →
      Step s c (answer size last s c).1 (answer size last s c).2
  | readFailed (e : Err) (m : Nat) : Step (.failed e) (.read m) [] (.failed e)
  | readNone (u : List UInt8) : Step (.live u) (.read 0) [] (.live u)
  | read {m : Nat} (d u : List UInt8) : d ≠ [] → d.length ≤ m →
      Step (.live (d ++ u)) (.read m) d (.live u)
  | readEnd {m : Nat} : 0 < m → Step (.live []) (.read m) [] (.failed last)

/-- A run of calls on a plain cursor, with the bytes handed out in order. -/
inductive Run : Cursor → List Call → List UInt8 → Cursor → Prop
  | nil (s : Cursor) : Run s [] [] s
  | cons {s s' s'' : Cursor} {c : Call} {cs : List Call} {d ds : List UInt8} :
      Step size last s c d s' → Run s' cs ds s'' → Run s (c :: cs) (d ++ ds) s''

variable {size last}

theorem Step.of_answer {s s' : Cursor} {c : Call} {d : List UInt8} (hc : c.isRead = false)
    (h : answer size last s c = (d, s')) : Step size last s c d s' := by
  have := @Step.call size last s c hc
  rwa [h] at this

theorem Step.eq_answer {s s' : Cursor} {c : Call} {d : List UInt8} (h : Step size last s c d s')
    (hc : c.isRead = false) : (d, s') = answer size last s c := by
  cases h with
  | call => rfl
  | _ => simp [Call.isRead] at hc

theorem Run.eq_answers {s s' : Cursor} {cs : List Call} {d : List UInt8} (h : Run size last s cs d s')
    (hc : ∀ c ∈ cs, c.isRead = false) : (d, s') = answers size last s cs := by
  induction h with
  | nil => rfl
  | cons hs _ ih =>
    have h1 := hs.eq_answer (hc _ (List.mem_cons_self _ _))
    rw [Prod.mk.injEq] at h1
    rw [answers, ← h1.1, ← h1.2, ← ih fun c h => hc c (List.mem_cons_of_mem _ h)]

/-! The answers are what the replies hand out. -/

theorem answer_readByte (s : Cursor) :
    answer size last s .readByte = shown (fun x => [x]) (readByte last s) := by
  rcases s with (_ | _) | _ <;> rfl

theorem answer_peekByte (s : Cursor) :
    answer size last s .peekByte = shown (fun _ => []) (peekByte last s) := by
  rcases s with (_ | _) | _ <;> rfl

theorem answer_readSlice (delim : UInt8) (s : Cursor) :
    answer size last s (.readSlice delim) =
      ((readSlice size last delim s).1.1, (readSlice size last delim s).2) := by
  rcases s with u | _
  · simp only [answer, readSlice]; split_ifs <;> rfl
  · rfl

theorem answer_readBytes (delim : UInt8) (s : Cursor) :
    answer size last s (.readBytes delim) = shown id (readBytes last delim s) := by
  rcases s with u | _
  · simp only [answer, readBytes]; split_ifs <;> rfl
  · rfl

theorem answer_readFull (n : Nat) (s : Cursor) :
    answer size last s (.readFull n) = shown id (readFull last n s) := by
  rcases s with u | _
  · simp only [answer, readFull]; split_ifs <;> rfl
  · rfl

end Cursor

namespace Source

theorem chunks_eq_nil {s : Source} (h : s.Live) (hb : s.bytes = []) : s.chunks = [] := by
  rw [bytes, List.flatten_eq_nil_iff] at hb
  cases hc : s.chunks with
  | nil => rfl
  | cons c cs => exact absurd (hb c (by simp [hc])) (h.chunks c (by simp [hc]))

end Source

theorem split_first {d : UInt8} {l : List UInt8} (h : d ∈ l) :
    l = l.take (l.indexOf d) ++ d :: l.drop (l.indexOf d + 1) ∧ d ∉ l.take (l.indexOf d) := by
  obtain ⟨h1, h2⟩ := take_indexOf_succ h
  refine ⟨?_, h2⟩
  conv_lhs => rw [← List.take_append_drop (l.indexOf d + 1) l, h1]
  simp

namespace Reader

variable {b b' : Reader}

/-- The plain cursor a reader stands for: its unread bytes, or its sticky
error. -/
def cursor (b : Reader) : Cursor :=
  match b.err with
  | none => .live b.unread
  | some e => .failed e

theorem cursor_of_none (h : b.err = none) : b.cursor = .live b.unread := by simp [cursor, h]

theorem cursor_of_some {e : Err} (h : b.err = some e) : b.cursor = .failed e := by simp [cursor, h]

/-- A reader computation's result, with the reader in it seen as its cursor. -/
def onCursor {α : Type} : EStateM.Result Err Reader α → EStateM.Result Err Cursor α
  | .ok a b => .ok a b.cursor
  | .error e b => .error e b.cursor

theorem shown_onCursor {α : Type} (f : α → List UInt8) (r : EStateM.Result Err Reader α) :
    Cursor.shown f (onCursor r) = (handed f r, (after r).cursor) := by
  cases r <;> rfl

/-! ### The source's error stays -/

theorem Move.eof (hm : Move b b') (h : b.WF) : b'.rd.eof = b.rd.eof := by
  cases hm with
  | fill => exact (fill_rd_err h).1
  | advance => rfl
  | direct m => exact Source.read_eof _ _

theorem Moves.eof (hm : Moves b b') (h : b.WF) : b'.rd.eof = b.rd.eof := by
  induction hm with
  | refl => rfl
  | tail hm' step ih => exact (step.eof (Moves.wf hm' h)).trans ih

theorem call_eof (h : b.WF) (c : Call) : (b.call c).rd.eof = b.rd.eof := (call_moves h c).eof h

/-! ### At the end of a live source -/

/-- With the source done, `fill` fails with its error and keeps the buffered
bytes. -/
theorem fill_end (h : b.Live) (hb : b.rd.bytes = []) :
    b.fill.err = some b.rd.eof ∧ b.fill.unread = b.unread := by
  have hch := Source.chunks_eq_nil h.rd hb
  obtain ⟨-, -, -, -, hrd, -⟩ := compact_eq h.wf
  have hr : b.compact.rd.read (b.compact.buf.length - b.compact.wpos) = (([], some b.rd.eof), b.rd) := by
    rw [hrd]; simp [Source.read, hch]
  obtain ⟨he, hu⟩ := fill_error_drops h.wf h.err (by rw [hr])
  rw [hr, List.append_nil] at hu
  exact ⟨he, hu.symm⟩

theorem fillIfEmpty_end (h : b.Live) (hu : b.unread = []) : b.fillIfEmpty.err = some b.rd.eof := by
  obtain ⟨hw, hb⟩ : b.window = [] ∧ b.rd.bytes = [] := by simpa [unread_eq] using hu
  have h0 : b.buffered = 0 := by rw [← window_length h.wf, hw]; rfl
  simp only [fillIfEmpty, h0, ↓reduceIte]
  exact (fill_end h hb).1

theorem readByte_end (h : b.Live) (hu : b.unread = []) :
    ∃ b', b.readByte = .error b.rd.eof b' ∧ b'.err = some b.rd.eof :=
  ⟨b.fillIfEmpty, by simp [readByte, h.err, fillIfEmpty_end h hu], fillIfEmpty_end h hu⟩

theorem peekByte_end (h : b.Live) (hu : b.unread = []) :
    ∃ b', b.peekByte = .error b.rd.eof b' ∧ b'.err = some b.rd.eof :=
  ⟨b.fillIfEmpty, by simp [peekByte, h.err, fillIfEmpty_end h hu], fillIfEmpty_end h hu⟩

theorem read_end {m : Nat} (h : b.Live) (hm : 0 < m) (hu : b.unread = []) :
    ∃ b', b.read m = (([], some b.rd.eof), b') ∧ b'.err = some b.rd.eof := by
  obtain ⟨-, hb⟩ : b.window = [] ∧ b.rd.bytes = [] := by simpa [unread_eq] using hu
  have hch := Source.chunks_eq_nil h.rd hb
  have hc := fillIfEmpty_end h hu
  unfold read
  simp only [h.err, Nat.pos_iff_ne_zero.mp hm, ↓reduceIte]
  have hrd : b.rd.read m = (([], some b.rd.eof), b.rd) := by simp [Source.read, hch]
  split
  · rw [hrd]; exact ⟨_, rfl, rfl⟩
  · exact ⟨b.fillIfEmpty, by rw [hc], hc⟩

/-- **`ReadSlice`'s loop on a live source without the delimiter** returns the
buffer's worth of bytes with `ErrBufferFull` when there are that many, and
fails with the source's error at the end otherwise. -/
theorem readSliceLoop_noDelim {delim : UInt8} :
    ∀ (fuel : Nat) {b : Reader}, b.Live → delim ∉ b.unread → b.buf.length - b.buffered < fuel →
      (b.buf.length ≤ b.unread.length → ∃ b', readSliceLoop delim fuel b =
          ((b.unread.take b.buf.length, some .bufferFull), b') ∧ b'.Live ∧
        b'.unread = b.unread.drop b.buf.length ∧ b'.buf.length = b.buf.length) ∧
      (b.unread.length < b.buf.length → ∃ b', readSliceLoop delim fuel b =
          (([], some b.rd.eof), b') ∧ b'.err = some b.rd.eof)
  | 0, _, _, _, hf => absurd hf (Nat.not_lt_zero _)
  | fuel + 1, b, h, hd, hf => by
    have hwl := window_length h.wf
    have hwin : delim ∉ b.window := fun hm => hd (by rw [unread_eq]; exact List.mem_append_left _ hm)
    have hle : b.buffered ≤ b.unread.length := by rw [← hwl, unread_eq, List.length_append]; omega
    unfold readSliceLoop
    rw [if_neg hwin]
    by_cases hfull : b.buffered = b.buf.length
    · -- a full buffer is the first `len(buf)` unread bytes
      rw [if_pos hfull]
      have hw' : b.wpos - b.rpos = b.buf.length := hfull
      have hr0 : b.rpos = 0 := by have := h.wf.wpos_le; have := h.wf.buf_pos; omega
      have hwb : b.window = b.buf := by
        rw [window_rpos_zero hr0]; exact List.take_of_length_le (by omega)
      obtain ⟨hu, hw⟩ := unread_advance h.wf (le_refl b.buffered)
      have hend : b.rpos + b.buffered = b.wpos := by
        have := h.wf.rpos_le; simp only [buffered]; omega
      rw [hend] at hu hw
      have hlen : (b.window.take b.buffered).length = b.buf.length := by
        rw [List.length_take, hwl, hfull, Nat.min_self]
      refine ⟨fun _ => ⟨_, ?_, ⟨hw, h.err, h.rd⟩, ?_, rfl⟩, fun _ => by omega⟩
      · rw [hu, List.take_left' hlen, List.take_of_length_le (by omega), hwb]
      · conv_rhs => rw [hu]
        rw [List.drop_left' hlen]
    · rw [if_neg hfull]
      have hroom' : b.buffered < b.buf.length := by
        have := h.wf.wpos_le; have := h.wf.rpos_le; simp only [buffered] at *; omega
      dsimp only
      by_cases hb : b.rd.bytes = []
      · -- the source is done: `fill` fails with its error
        obtain ⟨hfe, -⟩ := fill_end h hb
        have hlt : b.unread.length < b.buf.length := by
          rw [unread_eq, hb, List.append_nil, hwl]; exact hroom'
        exact ⟨fun hge => absurd hge (by omega), fun _ => ⟨b.fill, by rw [hfe], hfe⟩⟩
      · obtain ⟨hc, hdl, hgt⟩ := fill_live h hb hroom'
        have hu' : b.fill.unread = b.unread := by rw [hdl.unread, List.nil_append]
        have ih := readSliceLoop_noDelim fuel hc (hu' ▸ hd) (by rw [hdl.size]; omega)
        rw [hu', hdl.size, (fill_rd_err h.wf).1] at ih
        simp only [hc.err]
        exact ih

theorem readSlice_noDelim {delim : UInt8} (h : b.Live) (hd : delim ∉ b.unread) :
    (b.buf.length ≤ b.unread.length → ∃ b', b.readSlice delim =
        ((b.unread.take b.buf.length, some .bufferFull), b') ∧ b'.Live ∧
      b'.unread = b.unread.drop b.buf.length ∧ b'.buf.length = b.buf.length) ∧
    (b.unread.length < b.buf.length → ∃ b', b.readSlice delim =
        (([], some b.rd.eof), b') ∧ b'.err = some b.rd.eof) := by
  have hr : b.readSlice delim = readSliceLoop delim (b.buf.length + 1) b := by simp [readSlice, h.err]
  rw [hr]
  exact readSliceLoop_noDelim _ h hd (by omega)

/-- **`ReadBytes`' loop on a live source without the delimiter** hands out
full buffers to itself until the end, and fails with the source's error. -/
theorem readBytesLoop_end {delim : UInt8} {last : Err} (hp : last ≠ .bufferFull) :
    ∀ (fuel : Nat) (acc : List UInt8) {b : Reader}, b.Live → b.rd.eof = last → delim ∉ b.unread →
      b.unread.length < fuel → ∃ b', readBytesLoop delim fuel acc b = .error last b' ∧ b'.err = some last
  | 0, _, _, _, _, _, hf => absurd hf (Nat.not_lt_zero _)
  | fuel + 1, acc, b, h, he, hd, hf => by
    obtain ⟨hfull, hend⟩ := readSlice_noDelim h hd
    unfold readBytesLoop
    dsimp only
    by_cases hl : b.buf.length ≤ b.unread.length
    · obtain ⟨b1, hr, hl1, hu1, -⟩ := hfull hl
      have he1 : b1.rd.eof = last := by
        rw [← he, ← (readSlice_moves h.wf delim).eof h.wf, hr]
      obtain ⟨b', hr', he'⟩ := readBytesLoop_end hp fuel _ hl1 he1
        (by rw [hu1]; exact fun hm => hd (List.mem_of_mem_drop hm))
        (by rw [hu1, List.length_drop]; have := h.wf.buf_pos; omega)
      rw [hr]
      exact ⟨b', hr', he'⟩
    · obtain ⟨b1, hr, he1⟩ := hend (by omega)
      rw [hr]
      dsimp only
      split
      · rename_i hx; cases hx
      · rename_i hx; exact absurd (he ▸ Option.some.inj hx) hp
      · rename_i e' _ hx
        cases hx
        exact ⟨b1, by rw [he1, he]; rfl, he ▸ he1⟩

theorem readBytes_end {delim : UInt8} (h : b.Live) (hp : b.rd.eof ≠ .bufferFull)
    (hd : delim ∉ b.unread) :
    ∃ b', b.readBytes delim = .error b.rd.eof b' ∧ b'.err = some b.rd.eof :=
  readBytesLoop_end hp _ [] h rfl hd (Nat.lt_succ_self _)

/-- **`io.ReadFull`'s loop on a live source that runs dry** collects all
that is left and fails with the source's error. -/
theorem readAtLeastLoop_end (min : Nat) :
    ∀ (fuel : Nat) (acc : List UInt8) {b : Reader}, b.Live → b.unread.length < min - acc.length →
      b.unread.length < fuel → ∃ b', readAtLeastLoop min fuel acc b =
        ((acc ++ b.unread, some b.rd.eof), b') ∧ b'.err = some b.rd.eof
  | 0, _, _, _, _, hf => absurd hf (Nat.not_lt_zero _)
  | fuel + 1, acc, b, h, hn, hf => by
    unfold readAtLeastLoop
    rw [if_neg (by omega)]
    dsimp only
    by_cases hu : b.unread = []
    · obtain ⟨b', hr, he'⟩ := read_end h (m := min - acc.length) (by omega) hu
      rw [hr, hu]
      exact ⟨b', rfl, he'⟩
    · obtain ⟨he, hne, hl⟩ := read_ne_nil h (m := min - acc.length) (by omega) hu
      have heof := (read_moves b (min - acc.length)).eof h.wf
      generalize hq : b.read (min - acc.length) = q at he hne hl heof
      obtain ⟨⟨d, e⟩, b1⟩ := q
      dsimp only at he hne hl heof ⊢
      subst he
      have hd := (read_ok h.wf hq (.inl rfl)).1
      have hlen := congrArg List.length hd.unread
      rw [List.length_append] at hlen
      have hdpos := List.length_pos.mpr hne
      obtain ⟨b', hr, he'⟩ := readAtLeastLoop_end min fuel (acc ++ d) hl
        (by rw [List.length_append]; omega) (by omega)
      rw [hr, hd.unread, heof, List.append_assoc]
      exact ⟨b', rfl, heof ▸ he'⟩

theorem readFull_end {n : Nat} (h : b.Live) (hn : b.unread.length < n) :
    ∃ b', b.readFull n = .error (if 0 < b.unread.length ∧ b.rd.eof = .eof then .unexpectedEOF
      else b.rd.eof) b' ∧ b'.err = some b.rd.eof := by
  obtain ⟨b', hr, he'⟩ := readAtLeastLoop_end n (n + b.rd.chunks.length + 1) [] h
    (by simpa using hn) (by omega)
  have hn0 : n ≠ 0 := by omega
  refine ⟨b', ?_, he'⟩
  unfold readFull ioReadFull
  simp only [h.err, hn0, ↓reduceIte, hr, List.nil_append, Option.some.injEq]
  rw [if_neg (by omega)]
  split_ifs <;> rfl

/-! ### One call

On a live reader each call but `Read` returns the plain cursor's reply, and a
reader it leaves without an error is live, with the same buffer. -/

/-- The reader a call leaves: live with the same buffer, unless it failed. -/
def LeftLive (b b' : Reader) : Prop := b'.err = none → b'.Live ∧ b'.buf.length = b.buf.length

theorem readByte_reply (h : b.Live) :
    onCursor (readByte b) = Cursor.readByte b.rd.eof (.live b.unread) ∧
      LeftLive b (after (readByte b)) := by
  cases hu : b.unread with
  | nil =>
    obtain ⟨b', hr, he'⟩ := readByte_end h hu
    simp only [hr, onCursor, after, cursor_of_some he', LeftLive, he']
    exact ⟨rfl, nofun⟩
  | cons x r =>
    obtain ⟨b', hr, hl, hu', hs⟩ := readByte_live h hu
    simp only [hr, onCursor, after, cursor_of_none hl.err, hu']
    exact ⟨rfl, fun _ => ⟨hl, hs⟩⟩

theorem peekByte_reply (h : b.Live) :
    onCursor (peekByte b) = Cursor.peekByte b.rd.eof (.live b.unread) ∧
      LeftLive b (after (peekByte b)) := by
  cases hu : b.unread with
  | nil =>
    obtain ⟨b', hr, he'⟩ := peekByte_end h hu
    simp only [hr, onCursor, after, cursor_of_some he', LeftLive, he']
    exact ⟨rfl, nofun⟩
  | cons x r =>
    obtain ⟨b', hr, hl, hu', hs⟩ := peekByte_live h hu
    simp only [hr, onCursor, after, cursor_of_none hl.err, hu']
    exact ⟨rfl, fun _ => ⟨hl, hs⟩⟩

theorem readSlice_reply (h : b.Live) (delim : UInt8) :
    ((b.readSlice delim).1, (b.readSlice delim).2.cursor) =
      Cursor.readSlice b.buf.length b.rd.eof delim (.live b.unread) ∧
      LeftLive b (b.readSlice delim).2 := by
  by_cases hd : delim ∈ b.unread
  · obtain ⟨hsplit, hpre⟩ := split_first hd
    have hi : b.unread.indexOf delim < b.unread.length := List.indexOf_lt_length.2 hd
    have hpl : (b.unread.take (b.unread.indexOf delim)).length = b.unread.indexOf delim := by
      simp; omega
    by_cases hfit : b.unread.indexOf delim < b.buf.length
    · obtain ⟨b', hr, hl, hu', hs⟩ := readSlice_fit h hsplit hpre (by omega)
      rw [hr, cursor_of_none hl.err, hu']
      refine ⟨?_, fun _ => ⟨hl, hs⟩⟩
      simp only [Cursor.readSlice, hd, hfit, and_self, ↓reduceIte, (take_indexOf_succ hd).1]
    · obtain ⟨b', hr, hl, hu', hs⟩ := readSlice_full h hsplit hpre (by omega)
      rw [hr, cursor_of_none hl.err, hu']
      refine ⟨?_, fun _ => ⟨hl, hs⟩⟩
      have hle : b.buf.length ≤ b.unread.length := by omega
      simp only [Cursor.readSlice, hd, hfit, and_false, ↓reduceIte, hle]
      conv_rhs => rw [hsplit]
      rw [List.take_append_of_le_length (by omega), List.drop_append_of_le_length (by omega)]
  · obtain ⟨hfull, hend⟩ := readSlice_noDelim h hd
    by_cases hle : b.buf.length ≤ b.unread.length
    · obtain ⟨b', hr, hl, hu', hs⟩ := hfull hle
      rw [hr, cursor_of_none hl.err, hu']
      exact ⟨by simp [Cursor.readSlice, hd, hle], fun _ => ⟨hl, hs⟩⟩
    · obtain ⟨b', hr, he'⟩ := hend (by omega)
      rw [hr, cursor_of_some he']
      exact ⟨by simp [Cursor.readSlice, hd, hle], by simp [LeftLive, he']⟩

theorem readBytes_reply (h : b.Live) (hp : b.rd.eof ≠ .bufferFull) (delim : UInt8) :
    onCursor (readBytes delim b) = Cursor.readBytes b.rd.eof delim (.live b.unread) ∧
      LeftLive b (after (readBytes delim b)) := by
  by_cases hd : delim ∈ b.unread
  · obtain ⟨hsplit, hpre⟩ := split_first hd
    obtain ⟨b', hr, hl, hu', hs⟩ := readBytes_live h hsplit hpre
    simp only [hr, onCursor, after, cursor_of_none hl.err, hu']
    refine ⟨?_, fun _ => ⟨hl, hs⟩⟩
    simp only [Cursor.readBytes, hd, ↓reduceIte, (take_indexOf_succ hd).1]
  · obtain ⟨b', hr, he'⟩ := readBytes_end h hp hd
    simp only [hr, onCursor, after, cursor_of_some he', LeftLive, he']
    exact ⟨by simp [Cursor.readBytes, hd], nofun⟩

theorem readFull_reply (h : b.Live) (n : Nat) :
    onCursor (readFull n b) = Cursor.readFull b.rd.eof n (.live b.unread) ∧
      LeftLive b (after (readFull n b)) := by
  by_cases hn : n ≤ b.unread.length
  · obtain ⟨b', hr, hl, hu', hs⟩ := readFull_live h hn
    simp only [hr, onCursor, after, cursor_of_none hl.err, hu']
    exact ⟨by simp [Cursor.readFull, hn], fun _ => ⟨hl, hs⟩⟩
  · obtain ⟨b', hr, he'⟩ := readFull_end h (show b.unread.length < n by omega)
    simp only [hr, onCursor, after, cursor_of_some he', LeftLive, he']
    exact ⟨by simp [Cursor.readFull, hn], nofun⟩

open Cursor (Step)

/-- **A call on a live reader is a step of the plain cursor** with the same
bytes handed out; a reader it leaves without an error is live, with the
same buffer. -/
theorem call_step (h : b.Live) (hp : b.rd.eof ≠ .bufferFull) (c : Call) :
    Step b.buf.length b.rd.eof (.live b.unread) c (b.given c) (b.call c).cursor ∧
      ((b.call c).err = none → (b.call c).Live ∧ (b.call c).buf.length = b.buf.length) := by
  cases c with
  | read m =>
    simp only [given, call]
    by_cases hm : m = 0
    · subst hm
      have hr : b.read 0 = (([], none), b) := by simp [read, h.err]
      rw [hr, cursor_of_none h.err]
      exact ⟨.readNone _, fun _ => ⟨h, rfl⟩⟩
    by_cases hu : b.unread = []
    · obtain ⟨b', hr, he'⟩ := read_end h (Nat.pos_of_ne_zero hm) hu
      rw [hr, hu, cursor_of_some he']
      exact ⟨.readEnd (Nat.pos_of_ne_zero hm), by simp [he']⟩
    · obtain ⟨he, hne, hl⟩ := read_ne_nil h (Nat.pos_of_ne_zero hm) hu
      obtain ⟨hd, hdl⟩ := read_ok h.wf rfl (.inl he)
      rw [hd.unread, cursor_of_none hl.err]
      exact ⟨.read _ _ hne hdl, fun _ => ⟨hl, hd.size⟩⟩
  | readByte =>
    obtain ⟨hr, hl⟩ := readByte_reply h
    refine ⟨.of_answer rfl ?_, hl⟩
    rw [Cursor.answer_readByte, ← hr, shown_onCursor]; rfl
  | peekByte =>
    obtain ⟨hr, hl⟩ := peekByte_reply h
    refine ⟨.of_answer rfl ?_, hl⟩
    rw [Cursor.answer_peekByte, ← hr, shown_onCursor]
    show _ = ([], (after (peekByte b)).cursor)
    cases peekByte b <;> rfl
  | readSlice delim =>
    obtain ⟨hr, hl⟩ := readSlice_reply h delim
    exact ⟨.of_answer rfl (by rw [Cursor.answer_readSlice, ← hr]; rfl), hl⟩
  | readBytes delim =>
    obtain ⟨hr, hl⟩ := readBytes_reply h hp delim
    refine ⟨.of_answer rfl ?_, hl⟩
    rw [Cursor.answer_readBytes, ← hr, shown_onCursor]; rfl
  | readFull n =>
    obtain ⟨hr, hl⟩ := readFull_reply h n
    refine ⟨.of_answer rfl ?_, hl⟩
    rw [Cursor.answer_readFull, ← hr, shown_onCursor]; rfl

/-! ### A run of calls -/

/-- A reader with a buffer of `size` bytes over a live source that ends with
`last`, unless it has failed. -/
def Tracks (size : Nat) (last : Err) (b : Reader) : Prop :=
  b.err = none → b.Live ∧ b.buf.length = size ∧ b.rd.eof = last

section Run

variable {size : Nat} {last : Err}

theorem Tracks.step (hp : last ≠ .bufferFull) (h : b.Tracks size last) (c : Call) :
    Step size last b.cursor c (b.given c) (b.call c).cursor ∧ (b.call c).Tracks size last := by
  cases he : b.err with
  | some e =>
    rw [given_of_err he, call_of_err he, cursor_of_some he]
    refine ⟨?_, h⟩
    cases c with
    | read m => exact .readFailed e m
    | _ => exact .of_answer rfl rfl
  | none =>
    obtain ⟨hl, hs, heof⟩ := h he
    subst hs heof
    obtain ⟨h1, h2⟩ := call_step hl hp c
    rw [cursor_of_none he]
    exact ⟨h1, fun he' => ⟨(h2 he').1, (h2 he').2, call_eof hl.wf c⟩⟩

/-- On a failed reader `ReadBytes`' loop goes round while the error is
`ErrBufferFull`, and fails with the error otherwise. -/
theorem readBytesLoop_failed {delim : UInt8} {e : Err} (he : b.err = some e) :
    ∀ (fuel : Nat) (acc : List UInt8),
      readBytesLoop delim (fuel + 1) acc b = .error (if e = .bufferFull then .exhausted else e) b
  | fuel, acc => by
    have hs : b.readSlice delim = (([], some e), b) := by simp [readSlice, he]
    simp only [readBytesLoop, hs]
    by_cases hfull : e = .bufferFull
    · subst hfull
      cases fuel with
      | zero => rfl
      | succ k => exact readBytesLoop_failed he k _
    · simp only [hfull, ↓reduceIte, he, Option.getD_some]

/-- **A tracked reader returns the plain cursor's replies** to every call but
`Read`, failed or not. -/
theorem Tracks.replies (hp : last ≠ .bufferFull) (h : b.Tracks size last) :
    onCursor (readByte b) = Cursor.readByte last b.cursor ∧
      onCursor (peekByte b) = Cursor.peekByte last b.cursor ∧
      (∀ delim, ((b.readSlice delim).1, (b.readSlice delim).2.cursor) =
        Cursor.readSlice size last delim b.cursor) ∧
      (∀ delim, onCursor (readBytes delim b) = Cursor.readBytes last delim b.cursor) ∧
      ∀ n, onCursor (readFull n b) = Cursor.readFull last n b.cursor := by
  cases he : b.err with
  | some e =>
    have hc := cursor_of_some he
    refine ⟨?_, ?_, fun _ => ?_, fun _ => ?_, fun _ => ?_⟩
    · simp [readByte, he, onCursor, hc]; rfl
    · simp [peekByte, he, onCursor, hc]; rfl
    · simp [readSlice, he, hc]; rfl
    · rw [readBytes, readBytesLoop_failed he]; simp [onCursor, hc]; rfl
    · simp [readFull, he, onCursor, hc]; rfl
  | none =>
    obtain ⟨hl, hs, heof⟩ := h he
    subst hs heof
    rw [cursor_of_none he]
    exact ⟨(readByte_reply hl).1, (peekByte_reply hl).1, fun d => (readSlice_reply hl d).1,
      fun d => (readBytes_reply hl hp d).1, fun n => (readFull_reply hl n).1⟩

/-- **Every run of a tracked reader is a run of the plain cursor**, with the
same bytes handed out. -/
theorem run_refines (hp : last ≠ .bufferFull) :
    ∀ (cs : List Call) {b : Reader}, b.Tracks size last →
      Cursor.Run size last b.cursor cs (b.output cs) (b.run cs).cursor
  | [], _, _ => .nil _
  | c :: cs, _, h => .cons (h.step hp c).1 (run_refines hp cs (h.step hp c).2)

end Run

theorem newReaderSize_tracks {rd : Source} (hrd : rd.Live) (size : Int) :
    (newReaderSize rd size).Tracks (newReaderSize rd size).buf.length rd.eof :=
  fun _ => ⟨newReaderSize_live hrd size, rfl, rfl⟩

theorem newReaderSize_cursor (rd : Source) (size : Int) :
    (newReaderSize rd size).cursor = .live rd.bytes :=
  (cursor_of_none rfl).trans (congrArg _ (newReaderSize_unread rd size))

/-- **A reader made by `NewReaderSize` over a live source is a plain
cursor.** For every live source whose error is not `bufio.ErrBufferFull`,
every buffer size and every sequence of calls, what the reader hands out is a
run of the plain cursor over the stream, with the buffer's size in
`ReadSlice`, and the reader ends as the cursor does: with the bytes it has
not handed out, or failed with the source's error. -/
theorem refines_cursor (rd : Source) (hrd : rd.Live) (hp : rd.eof ≠ .bufferFull) (size : Int)
    (cs : List Call) :
    Cursor.Run (newReaderSize rd size).buf.length rd.eof (.live rd.bytes) cs
      ((newReaderSize rd size).output cs) ((newReaderSize rd size).run cs).cursor := by
  rw [← newReaderSize_cursor rd size]
  exact run_refines hp cs (newReaderSize_tracks hrd size)

/-- A line, a `Read` of at most 4 bytes, and the end of the stream. -/
def lineThenByte : Source := ⟨[[97, 10], [98]], false, .eof⟩

theorem refines_cursor_lineThenByte :
    lineThenByte.Live ∧ lineThenByte.eof ≠ .bufferFull ∧
      Cursor.Run (newReaderSize lineThenByte 16).buf.length lineThenByte.eof (.live lineThenByte.bytes)
        [.readSlice 10, .read 4, .readByte]
        ((newReaderSize lineThenByte 16).output [.readSlice 10, .read 4, .readByte])
        ((newReaderSize lineThenByte 16).run [.readSlice 10, .read 4, .readByte]).cursor :=
  have hlive : lineThenByte.Live := ⟨rfl, by simp [lineThenByte]⟩
  ⟨hlive, nofun, refines_cursor lineThenByte hlive nofun 16 [.readSlice 10, .read 4, .readByte]⟩

/-- **Without `Read`, the reader hands out what the plain cursor's function
does**: over every live source whose error is not `bufio.ErrBufferFull`,
every buffer size and every sequence of `ReadByte`, `PeekByte`, `ReadSlice`,
`ReadBytes` and `ReadFull` calls. The answer depends on the stream, its error
and the buffer's size only, not on how the source splits the stream into
reads. -/
theorem output_eq_answers (rd : Source) (hrd : rd.Live) (hp : rd.eof ≠ .bufferFull) (size : Int)
    (cs : List Call) (hc : ∀ c ∈ cs, c.isRead = false) :
    ((newReaderSize rd size).output cs, ((newReaderSize rd size).run cs).cursor) =
      Cursor.answers (newReaderSize rd size).buf.length rd.eof (.live rd.bytes) cs := by
  have h := run_refines hp cs (newReaderSize_tracks hrd size)
  rw [newReaderSize_cursor] at h
  exact h.eq_answers hc

/-- Two ways to split the stream `GET k\r\n` into reads, read by lines and
bytes with a 4-byte buffer. -/
def getInTwo : Source := ⟨[[71, 69], [84, 32, 107, 13, 10]], false, .eof⟩

theorem output_eq_answers_getInTwo :
    getInTwo.Live ∧ getInTwo.eof ≠ .bufferFull ∧
      (∀ c ∈ [Call.readSlice 10, .readSlice 10, .peekByte, .readFull 1], c.isRead = false) ∧
      ((newReaderSize getInTwo 4).output [.readSlice 10, .readSlice 10, .peekByte, .readFull 1],
        ((newReaderSize getInTwo 4).run [.readSlice 10, .readSlice 10, .peekByte, .readFull 1]).cursor) =
        Cursor.answers (newReaderSize getInTwo 4).buf.length getInTwo.eof (.live getInTwo.bytes)
          [.readSlice 10, .readSlice 10, .peekByte, .readFull 1] ∧
      Cursor.answers 4 .eof (.live [71, 69, 84, 32, 107, 13, 10])
          [.readSlice 10, .readSlice 10, .peekByte, .readFull 1] =
        ([71, 69, 84, 32, 107, 13, 10], .failed .eof) :=
  have hlive : getInTwo.Live := ⟨rfl, by simp [getInTwo]⟩
  have hc : ∀ c ∈ [Call.readSlice 10, .readSlice 10, .peekByte, .readFull 1], c.isRead = false := by
    decide
  ⟨hlive, nofun, hc, output_eq_answers getInTwo hlive nofun 4 _ hc, by decide⟩

end Reader

end Bufio2
end Codis
