/-
# The reader's representation invariant over every run

`Reader.WF` says `0 ≤ rpos ≤ wpos ≤ len(buf)` with a non-empty buffer.
What a method can do to the reader is one of three moves (`Move`): `fill`,
hand out buffered bytes by moving `rpos`, or `Read`'s direct read from the
source. Every call is a sequence of moves (`call_moves`), whatever the
underlying reader returns and in every outcome, errors included. Each move
keeps the invariant, so every call does (`call_wf`); a new reader has it, so
every reader a sequence of calls reaches has it (`run_wf`).

The places where the code relies on it:

* `fill` is called from `if b.buffered() == 0 { b.fill() }` and from
  `ReadSlice`'s loop once the buffer is not full; in both, after the
  compaction `buf[wpos:]` is not empty (`fill_room`), so `Read` gets a
  non-empty slice and a read of no bytes is the source's doing
  (`fillIfEmpty_cases`, `readSliceLoop_cases`).
* `ReadByte` and `PeekByte` index `buf[rpos]` only after that step left
  `rpos < wpos` (`readByte_index`, `peekByte_index`).
* `ReadSlice`'s `ErrBufferFull` branch runs with `rpos = 0` and `wpos =
  len(buf)`, so the `buf` it returns is `buf[rpos:wpos]`.

Once the sticky error is set, every call returns it and leaves the reader as
it was (`call_of_err`), so `rpos`, `wpos` and `buf` never change again.

Key definitions: `Reader.Call`, `Reader.call`, `Reader.run`, `Reader.Move`.
Key theorems: `fill_wf`, `call_moves`, `call_wf`, `run_wf`, `readSliceLoop_cases`,
`run_of_err`, `reader_invariant`.
-/
import Codis.Bufio2.Cursor
import Mathlib.Logic.Relation

namespace Codis
namespace Bufio2

/-- The reader a `ReaderM` call leaves, whatever it returned. -/
def after {α : Type} : EStateM.Result Err Reader α → Reader
  | .ok _ b => b
  | .error _ b => b

namespace Reader

/-- A call of the reader's API. -/
inductive Call
  | read (m : Nat)
  | readByte
  | peekByte
  | readSlice (delim : UInt8)
  | readBytes (delim : UInt8)
  | readFull (n : Nat)
  deriving DecidableEq, Repr

/-- The reader after one call. -/
def call (b : Reader) : Call → Reader
  | .read m => (b.read m).2
  | .readByte => after (readByte b)
  | .peekByte => after (peekByte b)
  | .readSlice delim => (b.readSlice delim).2
  | .readBytes delim => after (readBytes delim b)
  | .readFull n => after (readFull n b)

/-- A sequence of calls. -/
def run (b : Reader) : List Call → Reader
  | [] => b
  | c :: cs => (b.call c).run cs

/-! ### What a method can do to the reader -/

/-- One move of a method on the reader: `fill`; hand out `k ≤ buffered()`
bytes by moving `rpos`; or, on `Read`'s direct path, one `Read` of the
source into the caller's slice, whose error becomes the sticky one. -/
inductive Move : Reader → Reader → Prop
  | fill (b : Reader) : Move b b.fill
  | advance (b : Reader) {k : Nat} : k ≤ b.buffered → Move b { b with rpos := b.rpos + k }
  | direct (b : Reader) (m : Nat) :
      Move b { b with rd := (b.rd.read m).2, err := (b.rd.read m).1.2 }

/-- Any number of moves. -/
abbrev Moves : Reader → Reader → Prop := Relation.ReflTransGen Move

variable {b b' : Reader}

/-- **`fill` keeps the invariant** in every outcome, and the buffer's size. -/
theorem fill_wf (h : b.WF) : b.fill.WF ∧ b.fill.buf.length = b.buf.length := by
  obtain ⟨h0, hw, hl, -, -, -⟩ := compact_eq h
  have hwl : b.compact.wpos ≤ b.compact.buf.length := by
    rw [hw, hl]; have := h.wpos_le; simp only [buffered]; omega
  have hle := b.compact.rd.read_length_le (b.compact.buf.length - b.compact.wpos)
  unfold fill
  split
  · exact ⟨h, rfl⟩
  · dsimp only
    generalize b.compact.rd.read (b.compact.buf.length - b.compact.wpos) = r at hle ⊢
    obtain ⟨⟨d, e⟩, rd'⟩ := r
    have hland : (b.compact.land d).length = b.buf.length :=
      (land_length (by simp only at hle; omega)).trans hl
    have hpos := h.buf_pos
    split
    · exact ⟨⟨by simp only [h0, Nat.zero_le], by simp only [hland]; omega, by simpa [hland]⟩, hland⟩
    · split
      · exact ⟨⟨by simp only [h0, Nat.zero_le], by simp only [hland]; omega, by simpa [hland]⟩,
          hland⟩
      · exact ⟨⟨by simp only [h0, Nat.zero_le], by simp only [hland] at hle ⊢; omega,
          by simpa [hland]⟩, hland⟩

theorem Move.wf (hm : Move b b') (h : b.WF) : b'.WF := by
  cases hm with
  | fill => exact (fill_wf h).1
  | advance hk => exact (unread_advance h hk).2
  | direct => exact ⟨h.rpos_le, h.wpos_le, h.buf_pos⟩

theorem Moves.wf (hm : Moves b b') (h : b.WF) : b'.WF := by
  induction hm with
  | refl => exact h
  | tail _ step ih => exact step.wf ih

/-! ### Every method is a sequence of moves -/

theorem fillIfEmpty_moves (b : Reader) : Moves b b.fillIfEmpty := by
  unfold fillIfEmpty
  split
  exacts [.single (.fill b), .refl]

theorem read_moves (b : Reader) (m : Nat) : Moves b (b.read m).2 := by
  unfold read
  split
  · exact .refl
  · split
    · exact .refl
    · dsimp only
      split
      · exact .single (.direct b m)
      · split
        · exact fillIfEmpty_moves b
        · exact (fillIfEmpty_moves b).tail (.advance _ (Nat.min_le_right _ _))

theorem readByte_moves (h : b.WF) : Moves b (after (readByte b)) := by
  unfold readByte
  split
  · exact .refl
  · rename_i he
    dsimp only
    split
    · exact fillIfEmpty_moves b
    · rename_i hc
      exact (fillIfEmpty_moves b).tail (.advance _ (fillIfEmpty_ok h he hc).2.2.1)

theorem peekByte_moves : Moves b (after (peekByte b)) := by
  unfold peekByte
  split
  · exact .refl
  · dsimp only
    split <;> exact fillIfEmpty_moves b

theorem readSliceLoop_moves (delim : UInt8) :
    ∀ (fuel : Nat) {b : Reader}, b.WF → Moves b (readSliceLoop delim fuel b).2
  | 0, _, _ => .refl
  | fuel + 1, b, h => by
    unfold readSliceLoop
    split
    · exact .single (.advance b (window_length h ▸ List.indexOf_lt_length.mpr ‹_›))
    · split
      · have hend : b.rpos + b.buffered = b.wpos := by
          have := h.rpos_le; simp only [buffered]; omega
        have e : ({ b with rpos := b.rpos + b.buffered } : Reader) = { b with rpos := b.wpos } := by
          rw [hend]
        exact e ▸ .single (.advance b (Nat.le_refl _))
      · dsimp only
        split
        · exact .single (.fill b)
        · exact .head (.fill b) (readSliceLoop_moves delim fuel (fill_wf h).1)

theorem readSlice_moves (h : b.WF) (delim : UInt8) : Moves b (b.readSlice delim).2 := by
  unfold readSlice
  split
  exacts [.refl, readSliceLoop_moves delim _ h]

theorem readBytesLoop_moves (delim : UInt8) :
    ∀ (fuel : Nat) (acc : List UInt8) {b : Reader}, b.WF →
      Moves b (after (readBytesLoop delim fuel acc b))
  | 0, _, _, _ => .refl
  | fuel + 1, acc, b, h => by
    have hs := readSlice_moves h delim
    unfold readBytesLoop
    dsimp only
    split
    · exact hs
    · exact hs.trans (readBytesLoop_moves delim fuel _ (hs.wf h))
    · exact hs

theorem readAtLeastLoop_moves (min : Nat) :
    ∀ (fuel : Nat) (acc : List UInt8) {b : Reader}, b.WF →
      Moves b (readAtLeastLoop min fuel acc b).2
  | 0, _, _, _ => .refl
  | fuel + 1, acc, b, h => by
    have hr := read_moves b (min - acc.length)
    unfold readAtLeastLoop
    split
    · exact .refl
    · dsimp only
      split
      · exact hr.trans (readAtLeastLoop_moves min fuel _ (hr.wf h))
      · exact hr

theorem readFull_moves (h : b.WF) (n : Nat) : Moves b (after (readFull n b)) := by
  have hr := readAtLeastLoop_moves n (n + b.rd.chunks.length + 1) [] h
  unfold readFull
  split
  · exact .refl
  · split
    · exact .refl
    · unfold ioReadFull
      dsimp only
      split <;> split <;> (try split) <;> exact hr

/-- **Every call is a sequence of moves.** -/
theorem call_moves (h : b.WF) : ∀ c : Call, Moves b (b.call c)
  | .read m => read_moves b m
  | .readByte => readByte_moves h
  | .peekByte => peekByte_moves
  | .readSlice delim => readSlice_moves h delim
  | .readBytes delim => readBytesLoop_moves delim _ [] h
  | .readFull n => readFull_moves h n

/-- **Every call keeps the invariant**, in every outcome. -/
theorem call_wf (h : b.WF) (c : Call) : (b.call c).WF := (call_moves h c).wf h

theorem run_wf : ∀ {b : Reader} (cs : List Call), b.WF → (b.run cs).WF
  | _, [], h => h
  | _, c :: cs, h => run_wf cs (call_wf h c)

/-! ### Where the code relies on it -/

theorem fill_room (h : b.WF) (hb : b.buffered < b.buf.length) :
    0 < b.compact.buf.length - b.compact.wpos := by
  obtain ⟨-, hw, hl, -⟩ := compact_eq h
  rw [hw, hl]; omega

theorem fillIfEmpty_cases (h : b.WF) :
    b.fillIfEmpty = b ∨ 0 < b.compact.buf.length - b.compact.wpos ∧ b.fillIfEmpty = b.fill := by
  unfold fillIfEmpty
  split
  · exact .inr ⟨fill_room h (by have := h.buf_pos; omega), rfl⟩
  · exact .inl rfl

/-- **One round of `ReadSlice`'s loop**, from a reader that keeps the
invariant: it returns the line through `delim`; or, with a full buffer,
returns `buf[rpos:wpos]`, which is all of `buf` with `rpos = 0` and `wpos =
len(buf)`, with `ErrBufferFull`; or fills a buffer with room, and goes on
from a reader that keeps the invariant. -/
theorem readSliceLoop_cases {delim : UInt8} (fuel : Nat) (h : b.WF) :
    (delim ∈ b.window ∧ readSliceLoop delim (fuel + 1) b =
      ((b.window.take (b.window.indexOf delim + 1), none),
        { b with rpos := b.rpos + b.window.indexOf delim + 1 })) ∨
    (delim ∉ b.window ∧ b.rpos = 0 ∧ b.wpos = b.buf.length ∧ b.window = b.buf ∧
      readSliceLoop delim (fuel + 1) b = ((b.window, some .bufferFull), { b with rpos := b.wpos })) ∨
    (delim ∉ b.window ∧ 0 < b.compact.buf.length - b.compact.wpos ∧ b.fill.WF ∧
      (∀ e, b.fill.err = some e → readSliceLoop delim (fuel + 1) b = (([], some e), b.fill)) ∧
      (b.fill.err = none → readSliceLoop delim (fuel + 1) b = readSliceLoop delim fuel b.fill)) := by
  have := h.rpos_le
  have := h.wpos_le
  by_cases hm : delim ∈ b.window
  · exact .inl ⟨hm, by simp only [readSliceLoop, hm, ↓reduceIte]⟩
  · by_cases hfull : b.buffered = b.buf.length
    · have h0 : b.rpos = 0 := by simp only [buffered] at hfull; omega
      have hwin : b.window = b.buf := by
        rw [window_rpos_zero h0, List.take_of_length_le (by simp only [buffered] at hfull; omega)]
      refine .inr (.inl ⟨hm, h0, by simp only [buffered] at hfull; omega, hwin, ?_⟩)
      simp only [readSliceLoop, hm, hfull, ↓reduceIte]
      rw [hwin]
    · refine .inr (.inr ⟨hm, fill_room h (by simp only [buffered] at hfull ⊢; omega),
        (fill_wf h).1, fun e he => ?_, fun he => ?_⟩) <;>
        simp only [readSliceLoop, hm, hfull, ↓reduceIte, he]

theorem fillIfEmpty_index (h : b.WF) (he : b.err = none) (hc : b.fillIfEmpty.err = none) :
    b.fillIfEmpty.rpos < b.fillIfEmpty.wpos ∧
      b.fillIfEmpty.buf[b.fillIfEmpty.rpos]? = some (b.fillIfEmpty.buf.getD b.fillIfEmpty.rpos 0) := by
  obtain ⟨hw, -, hp, -⟩ := fillIfEmpty_ok h he hc
  have hlt : b.fillIfEmpty.rpos < b.fillIfEmpty.wpos := by simp only [buffered] at hp; omega
  refine ⟨hlt, ?_⟩
  rw [List.getD_eq_getElem?_getD, List.getElem?_eq_getElem (by have := hw.wpos_le; omega),
    Option.getD_some]

/-- `ReadByte` reads `buf[rpos]` only with `rpos < wpos`: the byte it
returns is that one, and it advances `rpos` past it. -/
theorem readByte_index {x : UInt8} {b' : Reader} (h : b.WF) (hr : b.readByte = .ok x b') :
    b.fillIfEmpty.rpos < b.fillIfEmpty.wpos ∧ b.fillIfEmpty.buf[b.fillIfEmpty.rpos]? = some x ∧
      b' = { b.fillIfEmpty with rpos := b.fillIfEmpty.rpos + 1 } := by
  unfold readByte at hr
  split at hr
  · cases hr
  · rename_i he
    dsimp only at hr
    split at hr
    · cases hr
    · rename_i hc
      cases hr
      obtain ⟨hlt, hx⟩ := fillIfEmpty_index h he hc
      exact ⟨hlt, hx, rfl⟩

/-- `PeekByte` reads `buf[rpos]` only with `rpos < wpos`, and moves nothing. -/
theorem peekByte_index {x : UInt8} {b' : Reader} (h : b.WF) (hr : b.peekByte = .ok x b') :
    b.fillIfEmpty.rpos < b.fillIfEmpty.wpos ∧ b.fillIfEmpty.buf[b.fillIfEmpty.rpos]? = some x ∧
      b' = b.fillIfEmpty := by
  unfold peekByte at hr
  split at hr
  · cases hr
  · rename_i he
    dsimp only at hr
    split at hr
    · cases hr
    · rename_i hc
      cases hr
      obtain ⟨hlt, hx⟩ := fillIfEmpty_index h he hc
      exact ⟨hlt, hx, rfl⟩

/-! ### The sticky error -/

theorem readBytesLoop_of_err {delim : UInt8} {e : Err} (he : b.err = some e) :
    ∀ (fuel : Nat) (acc : List UInt8), after (readBytesLoop delim fuel acc b) = b
  | 0, _ => rfl
  | fuel + 1, acc => by
    have hs : b.readSlice delim = (([], some e), b) := by simp [readSlice, he]
    simp only [readBytesLoop, hs]
    by_cases hfull : e = .bufferFull
    · subst hfull
      exact readBytesLoop_of_err he fuel _
    · split
      · rfl
      · rename_i hbf; simp only [Option.some.injEq] at hbf; exact absurd hbf hfull
      · rfl

/-- **Once the error is set, a call changes nothing.** -/
theorem call_of_err {e : Err} (he : b.err = some e) : ∀ c : Call, b.call c = b
  | .read m => by simp [call, read, he]
  | .readByte => by simp [call, readByte, he, after]
  | .peekByte => by simp [call, peekByte, he, after]
  | .readSlice delim => by simp [call, readSlice, he]
  | .readBytes delim => readBytesLoop_of_err he _ _
  | .readFull n => by simp [call, readFull, he, after]

theorem run_of_err {e : Err} (he : b.err = some e) : ∀ cs : List Call, b.run cs = b
  | [] => rfl
  | c :: cs => by rw [run, call_of_err he c, run_of_err he cs]

/-- **The reader's representation invariant.** From `NewReaderSize` over any
source, after any sequence of calls: `0 ≤ rpos ≤ wpos ≤ len(buf)`. From any
reader that keeps it: `fill` is called only with room at `wpos` after its
compaction; `ReadSlice`'s `ErrBufferFull` branch runs with `rpos = 0` and
`wpos = len(buf)` and returns `buf[rpos:wpos]`, and the loop fills only
readers that keep the invariant; `ReadByte` and `PeekByte` index `buf[rpos]`
only with `rpos < wpos`. Once the error is set, no call changes the reader
again. -/
theorem reader_invariant (rd : Source) (size : Int) (cs : List Call) :
    ((newReaderSize rd size).run cs).WF ∧
    (∀ b : Reader, b.WF →
      (b.fillIfEmpty = b ∨
        0 < b.compact.buf.length - b.compact.wpos ∧ b.fillIfEmpty = b.fill) ∧
      (∀ (delim : UInt8) (fuel : Nat),
        (delim ∈ b.window ∧ readSliceLoop delim (fuel + 1) b =
          ((b.window.take (b.window.indexOf delim + 1), none),
            { b with rpos := b.rpos + b.window.indexOf delim + 1 })) ∨
        (delim ∉ b.window ∧ b.rpos = 0 ∧ b.wpos = b.buf.length ∧ b.window = b.buf ∧
          readSliceLoop delim (fuel + 1) b =
            ((b.window, some .bufferFull), { b with rpos := b.wpos })) ∨
        (delim ∉ b.window ∧ 0 < b.compact.buf.length - b.compact.wpos ∧ b.fill.WF ∧
          (∀ e, b.fill.err = some e →
            readSliceLoop delim (fuel + 1) b = (([], some e), b.fill)) ∧
          (b.fill.err = none →
            readSliceLoop delim (fuel + 1) b = readSliceLoop delim fuel b.fill))) ∧
      (∀ x b', b.readByte = .ok x b' →
        b.fillIfEmpty.rpos < b.fillIfEmpty.wpos ∧ b.fillIfEmpty.buf[b.fillIfEmpty.rpos]? = some x) ∧
      (∀ x b', b.peekByte = .ok x b' →
        b.fillIfEmpty.rpos < b.fillIfEmpty.wpos ∧
          b.fillIfEmpty.buf[b.fillIfEmpty.rpos]? = some x)) ∧
    (∀ (b : Reader) (e : Err), b.err = some e → ∀ cs' : List Call, b.run cs' = b) :=
  ⟨run_wf cs (newReaderSize_wf rd size),
    fun _ h => ⟨fillIfEmpty_cases h, fun _ fuel => readSliceLoop_cases fuel h,
      fun _ _ hr => (readByte_index h hr).imp_right And.left,
      fun _ _ hr => (peekByte_index h hr).imp_right And.left⟩,
    fun _ _ he => run_of_err he⟩

end Reader

end Bufio2
end Codis
