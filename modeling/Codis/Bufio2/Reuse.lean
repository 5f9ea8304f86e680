/-
# A reused buffer hands out nothing stale

`NewReaderBuffer` and `NewWriterBuffer` take their buffer from the caller,
who may have used it before, where the other constructors make a fresh one.

The writer only ever sends `buf[0:wpos]`, bytes it copied in itself, and
never reads the bytes past `wpos`: two writers that differ only there
(`Writer.Same`) stay so through every method, and every call returns the
same on both. So a writer over a reused buffer hands its sink exactly what a
fresh writer of the same size does, and returns the same counts and errors
(`writer_reuse`).

The reader likewise reads only `buf[0:wpos]`, bytes the source put there:
`ReadByte` and `PeekByte` read `buf[rpos]` with `rpos < wpos`, `ReadSlice`
returns the whole buffer only when it is full, and `fill` moves the window to
the front and lands each `Read` at `wpos`. Two readers that differ only past
`wpos` (`Reader.Same`) stay so, over every source, and every call returns the
same bytes and error on both (`reader_reuse`).

Key definitions: `Writer.Same`, `Reader.Same`, `Reader.returns`.
Key theorems: `Same.writeLoop`, `Writer.Same.run`, `writer_reuse`,
`Reader.Same.fill`, `Reader.Same.run`, `reader_reuse`.
-/
import Codis.Bufio2.WriterSpec
import Codis.Bufio2.Refinement

namespace Codis
namespace Bufio2
namespace Writer

variable {b b₁ b₂ : Writer} {p : List UInt8}

/-- Two writers that differ at most in the bytes of their buffers past
`wpos`. -/
structure Same (b₁ b₂ : Writer) : Prop where
  err : b₁.err = b₂.err
  wr : b₁.wr = b₂.wr
  wpos : b₁.wpos = b₂.wpos
  len : b₁.buf.length = b₂.buf.length
  pending : b₁.buf.take b₁.wpos = b₂.buf.take b₂.wpos

theorem Same.available (h : Same b₁ b₂) : b₁.available = b₂.available := by
  simp only [Writer.available, h.len, h.wpos]

/-! ### One method at a time -/

theorem put_length (hw : b.wpos ≤ b.buf.length) : (b.put p).2.buf.length = b.buf.length := by
  simp [put, available]; omega

theorem put_pending (hw : b.wpos ≤ b.buf.length) :
    (b.put p).2.buf.take (b.put p).2.wpos = b.buf.take b.wpos ++ p.take (b.put p).1 := by
  have hpre : (b.buf.take b.wpos ++ p.take (min b.available p.length)).length =
      b.wpos + min b.available p.length := by simp; omega
  simp only [put, List.append_assoc]
  rw [← List.append_assoc (List.take b.wpos b.buf), List.take_left' hpre]

theorem Same.put (h : Same b₁ b₂) (hw : b₁.wpos ≤ b₁.buf.length) :
    (b₁.put p).1 = (b₂.put p).1 ∧ Same (b₁.put p).2 (b₂.put p).2 := by
  have hw₂ : b₂.wpos ≤ b₂.buf.length := h.wpos ▸ h.len ▸ hw
  refine ⟨by simp [h.available], h.err, h.wr, by simp [h.wpos, h.available], ?_, ?_⟩
  · rw [put_length hw, put_length hw₂, h.len]
  · rw [put_pending hw, put_pending hw₂, h.pending, put_fst, put_fst, h.available]

/-- `flush` sends `buf[0:wpos]`, the same on both. -/
theorem Same.flush (h : Same b₁ b₂) : Same b₁.flush b₂.flush := by
  obtain ⟨err, buf₁, wr, wpos⟩ := b₁
  obtain ⟨err₂, buf₂, wr₂, wpos₂⟩ := b₂
  obtain ⟨rfl, rfl, rfl, hl, hp⟩ := h
  unfold Writer.flush
  dsimp only at hl hp ⊢
  rw [hp]
  cases err with
  | some _ => exact ⟨rfl, rfl, rfl, hl, hp⟩
  | none =>
    dsimp only
    generalize wr.write (buf₂.take wpos) = r
    obtain ⟨⟨n, e⟩, s⟩ := r
    cases e <;> dsimp only <;> split_ifs <;> exact ⟨rfl, rfl, rfl, hl, by simp [hp]⟩

theorem Same.setSink (h : Same b₁ b₂) (wr : Sink) (e : Option Err) :
    Same { b₁ with wr := wr, err := e } { b₂ with wr := wr, err := e } :=
  ⟨rfl, rfl, h.wpos, h.len, h.pending⟩

theorem Same.writeLoop : ∀ (fuel nn : Nat) (p : List UInt8) {b₁ b₂ : Writer}, Same b₁ b₂ → b₁.WF →
    (writeLoop fuel nn p b₁).1 = (writeLoop fuel nn p b₂).1 ∧
      (writeLoop fuel nn p b₁).2.1 = (writeLoop fuel nn p b₂).2.1 ∧
      Same (writeLoop fuel nn p b₁).2.2 (writeLoop fuel nn p b₂).2.2
  | 0, _, _, _, _, h, _ => by
    simp only [Writer.writeLoop, true_and]; exact ⟨rfl, h.wr, h.wpos, h.len, h.pending⟩
  | fuel + 1, nn, p, b₁, b₂, h, hw => by
    have hc : (b₁.err = none ∧ b₁.available < p.length) ↔
        (b₂.err = none ∧ b₂.available < p.length) := by rw [h.err, h.available]
    unfold Writer.writeLoop
    by_cases hc₁ : b₁.err = none ∧ b₁.available < p.length
    · rw [if_pos hc₁, if_pos (hc.1 hc₁)]
      by_cases hz : b₁.wpos = 0
      · rw [if_pos hz, if_pos (h.wpos ▸ hz), ← h.wr]
        exact Same.writeLoop fuel _ _ (h.setSink _ _) ⟨hw.wpos_le, hw.buf_pos⟩
      · rw [if_neg hz, if_neg (h.wpos ▸ hz)]
        obtain ⟨h1, h2⟩ := h.put (p := p) hw.wpos_le
        dsimp only
        rw [← h1]
        exact Same.writeLoop fuel _ _ h2.flush (flush_passes (put_passes hw).wf).1.wf
    · rw [if_neg hc₁, if_neg (mt hc.2 hc₁)]
      exact ⟨rfl, rfl, h⟩

theorem Same.writeStringLoop : ∀ (fuel nn : Nat) (s : List UInt8) {b₁ b₂ : Writer}, Same b₁ b₂ →
    b₁.WF → (writeStringLoop fuel nn s b₁).1 = (writeStringLoop fuel nn s b₂).1 ∧
      (writeStringLoop fuel nn s b₁).2.1 = (writeStringLoop fuel nn s b₂).2.1 ∧
      Same (writeStringLoop fuel nn s b₁).2.2 (writeStringLoop fuel nn s b₂).2.2
  | 0, _, _, _, _, h, _ => by
    simp only [Writer.writeStringLoop, true_and]; exact ⟨rfl, h.wr, h.wpos, h.len, h.pending⟩
  | fuel + 1, nn, s, b₁, b₂, h, hw => by
    have hc : (b₁.err = none ∧ b₁.available < s.length) ↔
        (b₂.err = none ∧ b₂.available < s.length) := by rw [h.err, h.available]
    unfold Writer.writeStringLoop
    by_cases hc₁ : b₁.err = none ∧ b₁.available < s.length
    · rw [if_pos hc₁, if_pos (hc.1 hc₁)]
      obtain ⟨h1, h2⟩ := h.put (p := s) hw.wpos_le
      dsimp only
      rw [← h1]
      exact Same.writeStringLoop fuel _ _ h2.flush (flush_passes (put_passes hw).wf).1.wf
    · rw [if_neg hc₁, if_neg (mt hc.2 hc₁)]
      exact ⟨rfl, rfl, h⟩

theorem Same.finish (h : Same b₁ b₂) (hw : b₁.WF) (nn : Nat) (p : List UInt8) :
    (finish nn p b₁).1 = (finish nn p b₂).1 ∧ Same (finish nn p b₁).2 (finish nn p b₂).2 := by
  unfold Writer.finish
  rw [← h.err]
  split_ifs
  · exact ⟨rfl, h⟩
  · obtain ⟨h1, h2⟩ := h.put (p := p) hw.wpos_le
    exact ⟨by rw [h1], h2⟩

theorem Same.write (h : Same b₁ b₂) (hw : b₁.WF) (p : List UInt8) :
    (b₁.write p).1 = (b₂.write p).1 ∧ Same (b₁.write p).2 (b₂.write p).2 := by
  obtain ⟨k, -, hk, -⟩ := writeLoop_post (b₁.wr.answers.length + 3) 0 p b₁ hw
  obtain ⟨h1, h2, h3⟩ := h.writeLoop (b₁.wr.answers.length + 3) 0 p hw
  unfold Writer.write
  dsimp only
  rw [← h.wr, ← h1, ← h2]
  exact h3.finish hk.wf _ _

theorem Same.writeString (h : Same b₁ b₂) (hw : b₁.WF) (s : List UInt8) :
    (b₁.writeString s).1 = (b₂.writeString s).1 ∧
      Same (b₁.writeString s).2 (b₂.writeString s).2 := by
  obtain ⟨k, -, hk, -⟩ := writeStringLoop_post (s.length + 2) 0 s b₁ hw
  obtain ⟨h1, h2, h3⟩ := h.writeStringLoop (s.length + 2) 0 s hw
  unfold Writer.writeString
  dsimp only
  rw [← h1, ← h2]
  exact h3.finish hk.wf _ _

theorem Same.setByte (h : Same b₁ b₂) (hlt : b₁.wpos < b₁.buf.length) (c : UInt8) (e : Option Err) :
    Same ⟨e, b₁.buf.set b₁.wpos c, b₁.wr, b₁.wpos + 1⟩ ⟨e, b₂.buf.set b₂.wpos c, b₂.wr, b₂.wpos + 1⟩ := by
  refine ⟨rfl, h.wr, by simp [h.wpos], by simp [h.len], ?_⟩
  rw [take_succ_set hlt, take_succ_set (h.wpos ▸ h.len ▸ hlt), h.pending]

theorem Same.writeByte (h : Same b₁ b₂) (hw : b₁.WF) (c : UInt8) :
    (b₁.writeByte c).1 = (b₂.writeByte c).1 ∧ Same (b₁.writeByte c).2 (b₂.writeByte c).2 := by
  unfold Writer.writeByte
  rw [← h.err]
  cases he : b₁.err with
  | some _ => exact ⟨rfl, h⟩
  | none =>
    dsimp only
    by_cases ha : b₁.available = 0
    · rw [if_pos ha, if_pos (h.available ▸ ha)]
      have hs := h.flush
      rw [← hs.err]
      cases hf : b₁.flush.err with
      | some _ => exact ⟨rfl, hs⟩
      | none =>
        have hw0 := (flush_passes hw).2 hf
        have hpos := (flush_passes hw).1.wf.buf_pos
        exact ⟨rfl, hs.setByte (by omega) c none⟩
    · rw [if_neg ha, if_neg (h.available ▸ ha), ← h.err, he]
      have hlt : b₁.wpos < b₁.buf.length := by simp [Writer.available] at ha; omega
      exact ⟨rfl, h.setByte hlt c none⟩

/-- **Every call returns the same on writers that differ only past `wpos`,
and leaves them so.** -/
theorem Same.call (h : Same b₁ b₂) (hw : b₁.WF) (c : Call) :
    (b₁.call c).1 = (b₂.call c).1 ∧ Same (b₁.call c).2 (b₂.call c).2 := by
  cases c with
  | write p => exact ⟨by simp only [Writer.call, (h.write hw p).1], (h.write hw p).2⟩
  | writeString s =>
    exact ⟨by simp only [Writer.call, (h.writeString hw s).1], (h.writeString hw s).2⟩
  | writeByte c => exact h.writeByte hw c
  | flush => exact ⟨h.flush.err, h.flush⟩

theorem Same.run : ∀ (calls : List Call) {b₁ b₂ : Writer}, Same b₁ b₂ → b₁.WF →
    Same (b₁.run calls) (b₂.run calls)
  | [], _, _, h, _ => h
  | c :: cs, _, _, h, hw => Same.run cs (h.call hw c).2 (call_passes hw c).1.wf

/-! ### `NewWriterBuffer` -/

theorem newWriterBuffer_wf (wr : Sink) (buf : List UInt8) : (newWriterBuffer wr buf).WF := by
  refine ⟨Nat.zero_le _, ?_⟩
  unfold newWriterBuffer
  split_ifs with h0
  · rw [List.length_replicate]; decide
  · exact Nat.pos_of_ne_zero h0

theorem newWriterBuffer_same (wr : Sink) (buf : List UInt8) :
    Same (newWriterBuffer wr buf) (newWriterSize wr buf.length) := by
  refine ⟨rfl, rfl, rfl, ?_, by simp [newWriterBuffer, newWriterSize]⟩
  by_cases h0 : buf.length = 0
  · simp [newWriterBuffer, newWriterSize, h0]
  · simp only [newWriterBuffer, newWriterSize, h0, ↓reduceIte, List.length_replicate]
    rw [if_neg (by omega)]
    rfl

/-- **A writer over a reused buffer behaves as a fresh one.** Whatever the
buffer handed to `NewWriterBuffer` holds, after any sequence of calls the
sink has taken the same bytes (and has the same answers left) as under a
writer made by `NewWriterSize` with a buffer of the same length, the writers
have the same error, and the next call returns the same error, and the same
count from `Write` and `WriteString`, on both. -/
theorem writer_reuse (sink : Sink) (buf : List UInt8) (calls : List Call) :
    ((newWriterBuffer sink buf).run calls).wr = ((newWriterSize sink buf.length).run calls).wr ∧
      ((newWriterBuffer sink buf).run calls).err = ((newWriterSize sink buf.length).run calls).err ∧
      (∀ c, (((newWriterBuffer sink buf).run calls).call c).1 =
        (((newWriterSize sink buf.length).run calls).call c).1) ∧
      (∀ p, (((newWriterBuffer sink buf).run calls).write p).1 =
        (((newWriterSize sink buf.length).run calls).write p).1) ∧
      ∀ s, (((newWriterBuffer sink buf).run calls).writeString s).1 =
        (((newWriterSize sink buf.length).run calls).writeString s).1 := by
  have h := (newWriterBuffer_same sink buf).run calls (newWriterBuffer_wf sink buf)
  have hw := (run_passes calls (newWriterBuffer_wf sink buf)).wf
  exact ⟨h.wr, h.err, fun c => (h.call hw c).1, fun p => (h.write hw p).1,
    fun s => (h.writeString hw s).1⟩

end Writer

/-! ### The reader -/

namespace Reader

/-- Two readers that differ at most in the bytes of their buffers past
`wpos`. -/
structure Same (b₁ b₂ : Reader) : Prop where
  err : b₁.err = b₂.err
  rd : b₁.rd = b₂.rd
  rpos : b₁.rpos = b₂.rpos
  wpos : b₁.wpos = b₂.wpos
  len : b₁.buf.length = b₂.buf.length
  filled : b₁.buf.take b₁.wpos = b₂.buf.take b₂.wpos

variable {b₁ b₂ : Reader}

theorem Same.symm (h : Same b₁ b₂) : Same b₂ b₁ :=
  ⟨h.err.symm, h.rd.symm, h.rpos.symm, h.wpos.symm, h.len.symm, h.filled.symm⟩

theorem Same.wf (h : Same b₁ b₂) (hw : b₁.WF) : b₂.WF :=
  ⟨h.rpos ▸ h.wpos ▸ hw.rpos_le, h.wpos ▸ h.len ▸ hw.wpos_le, h.len ▸ hw.buf_pos⟩

theorem Same.buffered (h : Same b₁ b₂) : b₁.buffered = b₂.buffered := by
  simp only [Reader.buffered, h.rpos, h.wpos]

theorem Same.window (h : Same b₁ b₂) : b₁.window = b₂.window := by
  simp only [Reader.window, Reader.buffered, ← List.drop_take, h.filled, h.rpos]

theorem Same.unread (h : Same b₁ b₂) : b₁.unread = b₂.unread := by
  rw [unread_eq, unread_eq, h.window, h.rd]

theorem Same.cursor (h : Same b₁ b₂) : b₁.cursor = b₂.cursor := by
  simp only [Reader.cursor, h.err, h.unread]

theorem Same.getD (h : Same b₁ b₂) (hlt : b₁.rpos < b₁.wpos) :
    b₁.buf.getD b₁.rpos 0 = b₂.buf.getD b₂.rpos 0 := by
  have hlt₂ : b₂.rpos < b₂.wpos := by rw [← h.rpos, ← h.wpos]; exact hlt
  rw [List.getD_eq_getElem?_getD, List.getD_eq_getElem?_getD, ← List.getElem?_take_of_lt hlt,
    ← List.getElem?_take_of_lt hlt₂, h.filled, h.rpos]

theorem Same.setRpos (h : Same b₁ b₂) {r₁ r₂ : Nat} (hr : r₁ = r₂) :
    Same { b₁ with rpos := r₁ } { b₂ with rpos := r₂ } :=
  ⟨h.err, h.rd, hr, h.wpos, h.len, h.filled⟩

theorem Same.compact (h : Same b₁ b₂) (hw : b₁.WF) : Same b₁.compact b₂.compact := by
  obtain ⟨r₁, w₁, l₁, win₁, rd₁, e₁⟩ := compact_eq hw
  obtain ⟨r₂, w₂, l₂, win₂, rd₂, e₂⟩ := compact_eq (h.wf hw)
  refine ⟨by rw [e₁, e₂, h.err], by rw [rd₁, rd₂, h.rd], by rw [r₁, r₂], by rw [w₁, w₂, h.buffered],
    by rw [l₁, l₂, h.len], ?_⟩
  rw [← window_rpos_zero r₁, ← window_rpos_zero r₂, win₁, win₂, h.window]

theorem land_take_wpos (b : Reader) (hw : b.wpos ≤ b.buf.length) (d : List UInt8) :
    (b.land d).take b.wpos = b.buf.take b.wpos := by
  rw [land, List.append_assoc, List.take_left' (by simp; omega)]

theorem Same.land (h : Same b₁ b₂) (hw : b₁.WF) {d : List UInt8} (hd : b₁.wpos + d.length ≤ b₁.buf.length) :
    (b₁.land d).length = (b₂.land d).length ∧ (b₁.land d).take b₁.wpos = (b₂.land d).take b₂.wpos ∧
      (b₁.land d).take (b₁.wpos + d.length) = (b₂.land d).take (b₂.wpos + d.length) := by
  have hw₂ := h.wf hw
  refine ⟨?_, ?_, ?_⟩
  · rw [land_length hd, land_length (by rw [← h.wpos, ← h.len]; exact hd), h.len]
  · rw [land_take_wpos _ hw.wpos_le, land_take_wpos _ hw₂.wpos_le, h.filled]
  · rw [land_take hw.wpos_le, land_take hw₂.wpos_le, h.filled]

/-- **`fill` keeps them the same**: it compacts, then lands the same `Read`
at the same `wpos`. -/
theorem Same.fill (h : Same b₁ b₂) (hw : b₁.WF) : Same b₁.fill b₂.fill := by
  have hc := h.compact hw
  have hcw : b₁.compact.WF := by
    obtain ⟨r, w, l, -⟩ := compact_eq hw
    refine ⟨by omega, ?_, l ▸ hw.buf_pos⟩
    rw [w, l]; unfold Reader.buffered; have := hw.wpos_le; omega
  have hr : b₂.compact.rd.read (b₂.compact.buf.length - b₂.compact.wpos) =
      b₁.compact.rd.read (b₁.compact.buf.length - b₁.compact.wpos) := by rw [hc.rd, hc.len, hc.wpos]
  have hlen := Source.read_length_le b₁.compact.rd (b₁.compact.buf.length - b₁.compact.wpos)
  obtain ⟨hl, hp, hn⟩ := hc.land hcw (d := (b₁.compact.rd.read (b₁.compact.buf.length - b₁.compact.wpos)).1.1)
    (by have := hcw.wpos_le; omega)
  unfold Reader.fill
  rw [← h.err]
  cases b₁.err with
  | some _ => exact h
  | none =>
    dsimp only
    rw [hr]
    cases (b₁.compact.rd.read (b₁.compact.buf.length - b₁.compact.wpos)).1.2 with
    | some e => exact ⟨rfl, rfl, hc.rpos, hc.wpos, hl, hp⟩
    | none =>
      dsimp only
      split_ifs
      · exact ⟨rfl, rfl, hc.rpos, hc.wpos, hl, hp⟩
      · exact ⟨hc.err, rfl, hc.rpos, by rw [hc.wpos], hl, hn⟩

theorem Same.fillIfEmpty (h : Same b₁ b₂) (hw : b₁.WF) : Same b₁.fillIfEmpty b₂.fillIfEmpty := by
  unfold Reader.fillIfEmpty
  by_cases hb : b₁.buffered = 0
  · rw [if_pos hb, if_pos (h.buffered ▸ hb)]; exact h.fill hw
  · rw [if_neg hb, if_neg (h.buffered ▸ hb)]; exact h

theorem Same.read (h : Same b₁ b₂) (hw : b₁.WF) (m : Nat) :
    (b₁.read m).1 = (b₂.read m).1 ∧ Same (b₁.read m).2 (b₂.read m).2 := by
  have hf := h.fillIfEmpty hw
  unfold Reader.read
  rw [← h.err]
  cases b₁.err with
  | some _ => exact ⟨rfl, h⟩
  | none =>
    dsimp only
    by_cases hm : m = 0
    · rw [if_pos hm, if_pos hm]; exact ⟨rfl, h⟩
    rw [if_neg hm, if_neg hm]
    by_cases hd : b₁.buffered = 0 ∧ b₁.buf.length ≤ m
    · rw [if_pos hd, if_pos (by rwa [← h.buffered, ← h.len]), ← h.rd]
      exact ⟨rfl, ⟨rfl, rfl, h.rpos, h.wpos, h.len, h.filled⟩⟩
    · rw [if_neg hd, if_neg (by rwa [← h.buffered, ← h.len]), ← hf.err]
      cases b₁.fillIfEmpty.err with
      | some _ => exact ⟨rfl, hf⟩
      | none =>
        dsimp only
        exact ⟨by rw [hf.window], ⟨rfl, hf.rd, by rw [hf.rpos, hf.buffered], hf.wpos, hf.len, hf.filled⟩⟩

/-- The outcomes of a method on two readers: the same value, or the same
error, and readers that are the same. -/
inductive SameOut {α : Type} : EStateM.Result Err Reader α → EStateM.Result Err Reader α → Prop
  | ok {a₁ a₂ : α} {b₁ b₂ : Reader} : a₁ = a₂ → Same b₁ b₂ → SameOut (.ok a₁ b₁) (.ok a₂ b₂)
  | error {e₁ e₂ : Err} {b₁ b₂ : Reader} : e₁ = e₂ → Same b₁ b₂ → SameOut (.error e₁ b₁) (.error e₂ b₂)

/-- What a method that returns a zero value with its error returns. -/
def returned {α : Type} (f : α → List UInt8) : EStateM.Result Err Reader α → List UInt8 × Option Err
  | .ok a _ => (f a, none)
  | .error e _ => ([], some e)

/-- What a call returns to its caller, as the source returns it: the bytes
(the byte of `ReadByte` and `PeekByte`) and the error. -/
def returns (b : Reader) : Call → List UInt8 × Option Err
  | .read m => (b.read m).1
  | .readByte => returned (fun x => [x]) (readByte b)
  | .peekByte => returned (fun x => [x]) (peekByte b)
  | .readSlice delim => (b.readSlice delim).1
  | .readBytes delim => returned id (readBytes delim b)
  | .readFull n => returned id (readFull n b)

theorem SameOut.both {α : Type} {r₁ r₂ : EStateM.Result Err Reader α} (h : SameOut r₁ r₂)
    (f : α → List UInt8) : returned f r₁ = returned f r₂ ∧ Same (after r₁) (after r₂) := by
  cases h with
  | ok ha hs => subst ha; exact ⟨rfl, hs⟩
  | error he hs => subst he; exact ⟨rfl, hs⟩

theorem Same.readByte (h : Same b₁ b₂) (hw : b₁.WF) : SameOut (readByte b₁) (readByte b₂) := by
  have hf := h.fillIfEmpty hw
  unfold Reader.readByte
  rw [← h.err]
  cases he : b₁.err with
  | some _ => exact .error rfl h
  | none =>
    dsimp only
    rw [← hf.err]
    cases hc : b₁.fillIfEmpty.err with
    | some _ => exact .error rfl hf
    | none =>
      exact .ok (hf.getD (fillIfEmpty_index hw he hc).1) ⟨rfl, hf.rd, by rw [hf.rpos], hf.wpos, hf.len, hf.filled⟩

theorem Same.peekByte (h : Same b₁ b₂) (hw : b₁.WF) : SameOut (peekByte b₁) (peekByte b₂) := by
  have hf := h.fillIfEmpty hw
  unfold Reader.peekByte
  rw [← h.err]
  cases he : b₁.err with
  | some _ => exact .error rfl h
  | none =>
    dsimp only
    rw [← hf.err]
    cases hc : b₁.fillIfEmpty.err with
    | some _ => exact .error rfl hf
    | none => exact .ok (hf.getD (fillIfEmpty_index hw he hc).1) hf

/-- **`ReadSlice`'s loop returns the same on both**: a line of the window,
the whole buffer only when it is full, or a `fill`. -/
theorem Same.readSliceLoop (delim : UInt8) : ∀ (fuel : Nat) {b₁ b₂ : Reader}, Same b₁ b₂ → b₁.WF →
    (readSliceLoop delim fuel b₁).1 = (readSliceLoop delim fuel b₂).1 ∧
      Same (readSliceLoop delim fuel b₁).2 (readSliceLoop delim fuel b₂).2
  | 0, _, _, h, _ => ⟨rfl, h⟩
  | fuel + 1, b₁, b₂, h, hw => by
    have hf := h.fill hw
    unfold Reader.readSliceLoop
    rw [← h.window, ← h.buffered, ← h.len]
    split_ifs with hm hfull
    · exact ⟨rfl, h.setRpos (by rw [h.rpos])⟩
    · have hfull' : b₁.buf.length ≤ b₁.wpos := by
        have := hw.rpos_le; unfold Reader.buffered at hfull; omega
      have hb : b₁.buf = b₂.buf := by
        rw [← List.take_of_length_le hfull', h.filled,
          List.take_of_length_le (by rw [← h.wpos, ← h.len]; exact hfull')]
      exact ⟨by rw [hb], h.setRpos h.wpos⟩
    · dsimp only
      rw [← hf.err]
      cases b₁.fill.err with
      | some _ => exact ⟨rfl, hf⟩
      | none => exact Same.readSliceLoop delim fuel hf (fill_wf hw).1

theorem Same.readSlice (h : Same b₁ b₂) (hw : b₁.WF) (delim : UInt8) :
    (b₁.readSlice delim).1 = (b₂.readSlice delim).1 ∧ Same (b₁.readSlice delim).2 (b₂.readSlice delim).2 := by
  unfold Reader.readSlice
  rw [← h.err, ← h.len]
  cases b₁.err with
  | some _ => exact ⟨rfl, h⟩
  | none => exact Same.readSliceLoop delim _ h hw

theorem Same.readBytesLoop (delim : UInt8) : ∀ (fuel : Nat) (acc : List UInt8) {b₁ b₂ : Reader},
    Same b₁ b₂ → b₁.WF → SameOut (readBytesLoop delim fuel acc b₁) (readBytesLoop delim fuel acc b₂)
  | 0, _, _, _, h, _ => .error rfl h
  | fuel + 1, acc, b₁, b₂, h, hw => by
    obtain ⟨h1, h2⟩ := h.readSlice hw delim
    unfold Reader.readBytesLoop
    dsimp only
    rw [← h1]
    cases (b₁.readSlice delim).1.2 with
    | none => exact .ok rfl h2
    | some e =>
      cases e
      case bufferFull => exact Same.readBytesLoop delim fuel _ h2 ((readSlice_moves hw delim).wf hw)
      all_goals exact .error (by rw [h2.err]) h2

theorem Same.readAtLeastLoop (min : Nat) : ∀ (fuel : Nat) (acc : List UInt8) {b₁ b₂ : Reader},
    Same b₁ b₂ → b₁.WF → (readAtLeastLoop min fuel acc b₁).1 = (readAtLeastLoop min fuel acc b₂).1 ∧
      Same (readAtLeastLoop min fuel acc b₁).2 (readAtLeastLoop min fuel acc b₂).2
  | 0, _, _, _, h, _ => ⟨rfl, h⟩
  | fuel + 1, acc, b₁, b₂, h, hw => by
    obtain ⟨h1, h2⟩ := h.read hw (min - acc.length)
    unfold Reader.readAtLeastLoop
    split_ifs
    · exact ⟨rfl, h⟩
    · dsimp only
      rw [← h1]
      cases (b₁.read (min - acc.length)).1.2 with
      | none => exact Same.readAtLeastLoop min fuel _ h2 ((read_moves b₁ _).wf hw)
      | some _ => exact ⟨rfl, h2⟩

theorem Same.ioReadFull (h : Same b₁ b₂) (hw : b₁.WF) (n : Nat) :
    (ioReadFull n b₁).1 = (ioReadFull n b₂).1 ∧ Same (ioReadFull n b₁).2 (ioReadFull n b₂).2 := by
  obtain ⟨h1, h2⟩ := Same.readAtLeastLoop n (n + b₁.rd.chunks.length + 1) [] h hw
  unfold Reader.ioReadFull
  dsimp only
  rw [← h.rd, ← h1]
  split_ifs <;> exact ⟨rfl, h2⟩

theorem Same.readFull (h : Same b₁ b₂) (hw : b₁.WF) (n : Nat) : SameOut (readFull n b₁) (readFull n b₂) := by
  obtain ⟨h1, h2⟩ := h.ioReadFull hw n
  unfold Reader.readFull
  rw [← h.err]
  cases b₁.err with
  | some _ => exact .error rfl h
  | none =>
    dsimp only
    split_ifs
    · exact .ok rfl h
    · rw [← h1]
      cases (Reader.ioReadFull n b₁).1.2 with
      | some _ => exact .error rfl h2
      | none => exact .ok rfl h2

/-- **Every call returns the same on readers that differ only past `wpos`,
and leaves them so.** -/
theorem Same.call (h : Same b₁ b₂) (hw : b₁.WF) (c : Call) :
    b₁.returns c = b₂.returns c ∧ Same (b₁.call c) (b₂.call c) := by
  cases c with
  | read m => exact h.read hw m
  | readByte => exact (h.readByte hw).both _
  | peekByte => exact (h.peekByte hw).both _
  | readSlice delim => exact h.readSlice hw delim
  | readBytes delim =>
    have := (Same.readBytesLoop delim (b₁.unread.length + 1) [] h hw).both id
    simp only [Reader.returns, Reader.call, Reader.readBytes]
    rw [← h.unread]
    exact this
  | readFull n => exact (h.readFull hw n).both _

theorem Same.run : ∀ (calls : List Call) {b₁ b₂ : Reader}, Same b₁ b₂ → b₁.WF →
    Same (b₁.run calls) (b₂.run calls)
  | [], _, _, h, _ => h
  | c :: cs, _, _, h, hw => Same.run cs (h.call hw c).2 (call_wf hw c)

/-! ### `NewReaderBuffer` -/

theorem newReaderBuffer_same (rd : Source) (buf : List UInt8) :
    Same (newReaderBuffer rd buf) (newReaderSize rd buf.length) := by
  refine ⟨rfl, rfl, rfl, rfl, ?_, by simp [newReaderBuffer, newReaderSize]⟩
  by_cases h0 : buf.length = 0
  · simp [newReaderBuffer, newReaderSize, h0]
  · simp only [newReaderBuffer, newReaderSize, h0, ↓reduceIte, List.length_replicate]
    rw [if_neg (by omega)]
    rfl

/-- **A reader over a reused buffer behaves as a fresh one.** Whatever the
buffer handed to `NewReaderBuffer` holds, over every source, after any
sequence of calls the reader is where a reader made by `NewReaderSize` with a
buffer of the same length is (the same error, the same bytes not yet handed
out, the source at the same place), and the next call of any method returns
the same bytes and the same error on both. -/
theorem reader_reuse (rd : Source) (buf : List UInt8) (calls : List Call) :
    ((newReaderBuffer rd buf).run calls).cursor = ((newReaderSize rd buf.length).run calls).cursor ∧
      ((newReaderBuffer rd buf).run calls).rd = ((newReaderSize rd buf.length).run calls).rd ∧
      ∀ c, ((newReaderBuffer rd buf).run calls).returns c =
        ((newReaderSize rd buf.length).run calls).returns c := by
  have hw := (newReaderBuffer_same rd buf).symm.wf (newReaderSize_wf rd _)
  have h := (newReaderBuffer_same rd buf).run calls hw
  exact ⟨h.cursor, h.rd, fun c => (h.call (run_wf calls hw) c).1⟩

end Reader
end Bufio2
end Codis
