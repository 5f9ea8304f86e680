/-
# The buffered reader against a plain cursor

What `Reader` delivers is read off `unread`: the window `buf[rpos:wpos]`
followed by what the source has still to deliver. Every successful call
returns a prefix of `unread` and leaves the rest (`readByte_ok`,
`readSlice_ok`, `readBytes_ok`, `readFull_ok`), whatever the source does:
a `fill` either fails or moves bytes from the source into the buffer
without changing `unread` (`fill_ok`).

On a live source (every `Read` returns bytes and no error until the stream
ends) the calls also succeed whenever the bytes they need are there
(`readByte_live`, `readSlice_live`, `readBytes_live`, `readFull_live`):
`ReadSlice` returns the line when it fits the buffer and the whole buffer
with `ErrBufferFull` when it does not, and `ReadBytes` returns the line
however long it is.

Key definitions: `Reader.WF`, `Reader.Live`.
Key theorems: `fill_ok`, `readSlice_ok`, `readBytes_ok`, `readFull_ok`,
`readSlice_live`, `readBytes_live`, `readFull_live`.
-/
import Codis.Bufio2.Reader

namespace Codis
namespace Bufio2

/-! ### Lists split at a delimiter -/

theorem take_indexOf_succ {d : UInt8} : ∀ {l : List UInt8}, d ∈ l →
    l.take (l.indexOf d + 1) = l.take (l.indexOf d) ++ [d] ∧ d ∉ l.take (l.indexOf d)
  | x :: l, h => by
    by_cases hx : x = d
    · subst hx; simp [List.indexOf_cons_self]
    · have hl : d ∈ l := by simpa [Ne.symm hx] using h
      obtain ⟨h1, h2⟩ := take_indexOf_succ hl
      simp [List.indexOf_cons_ne _ hx, h1, h2, Ne.symm hx]

/-- A line is determined by its first delimiter. -/
theorem split_unique {d : UInt8} : ∀ {pre pre' rest rest' : List UInt8}, d ∉ pre → d ∉ pre' →
    pre ++ d :: rest = pre' ++ d :: rest' → pre = pre' ∧ rest = rest'
  | [], [], _, _, _, _, h => by simpa using h
  | [], x :: _, _, _, _, h', h => by simp at h; simp [h.1] at h'
  | x :: _, [], _, _, h, _, h' => by simp at h'; simp [h'.1] at h
  | x :: pre, y :: pre', rest, rest', h, h', he => by
    simp only [List.cons_append, List.cons.injEq] at he
    have := @split_unique d pre pre' rest rest' (by simp_all) (by simp_all) he.2
    exact ⟨by rw [he.1, this.1], this.2⟩

theorem lt_length_of_mem {d : UInt8} {w s pre rest : List UInt8} (hw : d ∈ w) (hp : d ∉ pre)
    (h : w ++ s = pre ++ d :: rest) : pre.length < w.length := by
  by_contra hle
  have h1 := congrArg (List.take w.length) h
  rw [List.take_left' rfl, List.take_append_of_le_length (by omega)] at h1
  exact hp (List.mem_of_mem_take (h1 ▸ hw))

theorem length_le_of_not_mem {d : UInt8} {w s pre rest : List UInt8} (hw : d ∉ w)
    (h : w ++ s = pre ++ d :: rest) : w.length ≤ pre.length := by
  by_contra hlt
  have h1 := congrArg (List.take (pre.length + 1)) h
  rw [List.take_append_of_le_length (by omega)] at h1
  have : d ∈ w.take (pre.length + 1) := by rw [h1]; simp [List.take_append_eq_append_take]
  exact hw (List.mem_of_mem_take this)

/-! ### The source -/

namespace Source

variable {s : Source} {m : Nat}

theorem read_bytes (s : Source) (m : Nat) : (s.read m).1.1 ++ (s.read m).2.bytes = s.bytes := by
  unfold read bytes
  split
  · simp
  · rename_i heq
    split
    · simp only [heq, List.flatten_cons]; rw [← List.append_assoc, List.take_append_drop]
    · simp [heq]

theorem read_length_le (s : Source) (m : Nat) : (s.read m).1.1.length ≤ m := by
  unfold read
  split
  · simp
  · split
    · exact List.length_take_le _ _
    · exact Nat.le_of_not_lt ‹_›

/-- A source whose every `Read` returns bytes and no error until the stream
ends: no empty chunk, and a last chunk that does not carry the error. -/
structure Live (s : Source) : Prop where
  tail : s.tail = false
  chunks : ∀ c ∈ s.chunks, c ≠ []

/-- A live source with bytes left answers a non-empty read with bytes and no
error, and stays live. -/
theorem read_live (h : s.Live) (hm : 0 < m) (hs : s.bytes ≠ []) :
    (s.read m).1.2 = none ∧ (s.read m).1.1 ≠ [] ∧ (s.read m).2.Live := by
  obtain ⟨ht, hc⟩ := h
  unfold read
  split
  · rename_i heq; simp [bytes, heq] at hs
  · rename_i c cs heq
    have hne : c ≠ [] := hc c (by simp [heq])
    have hcs : ∀ x ∈ cs, x ≠ [] := fun x hx => hc x (by simp [heq, hx])
    split
    · refine ⟨rfl, by simpa using ⟨by omega, hne⟩, ht, ?_⟩
      simp only [List.mem_cons]
      rintro x (rfl | hx)
      · simpa using (by omega : m < c.length)
      · exact hcs x hx
    · exact ⟨by simp [ht], hne, ht, hcs⟩

end Source

namespace Reader

/-! ### The representation invariant -/

/-- The cursors are in range and the buffer is not empty. -/
structure WF (b : Reader) : Prop where
  rpos_le : b.rpos ≤ b.wpos
  wpos_le : b.wpos ≤ b.buf.length
  buf_pos : 0 < b.buf.length

variable {b b' c : Reader}

theorem window_length (h : b.WF) : b.window.length = b.buffered := by
  simp [window, buffered]; have := h.rpos_le; have := h.wpos_le; omega

theorem unread_eq (b : Reader) : b.unread = b.window ++ b.rd.bytes := rfl

theorem window_rpos_zero (h : b.rpos = 0) : b.window = b.buf.take b.wpos := by
  simp [window, buffered, h]

theorem compact_eq (h : b.WF) :
    b.compact.rpos = 0 ∧ b.compact.wpos = b.buffered ∧ b.compact.buf.length = b.buf.length ∧
      b.compact.window = b.window ∧ b.compact.rd = b.rd ∧ b.compact.err = b.err := by
  have hl := window_length h
  unfold compact
  split
  · refine ⟨rfl, rfl, ?_, ?_, rfl, rfl⟩
    · simp [hl, buffered]; have := h.wpos_le; omega
    · show ((b.window ++ b.buf.drop b.buffered).drop 0).take (b.buffered - 0) = b.window
      rw [List.drop_zero, Nat.sub_zero, List.take_left' hl]
  · have h0 : b.rpos = 0 := by omega
    exact ⟨h0, by simp [buffered, h0], rfl, rfl, rfl, rfl⟩

theorem window_advance (k : Nat) :
    ({ b with rpos := b.rpos + k } : Reader).window = b.window.drop k := by
  simp only [window, buffered, List.drop_take, List.drop_drop]
  congr 1
  omega

theorem unread_advance (h : b.WF) {k : Nat} (hk : k ≤ b.buffered) :
    b.unread = b.window.take k ++ ({ b with rpos := b.rpos + k } : Reader).unread ∧
      ({ b with rpos := b.rpos + k } : Reader).WF := by
  have := h.rpos_le
  refine ⟨?_, ⟨by simp only [buffered] at hk; simp only; omega, h.wpos_le, h.buf_pos⟩⟩
  rw [unread_eq, unread_eq, window_advance, ← List.append_assoc, List.take_append_drop]

theorem land_length {d : List UInt8} (h : b.wpos + d.length ≤ b.buf.length) :
    (b.land d).length = b.buf.length := by
  simp [land]; omega

theorem land_take {d : List UInt8} (h : b.wpos ≤ b.buf.length) :
    (b.land d).take (b.wpos + d.length) = b.buf.take b.wpos ++ d := by
  rw [land, List.take_left' (by simp; omega)]

/-- **A successful `fill`** keeps the invariant and `unread`, starts the
window at 0, and adds at least one byte to it. -/
theorem fill_ok (h : b.WF) (he : b.err = none) (hf : b.fill.err = none) :
    b.fill.WF ∧ b.fill.unread = b.unread ∧ b.buffered < b.fill.buffered ∧
      b.fill.buf.length = b.buf.length := by
  obtain ⟨h0, hw, hl, hwin, hrd, -⟩ := compact_eq h
  have hle := b.compact.rd.read_length_le (b.compact.buf.length - b.compact.wpos)
  have hby := b.compact.rd.read_bytes (b.compact.buf.length - b.compact.wpos)
  have hb := window_length h
  have hwl := h.wpos_le
  have hrl := h.rpos_le
  simp only [fill, he] at hf ⊢
  generalize b.compact.rd.read (b.compact.buf.length - b.compact.wpos) = r at hf hle hby ⊢
  obtain ⟨⟨d, e⟩, rd'⟩ := r
  cases e with
  | some e => simp at hf
  | none =>
    by_cases hd : d.length = 0
    · simp [hd] at hf
    · simp only [hd, ↓reduceIte] at hf hle hby ⊢
      have hland := land_length (b := b.compact) (d := d) (by omega)
      refine ⟨⟨by dsimp only; omega, by dsimp only; rw [hland]; omega,
        by dsimp only; rw [hland, hl]; exact h.buf_pos⟩, ?_, ?_, hland.trans hl⟩
      · rw [unread_eq, unread_eq, window_rpos_zero (by exact h0), land_take (by omega),
          ← window_rpos_zero h0, hwin, List.append_assoc, hby, hrd]
      · simp only [buffered] at hw ⊢; omega

/-- **`fill` loses the bytes of a `Read` that also returns an error.** It
records the error and leaves `wpos` where it was: the bytes `d` that `Read`
landed in the buffer are neither in the window nor still in the source. -/
theorem fill_error_drops {e : Err} (h : b.WF) (he : b.err = none)
    (hr : (b.compact.rd.read (b.compact.buf.length - b.compact.wpos)).1.2 = some e) :
    b.fill.err = some e ∧ b.unread = b.fill.window ++
      (b.compact.rd.read (b.compact.buf.length - b.compact.wpos)).1.1 ++ b.fill.rd.bytes := by
  obtain ⟨h0, hw, -, hwin, hrd, -⟩ := compact_eq h
  have hby := b.compact.rd.read_bytes (b.compact.buf.length - b.compact.wpos)
  have hwl : b.compact.wpos ≤ b.compact.buf.length := by
    have := window_length h; have := h.wpos_le; have := h.rpos_le
    rw [hw, (compact_eq h).2.2.1]; simp only [buffered]; omega
  simp only [fill, he]
  generalize b.compact.rd.read (b.compact.buf.length - b.compact.wpos) = r at hr hby ⊢
  obtain ⟨⟨d, e'⟩, rd'⟩ := r
  simp only at hr
  subst hr
  refine ⟨rfl, ?_⟩
  have hland : (b.compact.land d).take b.compact.wpos = b.compact.buf.take b.compact.wpos := by
    rw [land, List.append_assoc, List.take_left' (by simp; omega)]
  rw [unread_eq, ← hwin, window_rpos_zero h0, List.append_assoc, hby, hrd]
  simp only [window, h0, List.drop_zero, buffered, Nat.sub_zero, hland]

/-- A one-byte stream whose byte comes together with `io.EOF`: a plain
cursor hands out the byte, `ReadByte` returns `io.EOF` and the byte is gone. -/
theorem readByte_tail_chunk :
    (newReaderSize ⟨[[97]], true, .eof⟩ 16).unread = [97] ∧
    ∃ b', (newReaderSize ⟨[[97]], true, .eof⟩ 16).readByte = .error .eof b' ∧
      b'.err = some .eof ∧ b'.unread = [] :=
  ⟨by decide, _, rfl, rfl, by decide⟩

theorem readByte_one_tail_chunk {u : List UInt8} {e : Err} (he : b.err = none) (hr : b.rpos = 0)
    (hw : b.wpos = 0) (hrd : b.rd = ⟨[u], true, e⟩) (hu : u.length ≤ b.buf.length) :
    ∃ b', b.readByte = .error e b' ∧ b'.unread = [] := by
  have hread : b.rd.read b.buf.length = ((u, some e), ⟨[], true, e⟩) := by
    simp [hrd, Source.read, Nat.not_lt.2 hu]
  refine ⟨{ b with buf := b.land u, rd := ⟨[], true, e⟩, err := some e }, ?_, ?_⟩
  · simp [readByte, he, fillIfEmpty, buffered, hr, hw, fill, compact, hread]
  · simp [unread, window, buffered, hr, hw, Source.bytes]

theorem fillIfEmpty_ok (h : b.WF) (he : b.err = none) (hc : b.fillIfEmpty.err = none) :
    b.fillIfEmpty.WF ∧ b.fillIfEmpty.unread = b.unread ∧ 0 < b.fillIfEmpty.buffered ∧
      b.fillIfEmpty.buf.length = b.buf.length := by
  unfold fillIfEmpty at hc ⊢
  split
  · obtain ⟨h1, h2, h3, h4⟩ := fill_ok h he (by simpa [*] using hc)
    exact ⟨h1, h2, by omega, h4⟩
  · exact ⟨h, rfl, by omega, rfl⟩

theorem window_take_one (h : b.WF) (hp : 0 < b.buffered) :
    b.window.take 1 = [b.buf.getD b.rpos 0] := by
  have hlt : b.rpos < b.buf.length := by have := h.wpos_le; simp only [buffered] at hp; omega
  rw [window, List.take_take, Nat.min_eq_left (by omega), List.drop_eq_getElem_cons hlt]
  simp only [List.take_succ_cons, List.take_zero, List.getD_eq_getElem?_getD,
    List.getElem?_eq_getElem hlt, Option.getD_some]

/-! ### What a successful call hands out -/

/-- `b` hands out `f` and becomes `b'`: `f` is the front of `b`'s unread
bytes and `b'` keeps the rest, the invariant and the buffer's size. -/
structure Delivers (b : Reader) (f : List UInt8) (b' : Reader) : Prop where
  wf : b'.WF
  unread : b.unread = f ++ b'.unread
  size : b'.buf.length = b.buf.length

theorem Delivers.refl (h : b.WF) : Delivers b [] b := ⟨h, rfl, rfl⟩

theorem Delivers.trans {f g : List UInt8} (h1 : Delivers b f c) (h2 : Delivers c g b') :
    Delivers b (f ++ g) b' :=
  ⟨h2.wf, by rw [h1.unread, h2.unread, List.append_assoc], h2.size.trans h1.size⟩

/-- **`ReadByte`** hands out the first unread byte. -/
theorem readByte_ok {x : UInt8} (h : b.WF) (hr : b.readByte = .ok x b') :
    b'.err = none ∧ Delivers b [x] b' := by
  unfold readByte at hr
  dsimp only at hr
  split at hr
  · cases hr
  · rename_i he
    split at hr
    · cases hr
    · rename_i hc
      obtain ⟨hw, hu, hp, hl⟩ := fillIfEmpty_ok h he hc
      cases hr
      obtain ⟨hu', hw'⟩ := unread_advance hw (k := 1) hp
      rw [window_take_one hw hp] at hu'
      exact ⟨hc, hw', hu.symm.trans hu', hl⟩

/-- `PeekByte` shows the first unread byte and hands out nothing. -/
theorem peekByte_ok {x : UInt8} (h : b.WF) (hr : b.peekByte = .ok x b') :
    b'.err = none ∧ Delivers b [] b' ∧ ∃ rest, b.unread = x :: rest := by
  unfold peekByte at hr
  dsimp only at hr
  split at hr
  · cases hr
  · rename_i he
    split at hr
    · cases hr
    · rename_i hc
      obtain ⟨hw, hu, hp, hl⟩ := fillIfEmpty_ok h he hc
      cases hr
      have hu' := (unread_advance hw (k := 1) hp).1
      rw [window_take_one hw hp] at hu'
      exact ⟨hc, ⟨hw, hu.symm, hl⟩, _, hu.symm.trans hu'⟩

/-- A `ReadByte` after a `PeekByte` returns the byte peeked, and ends where
a `ReadByte` in the peek's place would have. -/
theorem peekByte_readByte {t : UInt8} (h : b.WF) (hp : b.peekByte = .ok t c) :
    c.readByte = .ok t { c with rpos := c.rpos + 1 } ∧
      b.readByte = .ok t { c with rpos := c.rpos + 1 } := by
  unfold peekByte at hp
  dsimp only at hp
  split at hp
  · cases hp
  · rename_i he
    split at hp
    · cases hp
    · rename_i hc
      have hpos := (fillIfEmpty_ok h he hc).2.2.1
      cases hp
      have hfi : b.fillIfEmpty.fillIfEmpty = b.fillIfEmpty := if_neg (by omega)
      simp only [readByte, he, hc, hfi, and_self]

/-- `Read` hands out at most `m` bytes, unless it fails with nothing. -/
theorem read_ok {m : Nat} {d : List UInt8} {e : Option Err} (h : b.WF)
    (hr : b.read m = ((d, e), b')) (hde : e = none ∨ d ≠ []) :
    Delivers b d b' ∧ d.length ≤ m := by
  unfold read at hr
  dsimp only at hr
  split at hr
  · cases hr; simp at hde
  · rename_i he
    split at hr
    · cases hr; exact ⟨.refl h, by simp⟩
    · split at hr
      · rename_i hd
        have hw0 : b.window = [] := by
          rw [← List.length_eq_zero, window_length h]; exact hd.1
        have hby := b.rd.read_bytes m
        have hle := b.rd.read_length_le m
        generalize b.rd.read m = q at hr hby hle
        obtain ⟨⟨d', e'⟩, rd'⟩ := q
        simp only [Prod.mk.injEq] at hr
        obtain ⟨⟨rfl, rfl⟩, rfl⟩ := hr
        refine ⟨⟨⟨h.rpos_le, h.wpos_le, h.buf_pos⟩, ?_, rfl⟩, hle⟩
        show b.window ++ b.rd.bytes = d' ++ (b.window ++ rd'.bytes)
        rw [hw0, List.nil_append, List.nil_append, ← hby]
      · split at hr
        · cases hr; simp at hde
        · rename_i hc
          cases hr
          obtain ⟨hw, hu, hp, hl⟩ := fillIfEmpty_ok h he hc
          obtain ⟨hu', hw'⟩ := unread_advance hw (k := min m b.fillIfEmpty.buffered) (by omega)
          have ht : b.fillIfEmpty.window.take m =
              b.fillIfEmpty.window.take (min m b.fillIfEmpty.buffered) := by
            rw [← window_length hw, ← List.take_take, List.take_length]
          exact ⟨⟨hw', by rw [← hu, hu', ht], hl⟩, List.length_take_le m _⟩

/-- **`ReadSlice`'s loop** hands out the line through the first `delim`, or
a whole buffer without `delim` with `ErrBufferFull`; anything else leaves the
sticky error set or runs out of fuel. -/
theorem readSliceLoop_ok {delim : UInt8} {fuel : Nat} {f : List UInt8} {e : Option Err}
    (h : b.WF) (he : b.err = none) (hr : readSliceLoop delim fuel b = ((f, e), b')) :
    (e = none → b'.err = none ∧ Delivers b f b' ∧ ∃ pre, f = pre ++ [delim] ∧ delim ∉ pre) ∧
    (e = some .bufferFull → b'.err = none →
      Delivers b f b' ∧ delim ∉ f ∧ f.length = b.buf.length) := by
  induction fuel generalizing b with
  | zero =>
    simp only [readSliceLoop, Prod.mk.injEq] at hr
    obtain ⟨⟨-, rfl⟩, -⟩ := hr
    simp
  | succ fuel ih =>
    unfold readSliceLoop at hr
    dsimp only at hr
    split at hr
    · rename_i hm
      simp only [Prod.mk.injEq] at hr
      obtain ⟨⟨rfl, rfl⟩, rfl⟩ := hr
      have hi : b.window.indexOf delim + 1 ≤ b.buffered :=
        window_length h ▸ List.indexOf_lt_length.mpr hm
      obtain ⟨hu, hw⟩ := unread_advance h hi
      obtain ⟨h1, h2⟩ := take_indexOf_succ hm
      exact ⟨fun _ => ⟨he, ⟨hw, hu, rfl⟩, _, h1, h2⟩, by simp⟩
    · rename_i hm
      split at hr
      · rename_i hfull
        simp only [Prod.mk.injEq] at hr
        obtain ⟨⟨rfl, rfl⟩, rfl⟩ := hr
        have := h.rpos_le
        have := h.wpos_le
        have hend : b.rpos + b.buffered = b.wpos := by simp only [buffered]; omega
        obtain ⟨hu, hw⟩ := unread_advance h (le_refl b.buffered)
        rw [hend] at hu hw
        have hwin : b.window = b.buf := by
          rw [window_rpos_zero (by simp only [buffered] at hfull; omega),
            List.take_of_length_le (by simp only [buffered] at hfull; omega)]
        rw [← window_length h, List.take_length, hwin] at hu
        exact ⟨by simp, fun _ _ => ⟨⟨hw, hu, rfl⟩, hwin ▸ hm, rfl⟩⟩
      · split at hr
        · rename_i e' hc
          simp only [Prod.mk.injEq] at hr
          obtain ⟨⟨rfl, rfl⟩, rfl⟩ := hr
          exact ⟨by simp, fun _ hb => by simp [hc] at hb⟩
        · rename_i hc
          obtain ⟨hw, hu, -, hl⟩ := fill_ok h he hc
          have hd : Delivers b [] b.fill := ⟨hw, hu.symm, hl⟩
          obtain ⟨ih1, ih2⟩ := ih hw hc hr
          refine ⟨fun hn => ?_, fun hn hb => ?_⟩
          · obtain ⟨a, d1, d2⟩ := ih1 hn
            exact ⟨a, hd.trans d1, d2⟩
          · obtain ⟨d1, d2, d3⟩ := ih2 hn hb
            exact ⟨hd.trans d1, d2, d3.trans hl⟩

/-- `ReadSlice`, as its loop. -/
theorem readSlice_ok {delim : UInt8} {f : List UInt8} {e : Option Err}
    (h : b.WF) (hr : b.readSlice delim = ((f, e), b')) :
    (e = none → b'.err = none ∧ Delivers b f b' ∧ ∃ pre, f = pre ++ [delim] ∧ delim ∉ pre) ∧
    (e = some .bufferFull → b'.err = none →
      Delivers b f b' ∧ delim ∉ f ∧ f.length = b.buf.length) := by
  unfold readSlice at hr
  split at hr
  · rename_i e' he
    simp only [Prod.mk.injEq] at hr
    obtain ⟨⟨rfl, rfl⟩, rfl⟩ := hr
    exact ⟨by simp, fun _ hb => by simp [he] at hb⟩
  · exact readSliceLoop_ok h (by assumption) hr

/-- Once the sticky error is set, `ReadBytes`'s loop cannot succeed. -/
theorem readBytesLoop_fail {delim : UInt8} {e : Err} {f : List UInt8} (he : b.err = some e) :
    ∀ {fuel : Nat} {acc : List UInt8}, readBytesLoop delim fuel acc b ≠ .ok f b'
  | 0, _ => by simp [readBytesLoop]
  | fuel + 1, acc => by
    have hs : b.readSlice delim = (([], some e), b) := by simp [readSlice, he]
    simp only [readBytesLoop, hs]
    split
    · simp_all
    · exact readBytesLoop_fail he
    · simp

/-- **`ReadBytes`' loop** hands out the line through the first `delim`,
however many buffers it spans. -/
theorem readBytesLoop_ok {delim : UInt8} {fuel : Nat} {acc f : List UInt8} (h : b.WF)
    (hr : readBytesLoop delim fuel acc b = .ok f b') :
    b'.err = none ∧ ∃ pre, f = acc ++ pre ++ [delim] ∧ delim ∉ pre ∧ Delivers b (pre ++ [delim]) b' := by
  induction fuel generalizing acc b with
  | zero => simp [readBytesLoop] at hr
  | succ fuel ih =>
    unfold readBytesLoop at hr
    dsimp only at hr
    generalize hq : b.readSlice delim = q at hr
    obtain ⟨⟨g, e⟩, b1⟩ := q
    obtain ⟨hs1, hs2⟩ := readSlice_ok h hq
    dsimp only at hr
    split at hr
    · rename_i hn
      cases hr
      obtain ⟨h1, h2, pre, rfl, h3⟩ := hs1 rfl
      exact ⟨h1, pre, by simp, h3, h2⟩
    · rename_i hn
      by_cases hb1 : b1.err = none
      · obtain ⟨d1, d2, -⟩ := hs2 rfl hb1
        obtain ⟨h1, pre, rfl, h3, h4⟩ := ih d1.wf hr
        refine ⟨h1, g ++ pre, by simp, by simp [d2, h3], ?_⟩
        simpa using d1.trans h4
      · obtain ⟨e1, he1⟩ := Option.ne_none_iff_exists'.mp hb1
        exact absurd hr (readBytesLoop_fail he1)
    · cases hr

/-- **`ReadBytes`** hands out the line through the first `delim`. -/
theorem readBytes_ok {delim : UInt8} {f : List UInt8} (h : b.WF) (hr : b.readBytes delim = .ok f b') :
    b'.err = none ∧ ∃ pre, f = pre ++ [delim] ∧ delim ∉ pre ∧ Delivers b f b' := by
  obtain ⟨h1, pre, rfl, h2, h3⟩ := readBytesLoop_ok h hr
  exact ⟨h1, pre, by simp, h2, by simpa using h3⟩

/-- `io.ReadAtLeast`'s loop hands out what it collects, never more than
`min` bytes, and stops without an error only once it has `min`. -/
theorem readAtLeastLoop_ok {min fuel : Nat} {acc f : List UInt8} {e : Option Err} (h : b.WF)
    (hr : readAtLeastLoop min fuel acc b = ((f, e), b')) (hacc : acc.length ≤ min)
    (hok : e = none ∨ min ≤ f.length) :
    ∃ g, f = acc ++ g ∧ Delivers b g b' ∧ f.length ≤ min ∧ (e = none → min ≤ f.length) := by
  induction fuel generalizing acc b with
  | zero =>
    simp only [readAtLeastLoop, Prod.mk.injEq] at hr
    obtain ⟨⟨rfl, rfl⟩, rfl⟩ := hr
    exact ⟨[], by simp, .refl h, hacc, by simp⟩
  | succ fuel ih =>
    unfold readAtLeastLoop at hr
    split at hr
    · simp only [Prod.mk.injEq] at hr
      obtain ⟨⟨rfl, rfl⟩, rfl⟩ := hr
      exact ⟨[], by simp, .refl h, hacc, fun _ => by assumption⟩
    · rename_i hlt
      dsimp only at hr
      generalize hq : b.read (min - acc.length) = q at hr
      obtain ⟨⟨d, e1⟩, b1⟩ := q
      dsimp only at hr
      split at hr
      · obtain ⟨d1, hl⟩ := read_ok h hq (.inl rfl)
        obtain ⟨g, rfl, d2, h3, h4⟩ := ih d1.wf hr (by simp; omega)
        exact ⟨d ++ g, by simp, d1.trans d2, h3, h4⟩
      · simp only [Prod.mk.injEq] at hr
        obtain ⟨⟨rfl, rfl⟩, rfl⟩ := hr
        have hd : d ≠ [] := by
          rintro rfl; simp at hok; omega
        obtain ⟨d1, hl⟩ := read_ok h hq (.inr hd)
        exact ⟨d, rfl, d1, by simp; omega, by simp⟩

/-- **`ReadFull(n)`** hands out the next `n` bytes. -/
theorem readFull_ok {n : Nat} {xs : List UInt8} (h : b.WF) (hr : b.readFull n = .ok xs b') :
    xs.length = n ∧ Delivers b xs b' := by
  unfold readFull at hr
  split at hr
  · cases hr
  · split at hr
    · cases hr; exact ⟨by simp_all, .refl h⟩
    · unfold ioReadFull at hr
      generalize hq : readAtLeastLoop n (n + b.rd.chunks.length + 1) [] b = q at hr
      obtain ⟨⟨f, e⟩, b1⟩ := q
      dsimp only at hr
      by_cases h1 : n ≤ f.length
      · simp only [h1, ↓reduceIte] at hr
        cases hr
        obtain ⟨g, rfl, d1, h3, -⟩ := readAtLeastLoop_ok h hq (by simp) (.inr h1)
        exact ⟨by omega, d1⟩
      · by_cases h2 : 0 < f.length ∧ e = some .eof
        · simp [h1, h2] at hr
        · simp only [h1, h2, ↓reduceIte] at hr
          cases e with
          | some e => cases hr
          | none =>
            obtain ⟨-, -, -, -, h4⟩ := readAtLeastLoop_ok h hq (by simp) (.inl rfl)
            exact absurd (h4 rfl) h1

/-! ### On a live source, every call gets what it needs -/

/-- A reader that has not failed, over a live source. -/
structure Live (b : Reader) : Prop where
  wf : b.WF
  err : b.err = none
  rd : b.rd.Live

theorem Live.of_delivers {f : List UInt8} (h : Delivers b f b') (he : b'.err = none)
    (hr : b'.rd.Live) : b'.Live := ⟨h.wf, he, hr⟩

/-- With bytes left in a live source and room in the buffer, `fill` succeeds. -/
theorem fill_live (h : b.Live) (hb : b.rd.bytes ≠ []) (hroom : b.buffered < b.buf.length) :
    b.fill.Live ∧ Delivers b [] b.fill ∧ b.buffered < b.fill.buffered := by
  obtain ⟨-, hw, hl, -, hrd, her⟩ := compact_eq h.wf
  have hm : 0 < b.compact.buf.length - b.compact.wpos := by rw [hl, hw]; omega
  obtain ⟨he, hd, hs⟩ := Source.read_live (hrd ▸ h.rd) hm (hrd ▸ hb)
  have hf : b.fill.err = none ∧ b.fill.rd.Live := by
    simp only [fill, h.err, he]
    rw [if_neg (by simpa using hd)]
    exact ⟨her.trans h.err, hs⟩
  obtain ⟨w, u, gt, sz⟩ := fill_ok h.wf h.err hf.1
  exact ⟨⟨w, hf.1, hf.2⟩, ⟨w, u.symm, sz⟩, gt⟩

theorem fillIfEmpty_live (h : b.Live) (hu : b.unread ≠ []) :
    b.fillIfEmpty.Live ∧ Delivers b [] b.fillIfEmpty ∧ 0 < b.fillIfEmpty.buffered := by
  unfold fillIfEmpty
  split
  · rename_i h0
    have hw : b.window = [] := by rw [← List.length_eq_zero, window_length h.wf, h0]
    have hb : b.rd.bytes ≠ [] := by simpa [unread_eq, hw] using hu
    obtain ⟨h1, h2, h3⟩ := fill_live h hb (by have := h.wf.buf_pos; omega)
    exact ⟨h1, h2, by omega⟩
  · exact ⟨h, .refl h.wf, by omega⟩

theorem readByte_live {x : UInt8} {rest : List UInt8} (h : b.Live) (hu : b.unread = x :: rest) :
    ∃ b', b.readByte = .ok x b' ∧ b'.Live ∧ b'.unread = rest ∧ b'.buf.length = b.buf.length := by
  obtain ⟨hc, -, hp⟩ := fillIfEmpty_live h (by simp [hu])
  have hr : b.readByte = .ok (b.fillIfEmpty.buf.getD b.fillIfEmpty.rpos 0)
      { b.fillIfEmpty with rpos := b.fillIfEmpty.rpos + 1 } := by
    simp [readByte, h.err, hc.err]
  obtain ⟨-, hd⟩ := readByte_ok h.wf hr
  rw [hd.unread, List.singleton_append, List.cons.injEq] at hu
  rw [hu.1] at hr
  exact ⟨_, hr, Live.of_delivers hd hc.err hc.rd, hu.2, hd.size⟩

theorem peekByte_live {x : UInt8} {rest : List UInt8} (h : b.Live) (hu : b.unread = x :: rest) :
    ∃ b', b.peekByte = .ok x b' ∧ b'.Live ∧ b'.unread = x :: rest ∧
      b'.buf.length = b.buf.length := by
  obtain ⟨hc, -, -⟩ := fillIfEmpty_live h (by simp [hu])
  have hr : b.peekByte = .ok (b.fillIfEmpty.buf.getD b.fillIfEmpty.rpos 0) b.fillIfEmpty := by
    simp [peekByte, h.err, hc.err]
  obtain ⟨-, hd, rest', hu'⟩ := peekByte_ok h.wf hr
  rw [hu, List.cons.injEq] at hu'
  rw [← hu'.1] at hr
  exact ⟨_, hr, Live.of_delivers hd hc.err hc.rd, by rw [← hu, hd.unread, List.nil_append],
    hd.size⟩

/-- **`ReadSlice`'s loop on a live source** returns the line when it fits the
buffer and a full buffer otherwise. -/
theorem readSliceLoop_live {delim : UInt8} {pre rest : List UInt8} (fuel : Nat) (h : b.Live)
    (hu : b.unread = pre ++ delim :: rest) (hp : delim ∉ pre) (hf : b.buf.length - b.buffered < fuel) :
    (readSliceLoop delim fuel b).1.2 = (if pre.length < b.buf.length then none else some .bufferFull) ∧
      (readSliceLoop delim fuel b).2.Live := by
  induction fuel generalizing b with
  | zero => omega
  | succ fuel ih =>
    have hwl := window_length h.wf
    unfold readSliceLoop
    split
    · rename_i hm
      have hlt := lt_length_of_mem hm hp (by rw [← unread_eq, hu])
      obtain ⟨-, hw⟩ := unread_advance h.wf (k := b.window.indexOf delim + 1)
        (hwl ▸ List.indexOf_lt_length.mpr hm)
      have := h.wf.wpos_le
      simp only [buffered] at hwl
      refine ⟨?_, hw, h.err, h.rd⟩
      dsimp only
      rw [if_pos (by omega)]
    · rename_i hm
      have hle := length_le_of_not_mem hm (by rw [← unread_eq, hu])
      split
      · rename_i hfull
        obtain ⟨-, hw⟩ := unread_advance h.wf (le_refl b.buffered)
        have hend : b.rpos + b.buffered = b.wpos := by
          have := h.wf.rpos_le; simp only [buffered]; omega
        rw [hend] at hw
        exact ⟨by simp; omega, hw, h.err, h.rd⟩
      · rename_i hroom
        have hroom' : b.buffered < b.buf.length := by
          have := h.wf.wpos_le; simp only [buffered] at *; omega
        have hb : b.rd.bytes ≠ [] := by
          intro hb
          have := congrArg List.length hu
          simp [unread_eq, hb] at this
          omega
        obtain ⟨hc, hd, hgt⟩ := fill_live h hb hroom'
        simp only [hc.err]
        rw [← hd.size]
        exact ih hc (by rw [← hu, hd.unread, List.nil_append]) (by have := hd.size; omega)

theorem readSlice_fit {delim : UInt8} {pre rest : List UInt8} (h : b.Live)
    (hu : b.unread = pre ++ delim :: rest) (hp : delim ∉ pre) (hl : pre.length < b.buf.length) :
    ∃ b', b.readSlice delim = ((pre ++ [delim], none), b') ∧ b'.Live ∧ b'.unread = rest ∧
      b'.buf.length = b.buf.length := by
  have hloop := readSliceLoop_live (b.buf.length + 1) h hu hp (by omega)
  rw [if_pos hl] at hloop
  have hr : b.readSlice delim = readSliceLoop delim (b.buf.length + 1) b := by simp [readSlice, h.err]
  generalize hq : readSliceLoop delim (b.buf.length + 1) b = q at hr hloop
  obtain ⟨⟨f, e⟩, b'⟩ := q
  obtain ⟨he, hl'⟩ := hloop
  subst he
  obtain ⟨-, hd, pre', rfl, hp'⟩ := (readSliceLoop_ok h.wf h.err hq).1 rfl
  rw [hd.unread, List.append_assoc, List.singleton_append] at hu
  obtain ⟨rfl, hrest⟩ := split_unique hp' hp hu
  exact ⟨b', hr, hl', hrest, hd.size⟩

theorem readSlice_full {delim : UInt8} {pre rest : List UInt8} (h : b.Live)
    (hu : b.unread = pre ++ delim :: rest) (hp : delim ∉ pre) (hl : b.buf.length ≤ pre.length) :
    ∃ b', b.readSlice delim = ((pre.take b.buf.length, some .bufferFull), b') ∧ b'.Live ∧
      b'.unread = pre.drop b.buf.length ++ delim :: rest ∧ b'.buf.length = b.buf.length := by
  have hloop := readSliceLoop_live (b.buf.length + 1) h hu hp (by omega)
  rw [if_neg (by omega)] at hloop
  have hr : b.readSlice delim = readSliceLoop delim (b.buf.length + 1) b := by simp [readSlice, h.err]
  generalize hq : readSliceLoop delim (b.buf.length + 1) b = q at hr hloop
  obtain ⟨⟨f, e⟩, b'⟩ := q
  obtain ⟨he, hl'⟩ := hloop
  subst he
  obtain ⟨hd, -, hfl⟩ := (readSliceLoop_ok h.wf h.err hq).2 rfl hl'.err
  have hpre : pre = f ++ pre.drop b.buf.length := by
    have := congrArg (List.take b.buf.length) hu
    rw [hd.unread, List.take_left' hfl, List.take_append_of_le_length hl] at this
    rw [this, List.take_append_drop]
  have hf' : pre.take b.buf.length = f := by rw [hpre, List.take_left' hfl]
  refine ⟨b', by rw [hr, hf'], hl', ?_, hd.size⟩
  rw [hd.unread, hpre, List.append_assoc] at hu
  exact List.append_cancel_left hu

/-- **`ReadBytes`' loop on a live source** returns the line, however many
buffers it spans. -/
theorem readBytesLoop_live {delim : UInt8} {rest : List UInt8} :
    ∀ (fuel : Nat) (acc : List UInt8) {pre : List UInt8} {b : Reader}, b.Live → b.unread = pre ++ delim :: rest →
      delim ∉ pre → pre.length < fuel →
      ∃ b', readBytesLoop delim fuel acc b = .ok (acc ++ pre ++ [delim]) b' ∧ b'.Live ∧
        b'.unread = rest ∧ b'.buf.length = b.buf.length
  | 0, _, _, _, _, _, _, hf => absurd hf (Nat.not_lt_zero _)
  | fuel + 1, acc, pre, b, h, hu, hp, hf => by
    by_cases hl : pre.length < b.buf.length
    · obtain ⟨b', hr, hl', hu', hs⟩ := readSlice_fit h hu hp hl
      exact ⟨b', by simp [readBytesLoop, hr], hl', hu', hs⟩
    · obtain ⟨b1, hr, hl1, hu1, hs1⟩ := readSlice_full h hu hp (by omega)
      obtain ⟨b', hr', hl', hu', hs⟩ := readBytesLoop_live fuel
        (acc ++ pre.take b.buf.length) hl1 hu1 (fun hm => hp (List.mem_of_mem_drop hm))
        (by have := h.wf.buf_pos; simp; omega)
      refine ⟨b', ?_, hl', hu', hs.trans hs1⟩
      simp only [readBytesLoop, hr]
      rw [hr', List.append_assoc acc, List.take_append_drop]

theorem readBytes_live {delim : UInt8} {pre rest : List UInt8} (h : b.Live)
    (hu : b.unread = pre ++ delim :: rest) (hp : delim ∉ pre) :
    ∃ b', b.readBytes delim = .ok (pre ++ [delim]) b' ∧ b'.Live ∧ b'.unread = rest ∧
      b'.buf.length = b.buf.length := by
  have := readBytesLoop_live (b.unread.length + 1) [] h hu hp
    (by rw [hu]; simp; omega)
  simpa [readBytes] using this

/-- On a live source with bytes left, `Read` of `m > 0` returns some of them. -/
theorem read_ne_nil {m : Nat} (h : b.Live) (hm : 0 < m) (hu0 : b.unread ≠ []) :
    (b.read m).1.2 = none ∧ (b.read m).1.1 ≠ [] ∧ (b.read m).2.Live := by
  unfold read
  simp only [h.err, Nat.pos_iff_ne_zero.mp hm, ↓reduceIte]
  split
  · rename_i hd
    have hw0 : b.window = [] := by
      rw [← List.length_eq_zero, window_length h.wf]; exact hd.1
    obtain ⟨he, hne, hs⟩ := Source.read_live h.rd hm (by simpa [unread_eq, hw0] using hu0)
    exact ⟨he, hne, ⟨h.wf.rpos_le, h.wf.wpos_le, h.wf.buf_pos⟩, he, hs⟩
  · obtain ⟨hc, -, hp⟩ := fillIfEmpty_live h hu0
    simp only [hc.err]
    have hwin : b.fillIfEmpty.window ≠ [] := by
      rw [← List.length_pos, window_length hc.wf]; exact hp
    obtain ⟨-, hw⟩ := unread_advance hc.wf (k := min m b.fillIfEmpty.buffered) (by omega)
    refine ⟨trivial, ?_, ⟨hw.1, hw.2, hw.3⟩, rfl, hc.rd⟩
    obtain ⟨y, ys, hy⟩ := List.exists_cons_of_ne_nil hwin
    rw [hy]
    obtain ⟨m', rfl⟩ := Nat.exists_eq_succ_of_ne_zero (Nat.pos_iff_ne_zero.mp hm)
    simp

/-- On a live source with `m > 0` bytes left, `Read` returns some of them. -/
theorem read_live {m : Nat} (h : b.Live) (hm : 0 < m) (hu : m ≤ b.unread.length) :
    (b.read m).1.2 = none ∧ (b.read m).1.1 ≠ [] ∧ (b.read m).2.Live :=
  read_ne_nil h hm (by rintro h0; simp [h0] at hu; omega)

/-- `io.ReadAtLeast`'s loop on a live source collects exactly what it asks
for. -/
theorem readAtLeastLoop_live (min : Nat) :
    ∀ (fuel : Nat) (acc : List UInt8) {b : Reader}, b.Live → acc.length ≤ min →
      min - acc.length ≤ b.unread.length → min - acc.length < fuel →
      ∃ b', readAtLeastLoop min fuel acc b =
          ((acc ++ b.unread.take (min - acc.length), none), b') ∧ b'.Live ∧
        b'.unread = b.unread.drop (min - acc.length) ∧ b'.buf.length = b.buf.length
  | 0, _, _, _, _, _, hf => absurd hf (Nat.not_lt_zero _)
  | fuel + 1, acc, b, h, hacc, hu, hf => by
    unfold readAtLeastLoop
    split
    · rename_i hle
      have h0 : min - acc.length = 0 := by omega
      exact ⟨b, by simp [h0], h, by simp [h0], rfl⟩
    · have hm : 0 < min - acc.length := by omega
      obtain ⟨he, hne, hl⟩ := read_live h hm hu
      generalize hq : b.read (min - acc.length) = q at he hne hl
      obtain ⟨⟨d, e⟩, b1⟩ := q
      dsimp only at he hne hl ⊢
      subst he
      obtain ⟨hd, hdl⟩ := read_ok h.wf hq (.inl rfl)
      have hdpos : 0 < d.length := List.length_pos.mpr hne
      obtain ⟨b', hr, hl', hu', hs⟩ := readAtLeastLoop_live min fuel (acc ++ d) hl
        (by simp; omega) (by rw [hd.unread] at hu; simp at hu ⊢; omega) (by simp; omega)
      have hsub : min - (acc ++ d).length = min - acc.length - d.length := by simp; omega
      refine ⟨b', by rw [hr, hd.unread, hsub, List.take_append_eq_append_take,
        List.take_of_length_le hdl, List.append_assoc], hl', ?_, hs.trans hd.size⟩
      rw [hu', hd.unread, hsub, List.drop_append_eq_append_drop, List.drop_of_length_le hdl]
      simp

/-- **`ReadFull(n)` on a live source** with `n` bytes left returns them. -/
theorem readFull_live {n : Nat} (h : b.Live) (hn : n ≤ b.unread.length) :
    ∃ b', b.readFull n = .ok (b.unread.take n) b' ∧ b'.Live ∧ b'.unread = b.unread.drop n ∧
      b'.buf.length = b.buf.length := by
  by_cases h0 : n = 0
  · subst h0; exact ⟨b, by simp [readFull, h.err], h, by simp, rfl⟩
  obtain ⟨b', hr, hl', hu', hs⟩ := readAtLeastLoop_live n (n + b.rd.chunks.length + 1) [] h (Nat.zero_le n) (by simpa using hn) (by simp; omega)
  simp only [List.length_nil, Nat.sub_zero, List.nil_append] at hr hu'
  refine ⟨b', ?_, hl', hu', hs⟩
  have hlen : n ≤ (b.unread.take n).length := by simp; omega
  simp [readFull, h.err, h0, ioReadFull, hr, hlen]

/-! ### A new reader -/

theorem newReaderSize_length (rd : Source) (size : Int) :
    (newReaderSize rd size).buf.length = if size ≤ 0 then defaultBufferSize else size.toNat := by
  simp [newReaderSize]

theorem newReaderSize_wf (rd : Source) (size : Int) : (newReaderSize rd size).WF := by
  refine ⟨Nat.le_refl 0, Nat.zero_le _, ?_⟩
  rw [newReaderSize_length]
  split
  · decide
  · omega

theorem newReaderSize_unread (rd : Source) (size : Int) :
    (newReaderSize rd size).unread = rd.bytes := by
  simp [newReaderSize, unread, window, buffered]

theorem newReaderSize_live {rd : Source} (h : rd.Live) (size : Int) : (newReaderSize rd size).Live :=
  ⟨newReaderSize_wf rd size, rfl, h⟩

end Reader

end Bufio2
end Codis
