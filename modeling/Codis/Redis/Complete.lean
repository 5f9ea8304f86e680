/-
# The decoder reads every frame whose length lines fit its buffer

`decodeInt` reads a length line with `ReadSlice`, which returns
`ErrBufferFull` for a line the buffer cannot hold; text lines (`ReadBytes`)
and payloads (`ReadFull`) may be of any length. `FrameIn size` is the grammar
`Frame` with every length line, CRLF included, at most `size` bytes: each of
its frames is a `Frame` (`FrameIn.frame`), and every `Frame` is in it for a
buffer as long as the frame (`Frame.frameIn`). `Btoi64` takes any number of
leading zeros, so no one buffer holds the length lines of every frame.

On a live reader whose buffer has `size` bytes, `decodeResp` reads back every
frame of `FrameIn size` and leaves the rest of the stream unread
(`decodeResp_frameIn`), given fuel beyond the frame's length: one lemma per
method of the decoder, then induction on the fuel, with an array's elements
by recursion on `FramesIn`. So `Decode` returns every such frame
(`decode_complete`); with `decode_sound`, the frames `Decode` returns are
exactly these.

Key definitions: `FrameIn`, `Within`.
Key theorems: `FrameIn.frame`, `Frame.frameIn`, `decodeResp_frameIn`,
`decode_complete`.
-/
import Codis.Bufio2.Cursor
import Codis.Redis.Decoder
import Codis.Redis.Frame
import Codis.Redis.Btoi64

namespace Codis
namespace Redis

open Bufio2 Reader

mutual
/-- The frames a buffer of `size` bytes reads: `Frame`, with every length
line and its CRLF at most `size` bytes. -/
inductive FrameIn (size : Nat) : List UInt8 → Resp → Prop
  | string (p : List UInt8) : 10 ∉ p → FrameIn size (43 :: p ++ crlf) (.string p)
  | error (p : List UInt8) : 10 ∉ p → FrameIn size (45 :: p ++ crlf) (.error p)
  | int (p : List UInt8) : 10 ∉ p → FrameIn size (58 :: p ++ crlf) (.int p)
  | nullBulk (s : List UInt8) : btoi64 s = .ok (-1) → s.length + 2 ≤ size →
      FrameIn size (36 :: s ++ crlf) (.bulkBytes none)
  | bulk (s p : List UInt8) : btoi64 s = .ok p.length → (p.length : Int) ≤ maxBulkBytesLen →
      s.length + 2 ≤ size → FrameIn size (36 :: s ++ crlf ++ p ++ crlf) (.bulkBytes (some p))
  | nullArray (s : List UInt8) : btoi64 s = .ok (-1) → s.length + 2 ≤ size →
      FrameIn size (42 :: s ++ crlf) (.array none)
  | array (s bs : List UInt8) (rs : List Resp) : btoi64 s = .ok rs.length →
      (rs.length : Int) ≤ maxArrayLen → s.length + 2 ≤ size → FramesIn size bs rs →
      FrameIn size (42 :: s ++ crlf ++ bs) (.array (some rs))

/-- Frames one after another, each read by a buffer of `size` bytes. -/
inductive FramesIn (size : Nat) : List UInt8 → List Resp → Prop
  | nil : FramesIn size [] []
  | cons {a bs : List UInt8} {r : Resp} {rs : List Resp} :
      FrameIn size a r → FramesIn size bs rs → FramesIn size (a ++ bs) (r :: rs)
end

variable {size : Nat}

mutual
theorem FrameIn.frame : ∀ {f : List UInt8} {v : Resp}, FrameIn size f v → Frame f v
  | _, _, .string p hp => .string p hp
  | _, _, .error p hp => .error p hp
  | _, _, .int p hp => .int p hp
  | _, _, .nullBulk s hs _ => .nullBulk s hs
  | _, _, .bulk s p hs hp _ => .bulk s p hs hp
  | _, _, .nullArray s hs _ => .nullArray s hs
  | _, _, .array s bs rs hs hl _ hbs => .array s bs rs hs hl hbs.frames

theorem FramesIn.frames : ∀ {bs : List UInt8} {rs : List Resp}, FramesIn size bs rs → Frames bs rs
  | _, _, .nil => .nil
  | _, _, .cons ha hbs => .cons ha.frame hbs.frames
end

mutual
/-- A larger buffer reads what a smaller one reads. -/
theorem FrameIn.mono {size' : Nat} (hle : size ≤ size') :
    ∀ {f : List UInt8} {v : Resp}, FrameIn size f v → FrameIn size' f v
  | _, _, .string p hp => .string p hp
  | _, _, .error p hp => .error p hp
  | _, _, .int p hp => .int p hp
  | _, _, .nullBulk s hs hl => .nullBulk s hs (by omega)
  | _, _, .bulk s p hs hp hl => .bulk s p hs hp (by omega)
  | _, _, .nullArray s hs hl => .nullArray s hs (by omega)
  | _, _, .array s bs rs hs hn hl hbs => .array s bs rs hs hn (by omega) (hbs.mono hle)

theorem FramesIn.mono {size' : Nat} (hle : size ≤ size') :
    ∀ {bs : List UInt8} {rs : List Resp}, FramesIn size bs rs → FramesIn size' bs rs
  | _, _, .nil => .nil
  | _, _, .cons ha hbs => .cons (ha.mono hle) (hbs.mono hle)
end

mutual
/-- A buffer as long as a frame reads it. -/
theorem Frame.frameIn : ∀ {f : List UInt8} {v : Resp}, Frame f v → FrameIn f.length f v
  | _, _, .string p hp => .string p hp
  | _, _, .error p hp => .error p hp
  | _, _, .int p hp => .int p hp
  | _, _, .nullBulk s hs => .nullBulk s hs (by simp [crlf])
  | _, _, .bulk s p hs hp => .bulk s p hs hp (by simp [crlf])
  | _, _, .nullArray s hs => .nullArray s hs (by simp [crlf])
  | _, _, .array s bs rs hs hl hbs =>
    .array s bs rs hs hl (by simp [crlf]) (hbs.framesIn.mono (by simp; omega))

theorem Frames.framesIn : ∀ {bs : List UInt8} {rs : List Resp}, Frames bs rs → FramesIn bs.length bs rs
  | _, _, .nil => .nil
  | _, _, .cons ha hbs => .cons (ha.frameIn.mono (by simp)) (hbs.framesIn.mono (by simp))
end

/-! ### Reading a frame -/

/-- A reader on the way: live, its buffer of `size` bytes, with `rest` left
to read. -/
structure Within (size : Nat) (b : Reader) (rest : List UInt8) : Prop where
  live : b.Live
  len : b.buf.length = size
  unread : b.unread = rest

variable {b : Reader}

theorem readByte_within {t : UInt8} {rest : List UInt8} (h : Within size b (t :: rest)) :
    ∃ b', Reader.readByte b = .ok t b' ∧ Within size b' rest := by
  obtain ⟨b', hr, hl, hu, hs⟩ := readByte_live h.live h.unread
  exact ⟨b', hr, hl, hs.trans h.len, hu⟩

theorem decodeTextBytes_within {p rest : List UInt8} (h : Within size b (p ++ crlf ++ rest))
    (hp : 10 ∉ p) : ∃ b', decodeTextBytes b = .ok p b' ∧ Within size b' rest := by
  obtain ⟨b', hr, hl, hu, hs⟩ := readBytes_live h.live
    (show b.unread = (p ++ [13]) ++ 10 :: rest by simpa [crlf] using h.unread) (by simpa using hp)
  refine ⟨b', ?_, hl, hs.trans h.len, hu⟩
  have h2 : ¬ p.length + 2 < 2 := by omega
  simp [decodeTextBytes, bind, EStateM.bind, hr, List.getElem_append_right, pure, EStateM.pure, h2]

/-- A length line the buffer holds, through `ReadSlice`. -/
theorem decodeInt_within {s rest : List UInt8} {n : Int} (h : Within size b (s ++ crlf ++ rest))
    (hn : btoi64 s = .ok n) (hl : s.length + 2 ≤ size) :
    ∃ b', decodeInt b = .ok n b' ∧ Within size b' rest := by
  obtain ⟨b', hr, hl', hu, hs⟩ := readSlice_fit h.live
    (show b.unread = (s ++ [13]) ++ 10 :: rest by simpa [crlf] using h.unread)
    (by simpa using lf_not_mem_of_btoi64 hn) (by have := h.len; simp; omega)
  refine ⟨b', ?_, hl', hs.trans h.len, hu⟩
  have hc : checked (readSlice 10) b = .ok (s ++ [13, 10]) b' := by simp [checked, hr]
  have h2 : ¬ s.length + 2 < 2 := by omega
  simp [decodeInt, bind, EStateM.bind, hc, List.getElem_append_right, pure, EStateM.pure, h2, hn]

theorem decodeBulkBytes_null {s rest : List UInt8} (h : Within size b (s ++ crlf ++ rest))
    (hs : btoi64 s = .ok (-1)) (hl : s.length + 2 ≤ size) :
    ∃ b', decodeBulkBytes b = .ok none b' ∧ Within size b' rest := by
  obtain ⟨b', hr, h'⟩ := decodeInt_within h hs hl
  exact ⟨b', by simp [decodeBulkBytes, bind, EStateM.bind, hr, pure, EStateM.pure, maxBulkBytesLen],
    h'⟩

/-- A bulk's payload, after its length line; the payload may be longer than
the buffer. -/
theorem decodeBulkBytes_payload {s p rest : List UInt8}
    (h : Within size b (s ++ crlf ++ (p ++ crlf ++ rest))) (hs : btoi64 s = .ok p.length)
    (hp : (p.length : Int) ≤ maxBulkBytesLen) (hl : s.length + 2 ≤ size) :
    ∃ b', decodeBulkBytes b = .ok (some p) b' ∧ Within size b' rest := by
  obtain ⟨b1, hr, h1⟩ := decodeInt_within h hs hl
  obtain ⟨b', hf, hl', hu', hsz⟩ := readFull_live h1.live
    (show p.length + 2 ≤ b1.unread.length by rw [h1.unread]; simp [crlf])
  refine ⟨b', ?_, hl', hsz.trans h1.len, by rw [hu', h1.unread]; simp [crlf]⟩
  have hmax : ¬ maxBulkBytesLen < p.length := by omega
  have hneg : ¬ (p.length : Int) < -1 := by omega
  have hm1 : ¬ (p.length : Int) = -1 := by omega
  have ht : (p ++ crlf ++ rest).take (p.length + 2) = p ++ crlf := by
    simp [List.take_append_eq_append_take, crlf]
  rw [h1.unread, ht] at hf
  simp [decodeBulkBytes, bind, EStateM.bind, hr, pure, EStateM.pure, hmax, hneg, hm1, hf,
    List.getElem_append_right, crlf]

/-- The elements of an array, each read by `elem`. -/
theorem decodeArrayItems_within {elem : ReaderM Resp} :
    ∀ {rs : List Resp} {bs : List UInt8} {b : Reader} {rest : List UInt8}, FramesIn size bs rs →
      (∀ {f : List UInt8} {v : Resp} {b' : Reader} {rest' : List UInt8}, FrameIn size f v →
        f.length ≤ bs.length → Within size b' (f ++ rest') →
        ∃ b'', elem b' = .ok v b'' ∧ Within size b'' rest') →
      Within size b (bs ++ rest) →
      ∃ b', decodeArrayItems elem rs.length b = .ok rs b' ∧ Within size b' rest
  | [], _, b, _, .nil, _, h => ⟨b, rfl, h⟩
  | _ :: _, _, _, rest, .cons ha hbs, hel, h => by
    obtain ⟨b1, hr1, h1⟩ := hel ha (by simp) (by simpa using h)
    obtain ⟨b', hr', h'⟩ := decodeArrayItems_within hbs
      (fun hf hl hw => hel hf (by simp; omega) hw) h1
    exact ⟨b', by simp [decodeArrayItems, bind, EStateM.bind, hr1, hr', pure, EStateM.pure], h'⟩

/-- **`decodeResp` reads back every frame whose length lines fit the
buffer**, and leaves the rest of the stream unread, given fuel beyond the
frame's length. -/
theorem decodeResp_frameIn : ∀ (fuel : Nat) {f : List UInt8} {v : Resp} {b : Reader}
    {rest : List UInt8}, FrameIn size f v → f.length < fuel → Within size b (f ++ rest) →
    ∃ b', decodeResp fuel b = .ok v b' ∧ Within size b' rest
  | 0, _, _, _, _, _, hf, _ => absurd hf (Nat.not_lt_zero _)
  | fuel + 1, _, _, b, rest, hfr, hf, h => by
    cases hfr with
    | string p hp | error p hp | int p hp =>
      obtain ⟨b1, hr1, h1⟩ := readByte_within
        (show Within size b (_ :: (p ++ crlf ++ rest)) by simpa using h)
      obtain ⟨b', hr, h'⟩ := decodeTextBytes_within h1 hp
      exact ⟨b', by simp [decodeResp, bind, EStateM.bind, hr1, hr, pure, EStateM.pure], h'⟩
    | nullBulk s hs hl =>
      obtain ⟨b1, hr1, h1⟩ := readByte_within
        (show Within size b (36 :: (s ++ crlf ++ rest)) by simpa using h)
      obtain ⟨b', hr, h'⟩ := decodeBulkBytes_null h1 hs hl
      exact ⟨b', by simp [decodeResp, bind, EStateM.bind, hr1, hr, pure, EStateM.pure], h'⟩
    | bulk s p hs hp hl =>
      obtain ⟨b1, hr1, h1⟩ := readByte_within
        (show Within size b (36 :: (s ++ crlf ++ (p ++ crlf ++ rest))) by simpa using h)
      obtain ⟨b', hr, h'⟩ := decodeBulkBytes_payload h1 hs hp hl
      exact ⟨b', by simp [decodeResp, bind, EStateM.bind, hr1, hr, pure, EStateM.pure], h'⟩
    | nullArray s hs hl =>
      obtain ⟨b1, hr1, h1⟩ := readByte_within
        (show Within size b (42 :: (s ++ crlf ++ rest)) by simpa using h)
      obtain ⟨b', hr, h'⟩ := decodeInt_within h1 hs hl
      exact ⟨b', by simp [decodeResp, decodeArray, bind, EStateM.bind, hr1, hr, pure,
        EStateM.pure, maxArrayLen], h'⟩
    | array s bs rs hs hn hl hbs =>
      obtain ⟨b1, hr1, h1⟩ := readByte_within
        (show Within size b (42 :: (s ++ crlf ++ (bs ++ rest))) by simpa using h)
      obtain ⟨b2, hr2, h2⟩ := decodeInt_within h1 hs hl
      obtain ⟨b', hr', h'⟩ := decodeArrayItems_within hbs
        (fun hf' hl' hw => decodeResp_frameIn fuel hf' (by simp [crlf] at hf; omega) hw) h2
      have hmax : ¬ maxArrayLen < rs.length := by omega
      have hneg : ¬ (rs.length : Int) < -1 := by omega
      have hm1 : ¬ (rs.length : Int) = -1 := by omega
      exact ⟨b', by simp [decodeResp, decodeArray, bind, EStateM.bind, hr1, hr2, pure,
        EStateM.pure, hmax, hneg, hm1, hr'], h'⟩

/-- **`Decode` returns every frame whose length lines fit its buffer**: on a
fresh decoder over a live source whose stream starts with such a frame, it
returns the frame's value with no error, and the reader, still live, has the
rest of the stream to deliver. -/
theorem decode_complete (src : Source) (size : Int) (hsrc : src.Live) {f t : List UInt8} {v : Resp}
    (hf : FrameIn (newDecoderSize src size).br.buf.length f v) (hs : src.bytes = f ++ t) :
    ∃ d', (newDecoderSize src size).decode = (.ok v, d') ∧ d'.err = none ∧ d'.br.Live ∧
      d'.br.unread = t := by
  let d := newDecoderSize src size
  have hw : Within d.br.buf.length d.br (f ++ t) :=
    ⟨newReaderSize_live hsrc size, rfl, (newReaderSize_unread _ _).trans hs⟩
  obtain ⟨b', hr, hl, -, hu⟩ := decodeResp_frameIn d.fuel hf
    (by simp only [Decoder.fuel, hw.unread, List.length_append]; omega) hw
  refine ⟨⟨b', none⟩, ?_, rfl, hl, hu⟩
  simp only [d, Decoder.decode, newDecoderSize] at hr ⊢
  rw [hr]

/-- A bulk whose length is spelled `+01`, in two reads, then the first byte
of the next frame. -/
def paddedBulk : Source := ⟨[[36, 43, 48, 49, 13, 10, 97], [13, 10, 43]], false, .eof⟩

theorem decode_complete_paddedBulk :
    paddedBulk.Live ∧
      FrameIn (newDecoderSize paddedBulk 16).br.buf.length [36, 43, 48, 49, 13, 10, 97, 13, 10]
        (.bulkBytes (some [97])) ∧
      paddedBulk.bytes = [36, 43, 48, 49, 13, 10, 97, 13, 10] ++ [43] ∧
      ∃ d', (newDecoderSize paddedBulk 16).decode = (.ok (.bulkBytes (some [97])), d') ∧
        d'.err = none ∧ d'.br.Live ∧ d'.br.unread = [43] :=
  have hlive : paddedBulk.Live := ⟨rfl, by simp [paddedBulk]⟩
  have hf : FrameIn (newDecoderSize paddedBulk 16).br.buf.length [36, 43, 48, 49, 13, 10, 97, 13, 10]
      (.bulkBytes (some [97])) := .bulk [43, 48, 49] [97] rfl (by decide) (by decide)
  ⟨hlive, hf, rfl, decode_complete paddedBulk 16 hlive hf rfl⟩

end Redis
end Codis
