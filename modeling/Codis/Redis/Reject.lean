/-
# The decoder's errors

Where the stream stops being a frame, `Decode` fails with the error the code
names for that spot (`BadIn`): a type byte that is none of `+ - : $ *` is
`bad resp type`; a text line or a length line whose LF has no CR before it,
and a bulk payload not followed by CRLF, are `ErrBadCRLFEnd`; a length that
`Btoi64` rejects fails with `Btoi64`'s error; a bulk length below `-1` or
above `MaxBulkBytesLen` is `ErrBadBulkBytesLen` or `ErrBadBulkBytesLenTooLong`,
and an array length below `-1` or above `MaxArrayLen` is `ErrBadArrayLen` or
`ErrBadArrayLenTooLong`; a length line longer than the buffer is
`bufio.ErrBufferFull`. Inside an array, the elements before a bad one are
read and the bad one's error is the array's. At the end of the stream,
between frames, `Decode` fails with the source's own error, `io.EOF` for a
closed connection.

On a connection, the frames before the bad spot come out one by one first,
and the call that meets it fails with its error (`decode_rejects`).

Key definitions: `BadIn`.
Key theorems: `decodeResp_bad`, `decode_bad`, `decode_rejects`.
-/
import Codis.Redis.Stream
import Codis.Redis.Compose
import Codis.Bufio2.Refinement

namespace Codis
namespace Redis

open Bufio2 Reader

/-- The starts of a stream on which `decodeResp`, with a buffer of `size`
bytes, stops with the error `e` once it has read them. -/
inductive BadIn (size : Nat) : List UInt8 → Err → Prop
  /-- A type byte that is none of `+ - : $ *`. -/
  | respType (t : UInt8) : t ∉ [43, 45, 58, 36, 42] → BadIn size [t] (.badRespType t)
  /-- A text line whose LF has no CR before it. -/
  | textCRLF (t : UInt8) (p : List UInt8) : t ∈ [43, 45, 58] → 10 ∉ p → p.getLast? ≠ some 13 →
      BadIn size (t :: p ++ [10]) .badCRLFEnd
  /-- A length line, within the buffer, whose LF has no CR before it. -/
  | lenCRLF (t : UInt8) (s : List UInt8) : t ∈ [36, 42] → 10 ∉ s → s.getLast? ≠ some 13 →
      s.length < size → BadIn size (t :: s ++ [10]) .badCRLFEnd
  /-- A length line with no LF in the buffer's worth of bytes. -/
  | lenFull (t : UInt8) (s : List UInt8) : t ∈ [36, 42] → 10 ∉ s → s.length = size →
      BadIn size (t :: s) .bufferFull
  /-- A length `Btoi64` rejects. -/
  | lenNumber (t : UInt8) (s : List UInt8) (e : Err) : t ∈ [36, 42] → 10 ∉ s → btoi64 s = .error e →
      s.length + 2 ≤ size → BadIn size (t :: s ++ crlf) e
  | bulkLen (s : List UInt8) (n : Int) : btoi64 s = .ok n → n < -1 → s.length + 2 ≤ size →
      BadIn size (36 :: s ++ crlf) .badBulkBytesLen
  | bulkLenTooLong (s : List UInt8) (n : Int) : btoi64 s = .ok n → maxBulkBytesLen < n →
      s.length + 2 ≤ size → BadIn size (36 :: s ++ crlf) .badBulkBytesLenTooLong
  /-- A bulk payload followed by two bytes that are not CRLF. -/
  | bulkCRLF (s p : List UInt8) (x y : UInt8) : btoi64 s = .ok p.length →
      (p.length : Int) ≤ maxBulkBytesLen → s.length + 2 ≤ size → [x, y] ≠ crlf →
      BadIn size (36 :: s ++ crlf ++ p ++ [x, y]) .badCRLFEnd
  | arrayLen (s : List UInt8) (n : Int) : btoi64 s = .ok n → n < -1 → s.length + 2 ≤ size →
      BadIn size (42 :: s ++ crlf) .badArrayLen
  | arrayLenTooLong (s : List UInt8) (n : Int) : btoi64 s = .ok n → maxArrayLen < n →
      s.length + 2 ≤ size → BadIn size (42 :: s ++ crlf) .badArrayLenTooLong
  /-- An array whose elements, after some frames, meet a bad one. -/
  | arrayItem (s bs g : List UInt8) (rs : List Resp) (n : Int) (e : Err) : btoi64 s = .ok n →
      (rs.length : Int) < n → n ≤ maxArrayLen → s.length + 2 ≤ size → FramesIn size bs rs →
      BadIn size g e → BadIn size (42 :: s ++ crlf ++ bs ++ g) e

variable {size : Nat} {b : Reader}

/-! ### The checks -/

/-- The CRLF check of `decodeTextBytes` and `decodeInt` on a line through LF
fails exactly when no CR stands before the LF. -/
theorem crlf_check (p : List UInt8) :
    ((p ++ [10]).length < 2 ∨ (p ++ [10]).getD ((p ++ [10]).length - 2) 0 ≠ 13) ↔
      p.getLast? ≠ some 13 := by
  rcases List.eq_nil_or_concat p with rfl | ⟨q, x, rfl⟩
  · simp
  · simp [List.getD_eq_getElem?_getD, List.getElem_append_right]

theorem decodeTextBytes_noCR {p rest : List UInt8} (h : Within size b (p ++ 10 :: rest))
    (hp : 10 ∉ p) (hcr : p.getLast? ≠ some 13) : ∃ b', decodeTextBytes b = .error .badCRLFEnd b' := by
  obtain ⟨b', hr, -⟩ := readBytes_live h.live h.unread hp
  exact ⟨b', by simp only [decodeTextBytes, bind, EStateM.bind, hr, (crlf_check p).2 hcr]; rfl⟩

/-- `decodeInt` on a line `ReadSlice` returns, whole, with no error. -/
theorem decodeInt_of_line {l : List UInt8} {b' : Reader} (hr : b.readSlice 10 = ((l, none), b')) :
    decodeInt b = (if l.length < 2 ∨ l.getD (l.length - 2) 0 ≠ 13 then .error .badCRLFEnd b'
      else match btoi64 (l.take (l.length - 2)) with
        | .ok n => .ok n b'
        | .error e => .error e b') := by
  have hc : checked (readSlice 10) b = .ok l b' := by simp [checked, hr]
  simp only [decodeInt, bind, EStateM.bind, hc]
  split_ifs
  · rfl
  · simp only [pure, EStateM.pure]; cases btoi64 (l.take (l.length - 2)) <;> rfl

theorem decodeInt_noCR {s rest : List UInt8} (h : Within size b (s ++ 10 :: rest)) (hs : 10 ∉ s)
    (hcr : s.getLast? ≠ some 13) (hl : s.length < size) :
    ∃ b', decodeInt b = .error .badCRLFEnd b' := by
  obtain ⟨b', hr, -⟩ := readSlice_fit h.live h.unread hs (by rw [h.len]; exact hl)
  exact ⟨b', by rw [decodeInt_of_line hr, if_pos ((crlf_check s).2 hcr)]⟩

theorem decodeInt_number {s rest : List UInt8} {e : Err} (h : Within size b (s ++ crlf ++ rest))
    (hs : 10 ∉ s) (hn : btoi64 s = .error e) (hl : s.length + 2 ≤ size) :
    ∃ b', decodeInt b = .error e b' := by
  obtain ⟨b', hr, -⟩ := readSlice_fit h.live
    (show b.unread = (s ++ [13]) ++ 10 :: rest by simpa [crlf] using h.unread)
    (by simpa using hs) (by have := h.len; simp; omega)
  have hcr : ¬ ((s ++ [13] ++ [10]).length < 2 ∨
      (s ++ [13] ++ [10]).getD ((s ++ [13] ++ [10]).length - 2) 0 ≠ 13) := by
    rw [crlf_check]; simp
  refine ⟨b', ?_⟩
  rw [decodeInt_of_line hr, if_neg hcr]
  simp [hn]

/-- A length line longer than the buffer: `ReadSlice` returns
`ErrBufferFull`, which `decodeInt` passes on. -/
theorem decodeInt_full {s rest : List UInt8} (h : Within size b (s ++ rest)) (hs : 10 ∉ s)
    (hl : s.length = size) : ∃ b', decodeInt b = .error .bufferFull b' := by
  have hfull : ∃ f b', b.readSlice 10 = ((f, some .bufferFull), b') := by
    by_cases hr : 10 ∈ rest
    · obtain ⟨hsplit, hpre⟩ := split_first hr
      obtain ⟨b', hr', -⟩ := readSlice_full h.live
        (show b.unread = (s ++ rest.take (rest.indexOf 10)) ++ 10 :: rest.drop (rest.indexOf 10 + 1) by
          rw [h.unread, List.append_assoc, ← hsplit])
        (by simp [hs, hpre]) (by rw [h.len, List.length_append]; omega)
      exact ⟨_, b', hr'⟩
    · obtain ⟨b', hr', -⟩ := (readSlice_noDelim h.live
        (show (10 : UInt8) ∉ b.unread by rw [h.unread]; simp [hs, hr])).1
        (by rw [h.unread, h.len, List.length_append]; omega)
      exact ⟨_, b', hr'⟩
  obtain ⟨f, b', hr⟩ := hfull
  have hc : checked (readSlice 10) b = .error .bufferFull b' := by simp [checked, hr]
  exact ⟨b', by simp only [decodeInt, bind, EStateM.bind, hc]⟩

/-! ### Each method on a bad frame -/

theorem decodeBulkBytes_len {s rest : List UInt8} {n : Int} (h : Within size b (s ++ crlf ++ rest))
    (hn : btoi64 s = .ok n) (hl : s.length + 2 ≤ size) (hneg : n < -1) :
    ∃ b', decodeBulkBytes b = .error .badBulkBytesLen b' := by
  obtain ⟨b', hr, -⟩ := decodeInt_within h hn hl
  exact ⟨b', by simp [decodeBulkBytes, bind, EStateM.bind, hr, hneg]; rfl⟩

theorem decodeBulkBytes_tooLong {s rest : List UInt8} {n : Int} (h : Within size b (s ++ crlf ++ rest))
    (hn : btoi64 s = .ok n) (hl : s.length + 2 ≤ size) (hmax : maxBulkBytesLen < n) :
    ∃ b', decodeBulkBytes b = .error .badBulkBytesLenTooLong b' := by
  obtain ⟨b', hr, -⟩ := decodeInt_within h hn hl
  have hneg : ¬ n < -1 := by simp only [maxBulkBytesLen] at hmax; omega
  exact ⟨b', by simp [decodeBulkBytes, bind, EStateM.bind, hr, hneg, hmax]; rfl⟩

/-- A payload whose two following bytes are not CRLF. -/
theorem decodeBulkBytes_crlf {s p rest : List UInt8} {x y : UInt8}
    (h : Within size b (s ++ crlf ++ (p ++ [x, y] ++ rest))) (hs : btoi64 s = .ok p.length)
    (hp : (p.length : Int) ≤ maxBulkBytesLen) (hl : s.length + 2 ≤ size) (hxy : [x, y] ≠ crlf) :
    ∃ b', decodeBulkBytes b = .error .badCRLFEnd b' := by
  obtain ⟨b1, hr, h1⟩ := decodeInt_within h hs hl
  obtain ⟨b', hf, -⟩ := readFull_live h1.live
    (show p.length + 2 ≤ b1.unread.length by rw [h1.unread]; simp)
  have ht : (p ++ [x, y] ++ rest).take (p.length + 2) = p ++ [x, y] := by
    simp [List.take_append_eq_append_take]
  rw [h1.unread, ht] at hf
  have hmax : ¬ maxBulkBytesLen < p.length := by omega
  have hneg : ¬ (p.length : Int) < -1 := by omega
  have hm1 : ¬ (p.length : Int) = -1 := by omega
  have hx : (p ++ [x, y]).getD p.length 0 = x := by simp [List.getD_eq_getElem?_getD, List.getElem_append_right]
  have hy : (p ++ [x, y]).getD (p.length + 1) 0 = y := by simp [List.getD_eq_getElem?_getD, List.getElem_append_right]
  have hbad : (p ++ [x, y]).getD p.length 0 ≠ 13 ∨ (p ++ [x, y]).getD (p.length + 1) 0 ≠ 10 := by
    rw [hx, hy, ← not_and_or]; rintro ⟨rfl, rfl⟩; exact hxy rfl
  refine ⟨b', ?_⟩
  simp only [decodeBulkBytes, bind, EStateM.bind, hr, pure, EStateM.pure, hmax, hneg, hm1,
    ↓reduceIte, Int.toNat_natCast, hf, hbad]
  rfl

theorem decodeArray_len (elem : ReaderM Resp) {s rest : List UInt8} {n : Int}
    (h : Within size b (s ++ crlf ++ rest)) (hn : btoi64 s = .ok n) (hl : s.length + 2 ≤ size)
    (hneg : n < -1) : ∃ b', decodeArray elem b = .error .badArrayLen b' := by
  obtain ⟨b', hr, -⟩ := decodeInt_within h hn hl
  exact ⟨b', by simp [decodeArray, bind, EStateM.bind, hr, hneg]; rfl⟩

theorem decodeArray_tooLong (elem : ReaderM Resp) {s rest : List UInt8} {n : Int}
    (h : Within size b (s ++ crlf ++ rest)) (hn : btoi64 s = .ok n) (hl : s.length + 2 ≤ size)
    (hmax : maxArrayLen < n) : ∃ b', decodeArray elem b = .error .badArrayLenTooLong b' := by
  obtain ⟨b', hr, -⟩ := decodeInt_within h hn hl
  have hneg : ¬ n < -1 := by simp only [maxArrayLen] at hmax; omega
  exact ⟨b', by simp [decodeArray, bind, EStateM.bind, hr, hneg, hmax]; rfl⟩

/-- Frames, then an element on which `elem` fails: the loop fails with that
element's error. -/
theorem decodeArrayItems_bad {elem : ReaderM Resp} {g : List UInt8} {e : Err}
    (hg : ∀ {b' : Reader} {rest' : List UInt8}, Within size b' (g ++ rest') →
      ∃ b'', elem b' = .error e b'') :
    ∀ {rs : List Resp} {bs : List UInt8} {b : Reader} {rest : List UInt8} (n : Nat),
      FramesIn size bs rs → rs.length < n →
      (∀ {f : List UInt8} {v : Resp} {b' : Reader} {rest' : List UInt8}, FrameIn size f v →
        f.length ≤ bs.length → Within size b' (f ++ rest') →
        ∃ b'', elem b' = .ok v b'' ∧ Within size b'' rest') →
      Within size b (bs ++ g ++ rest) → ∃ b', decodeArrayItems elem n b = .error e b'
  | [], _, b, rest, n + 1, .nil, _, _, h => by
    obtain ⟨b1, hr1⟩ := hg (show Within size b (g ++ rest) by simpa using h)
    exact ⟨b1, by simp [decodeArrayItems, bind, EStateM.bind, hr1]⟩
  | _ :: _, _, _, rest, n + 1, .cons ha hbs, hn, hel, h => by
    obtain ⟨b1, hr1, h1⟩ := hel ha (by simp) (show Within size _ (_ ++ (_ ++ g ++ rest)) by simpa using h)
    obtain ⟨b', hr'⟩ := decodeArrayItems_bad hg n hbs (by simp at hn; omega)
      (fun hf hl hw => hel hf (by simp at hl ⊢; omega) hw) h1
    exact ⟨b', by simp [decodeArrayItems, bind, EStateM.bind, hr1, hr']⟩

/-! ### `decodeResp` -/

theorem decodeResp_respType {t : UInt8} {b1 : Reader} (fuel : Nat) (hr1 : readByte b = .ok t b1)
    (ht : t ∉ [43, 45, 58, 36, 42]) : decodeResp (fuel + 1) b = .error (.badRespType t) b1 := by
  simp only [List.mem_cons, List.mem_singleton, not_or, List.not_mem_nil] at ht
  simp only [decodeResp, bind, EStateM.bind, hr1]
  split
  all_goals first | rfl | simp_all

/-- **`decodeResp` fails with the error the code names for the spot where
the stream stops being a frame.** -/
theorem decodeResp_bad : ∀ (fuel : Nat) {f : List UInt8} {e : Err} {b : Reader}
    {rest : List UInt8}, BadIn size f e → f.length < fuel → Within size b (f ++ rest) →
    ∃ b', decodeResp fuel b = .error e b'
  | 0, _, _, _, _, _, hf, _ => absurd hf (Nat.not_lt_zero _)
  | fuel + 1, _, _, b, rest, hbad, hf, h => by
    cases hbad with
    | respType t ht =>
      obtain ⟨b1, hr1, -⟩ := readByte_within (show Within size b (t :: rest) by simpa using h)
      exact ⟨b1, decodeResp_respType fuel hr1 ht⟩
    | textCRLF t p ht hp hcr =>
      obtain ⟨b1, hr1, h1⟩ := readByte_within
        (show Within size b (t :: (p ++ 10 :: rest)) by simpa using h)
      obtain ⟨b', hr⟩ := decodeTextBytes_noCR h1 hp hcr
      simp only [List.mem_cons, List.mem_singleton, List.not_mem_nil, or_false] at ht
      rcases ht with rfl | rfl | rfl <;>
        exact ⟨b', by simp [decodeResp, bind, EStateM.bind, hr1, hr]⟩
    | lenCRLF t s ht hs hcr hl =>
      obtain ⟨b1, hr1, h1⟩ := readByte_within
        (show Within size b (t :: (s ++ 10 :: rest)) by simpa using h)
      obtain ⟨b', hr⟩ := decodeInt_noCR h1 hs hcr hl
      simp only [List.mem_cons, List.mem_singleton, List.not_mem_nil, or_false] at ht
      rcases ht with rfl | rfl <;>
        exact ⟨b', by simp [decodeResp, decodeBulkBytes, decodeArray, bind, EStateM.bind, hr1, hr]⟩
    | lenFull t s ht hs hl =>
      obtain ⟨b1, hr1, h1⟩ := readByte_within (show Within size b (t :: (s ++ rest)) by simpa using h)
      obtain ⟨b', hr⟩ := decodeInt_full h1 hs hl
      simp only [List.mem_cons, List.mem_singleton, List.not_mem_nil, or_false] at ht
      rcases ht with rfl | rfl <;>
        exact ⟨b', by simp [decodeResp, decodeBulkBytes, decodeArray, bind, EStateM.bind, hr1, hr]⟩
    | lenNumber t s e ht hs hn hl =>
      obtain ⟨b1, hr1, h1⟩ := readByte_within
        (show Within size b (t :: (s ++ crlf ++ rest)) by simpa using h)
      obtain ⟨b', hr⟩ := decodeInt_number h1 hs hn hl
      simp only [List.mem_cons, List.mem_singleton, List.not_mem_nil, or_false] at ht
      rcases ht with rfl | rfl <;>
        exact ⟨b', by simp [decodeResp, decodeBulkBytes, decodeArray, bind, EStateM.bind, hr1, hr]⟩
    | bulkLen s n hn hneg hl =>
      obtain ⟨b1, hr1, h1⟩ := readByte_within
        (show Within size b (36 :: (s ++ crlf ++ rest)) by simpa using h)
      obtain ⟨b', hr⟩ := decodeBulkBytes_len h1 hn hl hneg
      exact ⟨b', by simp [decodeResp, bind, EStateM.bind, hr1, hr]⟩
    | bulkLenTooLong s n hn hmax hl =>
      obtain ⟨b1, hr1, h1⟩ := readByte_within
        (show Within size b (36 :: (s ++ crlf ++ rest)) by simpa using h)
      obtain ⟨b', hr⟩ := decodeBulkBytes_tooLong h1 hn hl hmax
      exact ⟨b', by simp [decodeResp, bind, EStateM.bind, hr1, hr]⟩
    | bulkCRLF s p x y hs hp hl hxy =>
      obtain ⟨b1, hr1, h1⟩ := readByte_within
        (show Within size b (36 :: (s ++ crlf ++ (p ++ [x, y] ++ rest))) by simpa using h)
      obtain ⟨b', hr⟩ := decodeBulkBytes_crlf h1 hs hp hl hxy
      exact ⟨b', by simp [decodeResp, bind, EStateM.bind, hr1, hr]⟩
    | arrayLen s n hn hneg hl =>
      obtain ⟨b1, hr1, h1⟩ := readByte_within
        (show Within size b (42 :: (s ++ crlf ++ rest)) by simpa using h)
      obtain ⟨b', hr⟩ := decodeArray_len (decodeResp fuel) h1 hn hl hneg
      exact ⟨b', by simp [decodeResp, bind, EStateM.bind, hr1, hr]⟩
    | arrayLenTooLong s n hn hmax hl =>
      obtain ⟨b1, hr1, h1⟩ := readByte_within
        (show Within size b (42 :: (s ++ crlf ++ rest)) by simpa using h)
      obtain ⟨b', hr⟩ := decodeArray_tooLong (decodeResp fuel) h1 hn hl hmax
      exact ⟨b', by simp [decodeResp, bind, EStateM.bind, hr1, hr]⟩
    | arrayItem s bs g rs n e hn hlt hmax hl hbs hg =>
      obtain ⟨b1, hr1, h1⟩ := readByte_within
        (show Within size b (42 :: (s ++ crlf ++ (bs ++ g ++ rest))) by simpa using h)
      obtain ⟨b2, hr2, h2⟩ := decodeInt_within h1 hn hl
      have hlen : bs.length + g.length < fuel := by
        simp only [List.length_append, List.length_cons, crlf] at hf; omega
      obtain ⟨b', hr'⟩ := decodeArrayItems_bad
        (fun hw => decodeResp_bad fuel hg (by omega) hw) n.toNat hbs (by omega)
        (fun hf' hl' hw => decodeResp_frameIn fuel hf' (by omega) hw) h2
      have hneg : ¬ n < -1 := by omega
      have hnmax : ¬ maxArrayLen < n := by omega
      have hm1 : ¬ n = -1 := by omega
      exact ⟨b', by simp [decodeResp, decodeArray, bind, EStateM.bind, hr1, hr2, pure, EStateM.pure,
        hneg, hnmax, hm1, hr']⟩

theorem decode_bad {d : Decoder} {f t : List UInt8} {e : Err} (he : d.err = none)
    (h : Within size d.br (f ++ t)) (hf : BadIn size f e) :
    ∃ d', d.decode = (.error e, d') ∧ d'.err = some e := by
  obtain ⟨b', hr⟩ := decodeResp_bad d.fuel hf
    (by simp only [Decoder.fuel, h.unread, List.length_append]; omega) h
  exact ⟨⟨b', some e⟩, by simp [Decoder.decode, he, hr], rfl⟩

theorem decode_end {d : Decoder} (he : d.err = none) (h : Within size d.br []) :
    ∃ d', d.decode = (.error d.br.rd.eof, d') ∧ d'.err = some d.br.rd.eof := by
  obtain ⟨b', hr, -⟩ := readByte_end h.live h.unread
  refine ⟨⟨b', some d.br.rd.eof⟩, ?_, rfl⟩
  cases hf : d.fuel with
  | zero => simp [Decoder.fuel] at hf
  | succ fuel => simp [Decoder.decode, he, hf, decodeResp, bind, EStateM.bind, hr]

/-! ### The decoder moves its reader only as the reader's methods do -/

/-- A reader computation that changes the reader only by the reader's own
moves, whatever it returns. -/
def Keeps {α : Type} (p : ReaderM α) : Prop := ∀ b, b.WF → Moves b (after (p b))

theorem Keeps.bind {α β : Type} {x : ReaderM α} {f : α → ReaderM β} (hx : Keeps x)
    (hf : ∀ a, Keeps (f a)) : Keeps (x >>= f) := by
  intro b h
  show Moves b (after (EStateM.bind x f b))
  have hm := hx b h
  unfold EStateM.bind
  split
  · rename_i a b1 heq
    rw [heq] at hm
    exact hm.trans (hf a b1 (Moves.wf hm h))
  · rename_i e b1 heq
    rw [heq] at hm
    exact hm

/-- The reader calls the decoder makes keep to the reader's moves, and so
does every method of the decoder. -/
theorem keeps_closed : Closed Keeps where
  pure _ _ _ := .refl
  throw _ _ _ := .refl
  bind := Keeps.bind
  readByte _ h := readByte_moves h
  peekByte _ _ := peekByte_moves
  readSlice b h := by
    show Moves b (after (checked (readSlice 10) b))
    unfold checked; split <;> exact readSlice_moves h 10
  readBytes _ h := readBytesLoop_moves 10 _ [] h
  readFull n _ h := readFull_moves h n

theorem decode_moves {d : Decoder} (h : d.br.WF) : Moves d.br d.decode.2.br := by
  have hm := keeps_closed.decodeResp d.fuel d.br h
  unfold Decoder.decode
  split
  · exact .refl
  · split <;> rename_i heq <;> rw [heq] at hm <;> exact hm

theorem calls_decode_eof : ∀ (n : Nat) {d : Decoder}, d.br.WF →
    (d.calls Decoder.decode n).2.br.rd.eof = d.br.rd.eof
  | 0, _, _ => rfl
  | n + 1, d, h => by
    have hm := decode_moves h
    rw [Decoder.calls, calls_decode_eof n (Moves.wf hm h), Moves.eof hm h]

/-! ### A connection -/

/-- **On a connection, `Decode` returns the frames before a bad spot one by
one, then fails with the error the code names for it**, or with the source's
error (`io.EOF`) when the stream ends between frames. This holds over every
live source and buffer size. -/
theorem decode_rejects (src : Source) (hsrc : src.Live) (size : Int)
    (fs : List (List UInt8 × Resp))
    (hfs : ∀ p ∈ fs, FrameIn (newDecoderSize src size).br.buf.length p.1 p.2) :
    (∀ (f t : List UInt8) (e : Err), BadIn (newDecoderSize src size).br.buf.length f e →
      src.bytes = (fs.map Prod.fst).flatten ++ f ++ t →
      ∃ d', (newDecoderSize src size).calls Decoder.decode (fs.length + 1) =
          (fs.map (fun p => .ok p.2) ++ [.error e], d') ∧ d'.err = some e) ∧
    (src.bytes = (fs.map Prod.fst).flatten →
      ∃ d', (newDecoderSize src size).calls Decoder.decode (fs.length + 1) =
          (fs.map (fun p => .ok p.2) ++ [.error src.eof], d') ∧ d'.err = some src.eof) := by
  -- the frames before the end of the good part come out one by one
  have hgood : ∀ t, src.bytes = (fs.map Prod.fst).flatten ++ t →
      ∃ d, (newDecoderSize src size).calls Decoder.decode fs.length = (fs.map fun p => .ok p.2, d) ∧
        d.err = none ∧ Within (newDecoderSize src size).br.buf.length d.br t :=
    fun t hs => calls_complete (fun _ _ _ _ => decode_within) fs _ t hfs rfl
      (newDecoderSize_within hsrc size hs)
  refine ⟨fun f t e hf hs => ?_, fun hs => ?_⟩
  · obtain ⟨d, h1, he, hw⟩ := hgood (f ++ t) (by rw [hs, List.append_assoc])
    obtain ⟨d', h2, he'⟩ := decode_bad he hw hf
    exact ⟨d', by rw [calls_succ, h1, h2], he'⟩
  · obtain ⟨d, h1, he, hw⟩ := hgood [] (by rw [hs, List.append_nil])
    obtain ⟨d', h2, he'⟩ := decode_end he hw
    have heof : d.br.rd.eof = src.eof := by
      have := calls_decode_eof fs.length (d := newDecoderSize src size) (newReaderSize_wf src size)
      rwa [h1] at this
    rw [heof] at h2 he'
    exact ⟨d', by rw [calls_succ, h1, h2], he'⟩

/-- A reply `+OK`, then a byte that is no type byte. -/
def okThenJunk : Source := ⟨[[43, 79, 75, 13, 10, 63]], false, .eof⟩

theorem decode_rejects_okThenJunk :
    okThenJunk.Live ∧
      FrameIn (newDecoderSize okThenJunk 16).br.buf.length [43, 79, 75, 13, 10] (.string [79, 75]) ∧
      BadIn (newDecoderSize okThenJunk 16).br.buf.length [63] (.badRespType 63) ∧
      ∃ d', (newDecoderSize okThenJunk 16).calls Decoder.decode 2 =
          ([.ok (.string [79, 75]), .error (.badRespType 63)], d') ∧ d'.err = some (.badRespType 63) :=
  have hlive : okThenJunk.Live := ⟨rfl, by simp [okThenJunk]⟩
  have h1 : FrameIn (newDecoderSize okThenJunk 16).br.buf.length [43, 79, 75, 13, 10]
      (.string [79, 75]) := .string [79, 75] (by decide)
  have h2 : BadIn (newDecoderSize okThenJunk 16).br.buf.length [63] (.badRespType 63) :=
    .respType 63 (by decide)
  ⟨hlive, h1, h2, (decode_rejects okThenJunk hlive 16 [([43, 79, 75, 13, 10], .string [79, 75])]
    (by simp only [List.mem_singleton, forall_eq]; exact h1)).1 [63] [] _ h2 rfl⟩

end Redis
end Codis
