/-
# One decoder, call after call

A connection keeps one decoder for its whole life: `loopReader` calls
`Decode` once for each request it takes from `tasks`, and the session reads
its requests with one `DecodeMultiBulk` each (`Decoder.calls`). Whatever the
calls return without an error are frames taken from the front of the stream
one after the other, on every source (`calls_sound`); and on a live source
whose stream is a run of frames whose length lines fit the buffer, the calls
return them all, in order, and leave the rest (`calls_complete`). Each is
assembled from one lemma about a single call.

For `Decode` the frames are the grammar `Frame`: the k-th `Decode` on a
connection returns the k-th frame the backend sent (`decode_pipeline`). For
`DecodeMultiBulk` they are requests: arrays of bulks and inline commands
(`RequestIn`), so pipelined requests come out one by one
(`decodeMultiBulk_pipeline`).

`Decode(r)`, `DecodeFromBytes` and `DecodeMultiBulkFromBytes` run a fresh
`NewDecoder`, whose buffer has 8192 bytes, over their reader; a
`bytes.Reader` hands out its slice without an error, then `io.EOF`, so it is
a live source (`bytesReader_live`).

Key definitions: `Decoder.calls`, `RequestIn`, `newDecoder`, `bytesReader`,
`decodeFromBytes`, `decodeMultiBulkFromBytes`.
Key theorems: `calls_sound`, `calls_complete`, `decode_pipeline`,
`decodeMultiBulk_pipeline`, `decodeFromBytes_ser`.
-/
import Codis.Redis.Request
import Codis.Redis.RoundTrip

namespace Codis
namespace Redis

open Bufio2 Reader

/-- `n` calls of one decoder method in a row on one decoder: the results in
order and the decoder after them. -/
def Decoder.calls {α : Type} (m : Decoder → Except Err α × Decoder) :
    Nat → Decoder → List (Except Err α) × Decoder
  | 0, d => ([], d)
  | n + 1, d => ((m d).1 :: (calls m n (m d).2).1, (calls m n (m d).2).2)

/-- The requests `DecodeMultiBulk` reads with a buffer of `size` bytes: `*`, a
count line that fits, and that many bulks whose length lines fit; or an
inline command, a line without LF that does not start with `*` and has a
word. -/
inductive RequestIn (size : Nat) : List UInt8 → List Resp → Prop
  | multiBulk (s bs : List UInt8) (rs : List Resp) : btoi64 s = .ok rs.length → 0 < rs.length →
      (rs.length : Int) ≤ maxArrayLen → s.length + 2 ≤ size → FramesIn size bs rs →
      (∀ r ∈ rs, r.isBulkBytes) → RequestIn size (42 :: s ++ crlf ++ bs) rs
  | inline (p : List UInt8) : 10 ∉ p → (p ++ crlf).headD 0 ≠ 42 → words p ≠ [] →
      RequestIn size (p ++ crlf) ((words p).map fun w => .bulkBytes (some w))

/-! ### A run of calls -/

section Calls

variable {α : Type} {m : Decoder → Except Err α × Decoder} {G : List UInt8 → α → Prop}

/-- **What the calls return is the stream's frames, in order**, when each
call returns only a frame it took from the front. -/
theorem calls_sound
    (hm : ∀ d v d', d.Ok → m d = (.ok v, d') → d'.Ok ∧ ∃ f, G f v ∧ d.br.unread = f ++ d'.br.unread) :
    ∀ (n : Nat) (d : Decoder) (vs : List α), d.Ok → (Decoder.calls m n d).1 = vs.map .ok →
      ∃ fs : List (List UInt8 × α), fs.map Prod.snd = vs ∧ (∀ p ∈ fs, G p.1 p.2) ∧
        d.br.unread = (fs.map Prod.fst).flatten ++ (Decoder.calls m n d).2.br.unread
  | 0, d, vs, _, h => by
    obtain rfl : vs = [] := List.map_eq_nil_iff.mp h.symm
    exact ⟨[], rfl, nofun, rfl⟩
  | n + 1, d, vs, hd, h => by
    cases vs with
    | nil => cases h
    | cons v vs =>
      simp only [Decoder.calls, List.map_cons, List.cons.injEq] at h ⊢
      obtain ⟨hok, f, hf, hu⟩ := hm d v (m d).2 hd (by rw [← h.1])
      obtain ⟨fs, h1, h2, h3⟩ := calls_sound hm n (m d).2 vs hok h.2
      refine ⟨(f, v) :: fs, by simp [h1], ?_, by simp [hu, h3]⟩
      simp only [List.mem_cons, forall_eq_or_imp]
      exact ⟨hf, h2⟩

/-- **The calls return every frame of the stream, in order**, when each call
reads a frame from the front of the rest, from any decoder that has not
failed. -/
theorem calls_complete {size : Nat}
    (hm : ∀ d f t v, d.err = none → Within size d.br (f ++ t) → G f v →
      ∃ d', m d = (.ok v, d') ∧ d'.err = none ∧ Within size d'.br t) :
    ∀ (fs : List (List UInt8 × α)) (d : Decoder) (t : List UInt8), (∀ p ∈ fs, G p.1 p.2) →
      d.err = none → Within size d.br ((fs.map Prod.fst).flatten ++ t) →
      ∃ d', Decoder.calls m fs.length d = (fs.map fun p => .ok p.2, d') ∧ d'.err = none ∧
        Within size d'.br t
  | [], d, _, _, he, h => ⟨d, rfl, he, h⟩
  | p :: fs, d, t, hg, he, h => by
    simp only [List.mem_cons, forall_eq_or_imp] at hg
    obtain ⟨d1, h1, he1, hw1⟩ := hm d p.1 ((fs.map Prod.fst).flatten ++ t) p.2 he
      (by simpa using h) hg.1
    obtain ⟨d', h2, he', hw'⟩ := calls_complete hm fs d1 t hg.2 he1 hw1
    exact ⟨d', by simp [Decoder.calls, h1, h2], he', hw'⟩

theorem calls_succ (m : Decoder → Except Err α × Decoder) :
    ∀ (n : Nat) (d : Decoder), Decoder.calls m (n + 1) d =
      ((Decoder.calls m n d).1 ++ [(m (Decoder.calls m n d).2).1], (m (Decoder.calls m n d).2).2)
  | 0, _ => rfl
  | n + 1, d => by
    rw [Decoder.calls, calls_succ m n (m d).2]
    rfl

end Calls

/-! ### One call -/

variable {size : Nat} {d d' : Decoder}

/-- A value `Decode` returns is a frame taken from the front of the stream. -/
theorem decode_frame {v : Resp} (hd : d.Ok) (h : d.decode = (.ok v, d')) :
    d'.Ok ∧ ∃ f, Frame f v ∧ d.br.unread = f ++ d'.br.unread := by
  have hok := decode_ok hd
  rw [h] at hok
  refine ⟨hok, ?_⟩
  unfold Decoder.decode at h
  split at h
  · cases h
  · rename_i he
    split at h
    · rename_i r br hr
      cases h
      obtain ⟨f, hf, hd'⟩ := decodeResp_sound _ _ _ _ (hd he) hr
      exact ⟨f, hf, hd'.unread⟩
    · cases h

theorem decode_within {f t : List UInt8} {v : Resp} (he : d.err = none)
    (h : Within size d.br (f ++ t)) (hf : FrameIn size f v) :
    ∃ d', d.decode = (.ok v, d') ∧ d'.err = none ∧ Within size d'.br t := by
  obtain ⟨b', hr, h'⟩ := decodeResp_frameIn d.fuel hf
    (by simp only [Decoder.fuel, h.unread, List.length_append]; omega) h
  exact ⟨{ d with br := b' }, by simp [Decoder.decode, he, hr], he, h'⟩

/-- A request `DecodeMultiBulk` returns is taken from the front of the
stream. -/
theorem decodeMultiBulk_request {rs : List Resp} (hd : d.Ok) (h : d.decodeMultiBulk = (.ok rs, d')) :
    d'.Ok ∧ ∃ f, MultiBulk f rs ∧ d.br.unread = f ++ d'.br.unread := by
  have hok := decodeMultiBulk_ok hd
  rw [h] at hok
  refine ⟨hok, ?_⟩
  unfold Decoder.decodeMultiBulk at h
  split at h
  · cases h
  · rename_i he
    split at h
    · rename_i r br hr
      cases h
      obtain ⟨f, hf, hd'⟩ := decodeMultiBulk_sound _ _ _ _ (hd he) hr
      exact ⟨f, hf, hd'.unread⟩
    · cases h

/-- `DecodeMultiBulk` reads a request that fits the buffer from the front of
the rest. -/
theorem decodeMultiBulk_within {f t : List UInt8} {rs : List Resp} (he : d.err = none)
    (h : Within size d.br (f ++ t)) (hf : RequestIn size f rs) :
    ∃ d', d.decodeMultiBulk = (.ok rs, d') ∧ d'.err = none ∧ Within size d'.br t := by
  cases hf with
  | multiBulk s bs rs hs hpos hmax hl hbs hb =>
    obtain ⟨b2, h2, hr⟩ := decodeMultiBulk_star d.fuel
      (show Within size d.br (42 :: s ++ crlf ++ (bs ++ t)) by simpa using h) hs hl
    rw [if_neg (by omega), if_neg (by omega), Int.toNat_natCast] at hr
    -- every element is shorter than the stream, so the fuel reads it
    obtain ⟨b', hr', h'⟩ := decodeMultiBulkItems_bulks hbs hb
      (fun hg hl' hw => decodeResp_frameIn d.fuel hg
        (by simp only [Decoder.fuel, h.unread, List.length_append, List.length_cons]; omega) hw) h2
    exact ⟨{ d with br := b' }, Decoder.decodeMultiBulk_eq_ok he (hr.trans hr'), he, h'⟩
  | inline p hp ht hw =>
    obtain ⟨b', h', hr⟩ := decodeMultiBulk_inline d.fuel (show Within size d.br (p ++ crlf ++ t) from h)
      hp ht
    rw [if_neg hw] at hr
    exact ⟨{ d with br := b' }, Decoder.decodeMultiBulk_eq_ok he hr, he, h'⟩

/-! ### A connection -/

theorem newDecoderSize_within {src : Source} (hsrc : src.Live) (size : Int) {rest : List UInt8}
    (hs : src.bytes = rest) :
    Within (newDecoderSize src size).br.buf.length (newDecoderSize src size).br rest :=
  ⟨newReaderSize_live hsrc size, rfl, (newReaderSize_unread src size).trans hs⟩

/-- **The k-th `Decode` on a connection returns the k-th frame of its
stream.** Over every source and buffer size, the values the first `n` calls
return without an error are frames the stream starts with, one after the
other. Over a live source whose stream is frames whose length lines fit the
buffer, followed by anything, the calls return those frames' values in
order, and the decoder, not failed, has the rest of the stream to read. -/
theorem decode_pipeline (src : Source) (size : Int) :
    (∀ (n : Nat) (vs : List Resp), ((newDecoderSize src size).calls Decoder.decode n).1 = vs.map .ok →
      ∃ fs : List (List UInt8 × Resp), fs.map Prod.snd = vs ∧ (∀ p ∈ fs, Frame p.1 p.2) ∧
        src.bytes = (fs.map Prod.fst).flatten ++
          ((newDecoderSize src size).calls Decoder.decode n).2.br.unread) ∧
    (src.Live → ∀ (fs : List (List UInt8 × Resp)) (t : List UInt8),
      (∀ p ∈ fs, FrameIn (newDecoderSize src size).br.buf.length p.1 p.2) →
      src.bytes = (fs.map Prod.fst).flatten ++ t →
      ∃ d', (newDecoderSize src size).calls Decoder.decode fs.length = (fs.map fun p => .ok p.2, d') ∧
        d'.err = none ∧ d'.br.Live ∧ d'.br.unread = t) := by
  refine ⟨fun n vs h => ?_, fun hsrc fs t hg hs => ?_⟩
  · rw [← newReaderSize_unread src size]
    exact calls_sound (fun _ _ _ => decode_frame) n _ vs (newDecoderSize_ok src size) h
  · obtain ⟨d', h1, h2, h3⟩ := calls_complete (fun _ _ _ _ => decode_within) fs _ t hg rfl
      (newDecoderSize_within hsrc size hs)
    exact ⟨d', h1, h2, h3.live, h3.unread⟩

/-- Two replies, `+OK` and `:1`, split across three reads. -/
def twoReplies : Source := ⟨[[43, 79], [75, 13, 10, 58, 49, 13], [10]], false, .eof⟩

theorem decode_pipeline_twoReplies :
    twoReplies.Live ∧
      FrameIn (newDecoderSize twoReplies 16).br.buf.length [43, 79, 75, 13, 10] (.string [79, 75]) ∧
      FrameIn (newDecoderSize twoReplies 16).br.buf.length [58, 49, 13, 10] (.int [49]) ∧
      ∃ d', (newDecoderSize twoReplies 16).calls Decoder.decode 2 =
          ([.ok (.string [79, 75]), .ok (.int [49])], d') ∧
        d'.err = none ∧ d'.br.Live ∧ d'.br.unread = [] :=
  have hlive : twoReplies.Live := ⟨rfl, by simp [twoReplies]⟩
  have h1 : FrameIn (newDecoderSize twoReplies 16).br.buf.length [43, 79, 75, 13, 10]
      (.string [79, 75]) := .string [79, 75] (by decide)
  have h2 : FrameIn (newDecoderSize twoReplies 16).br.buf.length [58, 49, 13, 10] (.int [49]) :=
    .int [49] (by decide)
  ⟨hlive, h1, h2, (decode_pipeline twoReplies 16).2 hlive
    [([43, 79, 75, 13, 10], .string [79, 75]), ([58, 49, 13, 10], .int [49])] []
    (by simp only [List.mem_cons, List.mem_singleton, forall_eq_or_imp]; exact ⟨h1, h2, nofun⟩) rfl⟩

/-- **Pipelined requests come out of `DecodeMultiBulk` one by one.** Over
every source and buffer size, the requests the first `n` calls return without
an error are requests the stream starts with, one after the other. Over a
live source whose stream is requests (arrays of bulks, inline commands)
whose length lines fit the buffer, followed by anything, the calls return
them in order, and the decoder, not failed, has the rest to read. -/
theorem decodeMultiBulk_pipeline (src : Source) (size : Int) :
    (∀ (n : Nat) (ms : List (List Resp)),
      ((newDecoderSize src size).calls Decoder.decodeMultiBulk n).1 = ms.map .ok →
      ∃ fs : List (List UInt8 × List Resp), fs.map Prod.snd = ms ∧ (∀ p ∈ fs, MultiBulk p.1 p.2) ∧
        src.bytes = (fs.map Prod.fst).flatten ++
          ((newDecoderSize src size).calls Decoder.decodeMultiBulk n).2.br.unread) ∧
    (src.Live → ∀ (fs : List (List UInt8 × List Resp)) (t : List UInt8),
      (∀ p ∈ fs, RequestIn (newDecoderSize src size).br.buf.length p.1 p.2) →
      src.bytes = (fs.map Prod.fst).flatten ++ t →
      ∃ d', (newDecoderSize src size).calls Decoder.decodeMultiBulk fs.length =
          (fs.map fun p => .ok p.2, d') ∧
        d'.err = none ∧ d'.br.Live ∧ d'.br.unread = t) := by
  refine ⟨fun n ms h => ?_, fun hsrc fs t hg hs => ?_⟩
  · rw [← newReaderSize_unread src size]
    exact calls_sound (fun _ _ _ => decodeMultiBulk_request) n _ ms (newDecoderSize_ok src size) h
  · obtain ⟨d', h1, h2, h3⟩ := calls_complete (fun _ _ _ _ => decodeMultiBulk_within) fs _ t hg rfl
      (newDecoderSize_within hsrc size hs)
    exact ⟨d', h1, h2, h3.live, h3.unread⟩

/-- An inline `PING`, then `*1\r\n$4\r\nPING\r\n`, in two reads. -/
def twoPings : Source :=
  ⟨[[80, 73, 78, 71, 13, 10, 42, 49], [13, 10, 36, 52, 13, 10, 80, 73, 78, 71, 13, 10]], false, .eof⟩

theorem decodeMultiBulk_pipeline_twoPings :
    twoPings.Live ∧
      RequestIn (newDecoderSize twoPings 16).br.buf.length [80, 73, 78, 71, 13, 10]
        [.bulkBytes (some [80, 73, 78, 71])] ∧
      RequestIn (newDecoderSize twoPings 16).br.buf.length
        [42, 49, 13, 10, 36, 52, 13, 10, 80, 73, 78, 71, 13, 10] [.bulkBytes (some [80, 73, 78, 71])] ∧
      ∃ d', (newDecoderSize twoPings 16).calls Decoder.decodeMultiBulk 2 =
          ([.ok [.bulkBytes (some [80, 73, 78, 71])], .ok [.bulkBytes (some [80, 73, 78, 71])]], d') ∧
        d'.err = none ∧ d'.br.Live ∧ d'.br.unread = [] :=
  have hlive : twoPings.Live := ⟨rfl, by simp [twoPings]⟩
  have h1 : RequestIn (newDecoderSize twoPings 16).br.buf.length [80, 73, 78, 71, 13, 10]
      [.bulkBytes (some [80, 73, 78, 71])] :=
    RequestIn.inline [80, 73, 78, 71] (by decide) (by decide) (by simp [words_no_space])
  have h2 : RequestIn (newDecoderSize twoPings 16).br.buf.length
      [42, 49, 13, 10, 36, 52, 13, 10, 80, 73, 78, 71, 13, 10] [.bulkBytes (some [80, 73, 78, 71])] :=
    .multiBulk [49] _ _ rfl (by decide) (by decide) (by decide)
      (@FramesIn.cons _ [36, 52, 13, 10, 80, 73, 78, 71, 13, 10] [] _ _
        (.bulk [52] [80, 73, 78, 71] rfl (by decide) (by decide)) .nil) (by simp [Resp.isBulkBytes])
  ⟨hlive, h1, h2, (decodeMultiBulk_pipeline twoPings 16).2 hlive
    [([80, 73, 78, 71, 13, 10], [.bulkBytes (some [80, 73, 78, 71])]),
      ([42, 49, 13, 10, 36, 52, 13, 10, 80, 73, 78, 71, 13, 10], [.bulkBytes (some [80, 73, 78, 71])])] []
    (by simp only [List.mem_cons, List.mem_singleton, forall_eq_or_imp]; exact ⟨h1, h2, nofun⟩) rfl⟩

/-! ### The package's entry points -/

/-- `NewDecoder`: a reader of 8192 bytes. -/
def newDecoder (rd : Source) : Decoder := newDecoderSize rd 8192

/-- `bytes.NewReader(p)`: each `Read` hands out as much of the rest of `p`
as fits, with no error, and `io.EOF` once it is all read. -/
def bytesReader (p : List UInt8) : Source := ⟨if p = [] then [] else [p], false, .eof⟩

/-- `Decode(r)`. -/
def decode (rd : Source) : Except Err Resp := (newDecoder rd).decode.1

/-- `DecodeFromBytes`. -/
def decodeFromBytes (p : List UInt8) : Except Err Resp := (newDecoder (bytesReader p)).decode.1

/-- `DecodeMultiBulkFromBytes`. -/
def decodeMultiBulkFromBytes (p : List UInt8) : Except Err (List Resp) :=
  (newDecoder (bytesReader p)).decodeMultiBulk.1

theorem bytesReader_live (p : List UInt8) : (bytesReader p).Live :=
  ⟨rfl, by unfold bytesReader; split <;> simp_all⟩

theorem bytesReader_bytes (p : List UInt8) : (bytesReader p).bytes = p := by
  unfold bytesReader Source.bytes; split <;> simp_all

theorem newDecoder_bytesReader (p : List UInt8) : Within 8192 (newDecoder (bytesReader p)).br p :=
  ⟨newReaderSize_live (bytesReader_live p) 8192, by simp [newDecoder, newDecoderSize, newReaderSize_length],
    (newReaderSize_unread _ _).trans (bytesReader_bytes p)⟩

/-- `DecodeFromBytes` returns the frame a slice starts with, when its length
lines fit 8192 bytes. -/
theorem decodeFromBytes_frameIn {f t : List UInt8} {v : Resp} (hf : FrameIn 8192 f v) :
    decodeFromBytes (f ++ t) = .ok v := by
  obtain ⟨d', h, -⟩ := decode_within rfl (newDecoder_bytesReader (f ++ t)) hf
  simp only [decodeFromBytes, h]

/-- **`DecodeFromBytes` reads back `ser v`** for every bounded value, whatever
follows it. -/
theorem decodeFromBytes_ser (v : Resp) (hv : v.Bounded) (t : List UInt8) :
    decodeFromBytes (ser v ++ t) = .ok v :=
  decodeFromBytes_frameIn (ser_frameIn (by decide) v hv)

example : decodeFromBytes (ser (.array (some [.bulkBytes none, .int [49]]))) =
    .ok (.array (some [.bulkBytes none, .int [49]])) := by
  simpa using decodeFromBytes_ser (.array (some [.bulkBytes none, .int [49]]))
    (by simp [Resp.Bounded, Resp.BoundedList, maxArrayLen]) []

end Redis
end Codis
