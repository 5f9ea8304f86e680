/-
# The decoder reads back every bounded frame

`Decode` on a stream that starts with `ser v` returns `v` and leaves the
rest of the stream unread, for every bounded value `v` of any depth, every
suffix, every buffer of at least 11 bytes and every split of the stream into
`Read` results that bring no error with their bytes (`decode_roundTrip`).
Eleven bytes hold the longest length line of `ser`, `536870912\r\n`, which
`decodeInt` reads with `ReadSlice`; text lines and payloads take any length.
So `ser v` is a frame of `FrameIn 11` (`ser_frameIn`), and the round trip is
the completeness of `Decode` (`decode_complete`) at it.

A `Read` may also return its last bytes together with `io.EOF`. `fill` then
keeps the error and drops the bytes, so a stream that comes in one such
`Read` is lost whole (`decode_one_tail_chunk`), and `+OK\r\n` so delivered
is not read back (`decode_roundTrip_tail_chunk`).

Key theorems: `ser_frameIn`, `decode_roundTrip`, `decode_one_tail_chunk`.
-/
import Codis.Redis.Complete

namespace Codis
namespace Redis

open Bufio2 Reader

theorem decimal_fits {n : Nat} (h : (n : Int) ≤ maxBulkBytesLen) : (decimal n).length + 2 ≤ 11 := by
  have := decimal_length_le (k := 8) (show n < 10 ^ (8 + 1) by simp [maxBulkBytesLen] at h; omega)
  omega

mutual
/-- **`ser` of a bounded value is a frame** whose length lines fit in 11
bytes. -/
theorem ser_frameIn {size : Nat} (hs : 11 ≤ size) : ∀ v : Resp, v.Bounded → FrameIn size (ser v) v
  | .string p, hv => .string p hv
  | .error p, hv => .error p hv
  | .int p, hv => .int p hv
  | .bulkBytes none, _ => .nullBulk [45, 49] btoi64_minus_one (by simp; omega)
  | .bulkBytes (some p), hv =>
    .bulk _ p (btoi64_decimal hv) hv (by have := decimal_fits hv; omega)
  | .array none, _ => .nullArray [45, 49] btoi64_minus_one (by simp; omega)
  | .array (some rs), ⟨hl, hrs⟩ =>
    have hn : (rs.length : Int) ≤ maxBulkBytesLen := by
      simp only [maxArrayLen] at hl; simp only [maxBulkBytesLen]; omega
    .array _ _ rs (btoi64_decimal hn) hl (by have := decimal_fits hn; omega)
      (serList_framesIn hs rs hrs)

theorem serList_framesIn {size : Nat} (hs : 11 ≤ size) :
    ∀ rs : List Resp, Resp.BoundedList rs → FramesIn size (serList rs) rs
  | [], _ => .nil
  | r :: rs, ⟨hr, hrs⟩ => .cons (ser_frameIn hs r hr) (serList_framesIn hs rs hrs)
end

/-- **Round trip.** On a fresh decoder whose buffer holds at least 11 bytes,
over any split of `ser v ++ t` into non-empty `Read` results that come with
a nil error, the final error on a `Read` of its own, `Decode` returns `v`
with no error, and the reader then delivers exactly `t`. -/
theorem decode_roundTrip (v : Resp) (hv : v.Bounded) (t : List UInt8) (size : Int)
    (hsize : 11 ≤ size) (chunks : List (List UInt8)) (hc : ∀ c ∈ chunks, c ≠ [])
    (hs : chunks.flatten = ser v ++ t) (e : Err) :
    ∃ d', (newDecoderSize ⟨chunks, false, e⟩ size).decode = (.ok v, d') ∧ d'.err = none ∧
      d'.br.Live ∧ d'.br.unread = t ∧ ∃ br', d'.br.readFull t.length = .ok t br' := by
  have hbuf : 11 ≤ (newDecoderSize ⟨chunks, false, e⟩ size).br.buf.length := by
    show 11 ≤ (newReaderSize _ size).buf.length
    rw [newReaderSize_length, if_neg (by omega)]; omega
  obtain ⟨d', hr, he, hl, hu⟩ := decode_complete ⟨chunks, false, e⟩ size ⟨rfl, hc⟩
    (ser_frameIn hbuf v hv) hs
  obtain ⟨br', hf, -⟩ := readFull_live hl (le_of_eq (congrArg List.length hu).symm)
  exact ⟨d', hr, he, hl, hu, br', by simpa [hu] using hf⟩

/-- A null bulk and an empty bulk in one array, read back apart, with one
byte of the next frame left. -/
example :
    ∃ d', (newDecoderSize ⟨[ser (.array (some [.bulkBytes none, .bulkBytes (some [])])) ++ [43]],
        false, .eof⟩ 11).decode = (.ok (.array (some [.bulkBytes none, .bulkBytes (some [])])), d') ∧
      d'.err = none ∧ d'.br.Live ∧ d'.br.unread = [43] ∧
      ∃ br', d'.br.readFull [43].length = .ok [43] br' :=
  decode_roundTrip _ (by simp [Resp.Bounded, Resp.BoundedList, maxArrayLen, maxBulkBytesLen]) [43]
    11 (by decide) _ (by simp) (by simp) .eof

/-- **A stream that comes in one `Read` together with its error is lost.**
Into a fresh buffer that holds it, `Decode` fails with the error and nothing
is left to read: `fill` keeps the error and drops the bytes. -/
theorem decode_one_tail_chunk {u : List UInt8} {e : Err} {size : Int}
    (hu : u.length ≤ (newReaderSize ⟨[u], true, e⟩ size).buf.length) :
    ∃ d', (newDecoderSize ⟨[u], true, e⟩ size).decode = (.error e, d') ∧ d'.br.unread = [] := by
  obtain ⟨b', hb, hu'⟩ := readByte_one_tail_chunk (b := newReaderSize ⟨[u], true, e⟩ size) rfl rfl rfl rfl hu
  exact ⟨⟨b', some e⟩, by simp [Decoder.decode, newDecoderSize, Decoder.fuel, decodeResp, bind, EStateM.bind, hb],
    hu'⟩

/-- `+OK\r\n` in one `Read` with a nil error, then `io.EOF`: `Decode`
returns `+OK`. The same bytes in one `Read` together with `io.EOF`: `Decode`
fails with `io.EOF`, and the bytes are gone. -/
theorem decode_roundTrip_tail_chunk :
    (∃ d', (newDecoderSize ⟨[ser (.string [79, 75])], false, .eof⟩ 16).decode = (.ok (.string [79, 75]), d')) ∧
      ∃ d', (newDecoderSize ⟨[ser (.string [79, 75])], true, .eof⟩ 16).decode = (.error .eof, d') ∧
        d'.br.unread = [] :=
  ⟨(decode_roundTrip _ (by simp [Resp.Bounded]) [] 16 (by decide) _ (by simp [ser]) (by simp) .eof).imp
    fun _ h => h.1, decode_one_tail_chunk (by decide)⟩

end Redis
end Codis
